/-
# What the ledgers name

The last moves of a build with blocks go by the two ledgers: a field that no ledger names, and
no link of a partition that a block of the ledger uses, stays where it was made.  `Filed` says
what is known by a formula and yet may be left.  Of fields, nothing: one that is known has a name
in the ledger of fields, or describes a partition.  Of blocks, some: the ledger has one entry for
all rules whose blocks its order does not tell apart, and these may have two blocks, as costs of
operands make a difference between names that the order of blocks does not look at.  The later
block takes the entry over.  Where costs go with signatures that does not occur, since mates have
members in one block.

An entry is taken over by a block that uses the same partition.  So every partition that is
linked is used by a block of the ledger, and its links are moved with it.
-/
import FeatureSynth.Proofs.Build.Learned
import FeatureSynth.Proofs.Build.SameBlock
import FeatureSynth.Proofs.Space.Blocks

namespace FeatureSynth

/-- An operator of statistics of blocks of parts. -/
def Catalogue.IsStatistic (op : String) : Prop :=
  ∃ t ∈ Catalogue.default, t.partitionStatistic = some op

theorem Catalogue.not_isStatistic_table : ¬ IsStatistic "TablePartition" := by
  have h : ∀ t ∈ Catalogue.default, t.partitionStatistic ≠ some "TablePartition" := by decide
  rintro ⟨t, ht, hop⟩
  exact h t ht hop

theorem Catalogue.not_isStatistic_value {t : Template} {op : String} (ht : t ∈ Catalogue.default)
    (hop : t.valueStatistic = some op) : ¬ IsStatistic op := by
  have h : ∀ op ∈ Catalogue.default.filterMap (·.valueStatistic),
      op ∉ Catalogue.default.filterMap (·.partitionStatistic) := by decide
  rintro ⟨u, hu, hop'⟩
  exact h op (List.mem_filterMap.mpr ⟨t, ht, hop⟩) (List.mem_filterMap.mpr ⟨u, hu, hop'⟩)

/-- Rules that fit a build over the default catalogue, with what they are built from. -/
structure Rule.FitAll (s : Space) (A : Rule → Prop) : Prop where
  hereditary : Rule.Hereditary A
  fit : ∀ r, A r → r.Fit s .default

namespace BuildState

/-- A block holds the parts of the table of a partition that a block of the ledger uses. -/
def UsesTable (b : BuildState) (C T : String) : Prop :=
  ∃ p, b.UsesPartition p ∧ p.parentClass = C ∧ p.tableBlock = some T

/-- A block of a class has a member for one of some rules. -/
def ServesRule (b : BuildState) (A : Rule → Prop) (C B : String) : Prop :=
  ∃ r, A r ∧ r.className = C ∧ b.InBlock r B

/-- Known fields are named or describe a partition, and known blocks hold the parts of a table or
have members for rules in `A`.  So do blocks that the ledger names, for rules that its order does
not tell from their entries; and if rules in `A` have the same costs where they have one signature, the
ledger names all known blocks but those of parts.  The blocks of parts that statistics are computed
of are those of partitions in use. -/
structure Filed (s : Space) (A : Rule → Prop) (b : BuildState) : Prop where
  field : ∀ C φ n, b.Knows C φ n → b.NamesField C n ∨ b.Describes C n
  block : ∀ C φ B, b.KnowsBlock C φ B → b.Tables C B ∨ b.ServesRule A C B
  templates : ∀ entry ∈ b.blockOf.entries, entry.1.Over .default
  named : ∀ x B, (x, some B) ∈ b.blockOf.entries →
    ∃ z, A z ∧ s.compareBlock x z = .eq ∧ b.InBlock z B
  kept : Rule.SameCosts A → ∀ C φ B, b.KnowsBlock C φ B → b.Tables C B ∨ b.NamesBlock C B
  statistic : ∀ C op T xs B, b.KnowsBlock C ⟨op, .field T :: xs⟩ B → Catalogue.IsStatistic op →
    b.UsesTable C T

/-- Partitions are described only if their tables are cut, and linked only if in use. -/
structure LinksUsed (b : BuildState) : Prop where
  described : ∀ p ∈ b.space.partitions, p.descriptorField.isSome = true → p.tableBlock.isSome = true
  tabled : ∀ p ∈ b.space.partitions, ∀ T, p.tableBlock = some T → b.UsesTable p.parentClass T

/-- What holds after every candidate of a build with blocks. -/
structure Orderly (s : Space) (A : Rule → Prop) (b : BuildState) : Prop where
  placed : Placed s .default b
  filed : Filed s A b
  used : LinksUsed b

/-- The ledger of blocks has the same rules. -/
def SameRules (b b' : BuildState) : Prop :=
  b'.blockOf.entries.map (·.1) = b.blockOf.entries.map (·.1)

variable {b b' b'' : BuildState} {s : Space} {A : Rule → Prop} {r : Rule} {C T n B : String}
variable {φ : Formula} {key : Nat}

theorem SameRules.trans (h : SameRules b b') (h' : SameRules b' b'') : SameRules b b'' :=
  Eq.trans h' h

theorem SameRules.of_eq (h : b'.blockOf = b.blockOf) : SameRules b b' := by
  rw [SameRules, h]

theorem SameRules.contains (h : SameRules b b') (hcuts : b.space.SameCuts b'.space) (r : Rule) :
    b'.blockOf.contains b'.space.compareBlock r = b.blockOf.contains b.space.compareBlock r := by
  rw [Ledger.contains, Ledger.search_congr h, Space.compareBlock_congr hcuts, Ledger.contains]

theorem Onward.servesRule (h : Onward b b') : b.ServesRule A C B → b'.ServesRule A C B
  | ⟨r, hr, hclass, hin⟩ => ⟨r, hr, hclass, h.inBlock hin⟩

/-! ## Links in use -/

/-- A partition stays in use while rules with a block keep one. -/
theorem UsesTable.mono (h : b.UsesTable C T) (hsettles : b.space.Settles b'.space)
    (hnamed : ∀ x B, (x, some B) ∈ b.blockOf.entries → ∃ B', (x, some B') ∈ b'.blockOf.entries) :
    b'.UsesTable C T := by
  obtain ⟨p, ⟨x, B, rank, hx, hrank, hp⟩, hclass, hT⟩ := h
  obtain ⟨B', hx'⟩ := hnamed x B hx
  obtain ⟨p', hp', hp⟩ := hsettles.partition rank p hp
  exact ⟨p', ⟨x, B', rank, hx', hrank, hp'⟩, hp.parentClass.trans hclass, hp.tabled T hT⟩

theorem UsesTable.of_eq (h : b.UsesTable C T) (hsettles : b.space.Settles b'.space)
    (hblockOf : b'.blockOf = b.blockOf) : b'.UsesTable C T :=
  h.mono hsettles fun _ B hx => ⟨B, hblockOf ▸ hx⟩

theorem LinksUsed.mono (h : LinksUsed b) (hspace : b'.space = b.space)
    (hnamed : ∀ x B, (x, some B) ∈ b.blockOf.entries → ∃ B', (x, some B') ∈ b'.blockOf.entries) :
    LinksUsed b' where
  described := by
    rw [hspace]
    exact h.described
  tabled := by
    intro p hp T hT
    rw [hspace] at hp
    exact (h.tabled p hp T hT).mono (by rw [hspace]; exact .refl _) hnamed

theorem LinksUsed.of_eq (h : LinksUsed b) (hspace : b'.space = b.space)
    (hblockOf : b'.blockOf = b.blockOf) : LinksUsed b' :=
  h.mono hspace fun _ B hx => ⟨B, hblockOf ▸ hx⟩

/-- A partition is linked, and in use. -/
theorem LinksUsed.of_linked (h : LinksUsed b) (hsettles : b.space.Settles b'.space)
    (hnamed : ∀ x B, (x, some B) ∈ b.blockOf.entries → ∃ B', (x, some B') ∈ b'.blockOf.entries)
    {rank : Nat} (hothers : ∀ k, k ≠ rank → b'.space.partitions[k]? = b.space.partitions[k]?)
    {p : Partition} (hp : b'.space.partitions[rank]? = some p) (hT : p.tableBlock = some T)
    (hused : b'.UsesTable p.parentClass T) : LinksUsed b' := by
  have hcases : ∀ q ∈ b'.space.partitions, q = p ∨ q ∈ b.space.partitions := by
    intro q hq
    obtain ⟨k, hk⟩ := List.mem_iff_getElem?.mp hq
    by_cases hkr : k = rank
    · subst hkr
      exact .inl (Option.some.inj (hk.symm.trans hp))
    · exact .inr (List.mem_of_getElem? ((hothers k hkr).symm.trans hk))
  refine ⟨fun q hq hdescribed => ?_, fun q hq T' hT' => ?_⟩
  · rcases hcases q hq with rfl | hold
    · rw [hT, Option.isSome_some]
    · exact h.described q hold hdescribed
  · rcases hcases q hq with rfl | hold
    · obtain rfl : T = T' := Option.some.inj (hT.symm.trans hT')
      exact hused
    · exact (h.tabled q hold T' hT').mono hsettles hnamed

/-! ## Steps -/

/-- A step that names or links whatever it makes known. -/
theorem Filed.of_learns (h : Filed s A b) (honward : Onward b b') (hlearns : Learns b b') :
    Filed s A b' where
  field := by
    intro C φ n hn
    rcases hlearns.field C φ n hn with hold | hnew
    · exact (h.field C φ n hold).imp honward.namesField honward.describes
    · exact hnew
  block := by
    intro C φ B hB
    rcases hlearns.block C φ B hB with hold | ⟨htable, -⟩
    · exact (h.block C φ B hold).imp honward.tables honward.servesRule
    · exact .inl htable
  templates := by
    rw [hlearns.blockOf]
    exact h.templates
  named := by
    intro x B hx
    rw [hlearns.blockOf] at hx
    obtain ⟨z, hz, horder, hin⟩ := h.named x B hx
    exact ⟨z, hz, horder, honward.inBlock hin⟩
  kept := by
    intro hsame C φ B hB
    rcases hlearns.block C φ B hB with hold | ⟨htable, -⟩
    · refine (h.kept hsame C φ B hold).imp honward.tables ?_
      rintro ⟨x, hx, hclass⟩
      exact ⟨x, hlearns.blockOf ▸ hx, hclass⟩
    · exact .inl htable
  statistic := by
    intro C op T xs B hB hop
    rcases hlearns.block C _ B hB with hold | ⟨-, rfl⟩
    · exact (h.statistic C op T xs B hold hop).of_eq honward.settles hlearns.blockOf
    · exact absurd hop Catalogue.not_isStatistic_table

/-- Rules that the order of blocks does not tell from a checked block rule are its mates. -/
theorem mates_of_compareBlock (hs : s.WellFounded) (hr : r.Fit s .default)
    (hblock : r.isBlockRule = true) {x : Rule} (hx : x.Over .default)
    (heq : s.compareBlock x r = .eq) : Rule.Mates x r :=
  Rule.mates_of_eraseFirst Catalogue.blocksOfTables_default r x hr.told.named hr.checked hblock hx
    ((Space.compareBlock_eq_iff hs).mp heq).2

/-- A member for a rule that blocks are collected of. -/
theorem Filed.of_memberFor (hA : Rule.FitAll s A) (h : Filed s A b) (hcuts : s.SameCuts b.space)
    (hplaced : Placed s .default b') (honward : Onward b b') (hr : A r)
    (hblock : r.isBlockRule = true) (hname : b'.HasName r n)
    (hcollected : b.blockOf.contains b.space.compareBlock r = true)
    (hused : ∀ x B, (x, some B) ∈ b'.blockOf.entries → Rule.Mates x r →
      ∀ op T xs, φ = ⟨op, .field T :: xs⟩ → Catalogue.IsStatistic op → b'.UsesTable r.className T)
    (hmember : MemberFor r φ key n b b') : Filed s A b' ∧ SameRules b b' := by
  have hs := hplaced.sound.wellFounded
  cases hmember with
  | known member learns space => exact ⟨h.of_learns honward learns, .of_eq learns.blockOf⟩
  | @made B member block blockOf field before space =>
    rw [Space.compareBlock_congr hcuts] at blockOf hcollected
    have hrules : SameRules b b' := by
      rw [SameRules, blockOf, Ledger.rules_update]
    have hover : ∀ entry ∈ b'.blockOf.entries, entry.1.Over .default := by
      intro entry hentry
      have hmem : entry.1 ∈ b.blockOf.entries.map (·.1) := hrules ▸ List.mem_map_of_mem hentry
      obtain ⟨old, hold, heq⟩ := List.mem_map.mp hmem
      exact heq ▸ h.templates old hold
    have hmates : ∀ x B', (x, some B') ∈ b'.blockOf.entries → s.compareBlock x r = .eq →
        Rule.Mates x r := fun x B' hx heq =>
      mates_of_compareBlock hs (hA.fit r hr) hblock (hover _ hx) heq
    have hin : b'.InBlock r B := hplaced.inBlock (hA.fit r hr).told.named hname
      (hplaced.sound.hasCore_of_knowsBlock member block)
    obtain ⟨x₀, hx₀, heq₀⟩ : ∃ x, (x, some B) ∈ b'.blockOf.entries ∧ s.compareBlock x r = .eq := by
      rw [blockOf]
      exact Ledger.update_names hcollected
    have hkeeps : ∀ x B', (x, some B') ∈ b.blockOf.entries →
        (x, some B') ∈ b'.blockOf.entries ∨
          ((x, some B) ∈ b'.blockOf.entries ∧ s.compareBlock x r = .eq) := by
      rw [blockOf]
      exact fun x B' hx => Ledger.update_keeps hx
    refine ⟨⟨fun C ψ m hm => ?_, fun C ψ B' hB' => ?_, hover, fun x B' hx => ?_,
      fun hsame C ψ B' hB' => ?_, fun C op T xs B' hB' hop => ?_⟩, hrules⟩
    · exact (h.field C ψ m (field C ψ m hm)).imp honward.namesField honward.describes
    · rcases before C ψ B' hB' with hold | ⟨rfl, rfl⟩
      · exact (h.block C ψ B' hold).imp honward.tables honward.servesRule
      · exact .inr ⟨r, hr, rfl, hB'.unique block ▸ hin⟩
    · rw [blockOf] at hx
      rcases Ledger.mem_update hx with hold | ⟨rfl, heq⟩
      · obtain ⟨z, hz, horder, hz'⟩ := h.named x B' hold
        exact ⟨z, hz, horder, honward.inBlock hz'⟩
      · exact ⟨r, hr, heq, hin⟩
    · rcases before C ψ B' hB' with hold | ⟨rfl, rfl⟩
      · rcases h.kept hsame C ψ B' hold with htable | ⟨x, hx, rfl⟩
        · exact .inl (honward.tables htable)
        · rcases hkeeps x B' hx with hstays | ⟨htaken, heq⟩
          · exact .inr ⟨x, hstays, rfl⟩
          · -- the entry is taken over by a block of mates, which is the one it had
            obtain ⟨z, hz, horder, hz'⟩ := h.named x B' hx
            have hzr : Rule.Mates z r := Rule.mates_of_eraseFirst Catalogue.blocksOfTables_default
              r z (hA.fit r hr).told.named (hA.fit r hr).checked hblock (hA.fit z hz).told.named
              (((Space.compareBlock_eq_iff hs).mp horder).2.symm.trans
                ((Space.compareBlock_eq_iff hs).mp heq).2)
            obtain rfl : B' = B := hplaced.same_block hA.hereditary
              (fun x hx => (hA.fit x hx).told) hsame hzr hz hr (honward.inBlock hz') hin
            exact .inr ⟨x, htaken, rfl⟩
      · obtain rfl : B' = B := hB'.unique block
        exact .inr ⟨x₀, hx₀, (hmates x₀ _ hx₀ heq₀).className_eq⟩
    · rcases before C _ B' hB' with hold | ⟨rfl, rfl⟩
      · refine (h.statistic C op T xs B' hold hop).mono honward.settles fun x D hx => ?_
        rcases hkeeps x D hx with hstays | ⟨htaken, -⟩
        · exact ⟨D, hstays⟩
        · exact ⟨B, htaken⟩
      · exact hused x₀ B hx₀ (hmates x₀ B hx₀ heq₀) op T xs rfl hop

namespace Orderly

/-- A step that leaves the space as it is, and names or links whatever it makes known. -/
theorem of_learns (h : Orderly s A b) (hplaced : Placed s .default b') (honward : Onward b b')
    (hlearns : Learns b b') (hspace : b'.space = b.space) : Orderly s A b' where
  placed := hplaced
  filed := h.filed.of_learns honward hlearns
  used := h.used.of_eq hspace hlearns.blockOf

/-- A step that only marks and moves. -/
theorem of_stays (h : Orderly s A b) (hg : Stays b b') (hsame : Build.SameLedgers b b') :
    Orderly s A b' :=
  have hlinks : Links b b' :=
    .of_stays h.placed.sound.linked hg hsame.space hsame.fieldOf
  h.of_learns (h.placed.of_stays hg hsame) (.of_links hlinks)
    (.of_stays h.placed.sound.linked hg hsame.blockOf) hsame.space

end Orderly

end BuildState

end FeatureSynth
