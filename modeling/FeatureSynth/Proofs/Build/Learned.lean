/-
# What a step learns

Fields and blocks get known by formulas in few places.  A field is known by its formula because
it is that of a rule, which the ledger names from then on, or the descriptor of a partition,
which is linked to it.  A block is known because it holds the parts of a table, and is linked,
or because it is a statistic, and then the ledger of blocks is told.  So whatever a step makes
known, it leaves a name or a link to.
-/
import FeatureSynth.Proofs.Build.Arranged
import FeatureSynth.Proofs.Build.FollowBlocks
import FeatureSynth.Proofs.Build.Members

namespace FeatureSynth

/-- A block known after a step was known before, or was added. -/
theorem Grows.knowsBlock_before {added : String → List Addition} {blocks : String → List Block}
    {b b' : BuildState} (h : Grows added blocks b b') (hb : b.Linked) {C : String} {φ : Formula}
    {B : String} (hn : b'.KnowsBlock C φ B) : b.KnowsBlock C φ B ∨ ⟨B, φ⟩ ∈ blocks C := by
  obtain ⟨e', c', he', hc', hn⟩ := hn
  obtain ⟨c, hc⟩ := h.class_before hc'
  obtain ⟨e, he⟩ := hb.entity_of_class C c hc
  obtain ⟨e₁, c₁, -, hc₁, hclass⟩ := h.grows C e c he hc
  obtain rfl : c' = c₁ := Option.some.inj (hc'.symm.trans hc₁)
  rw [ClassRecord.block?, hclass.blocks_eq, List.lookup_append, Option.or_eq_some_iff] at hn
  rcases hn with hold | ⟨-, hnew⟩
  · exact .inl ⟨e, c, he, hc, hold⟩
  · obtain ⟨B', hB', heq⟩ := List.mem_map.mp (mem_of_lookup hnew)
    cases heq
    exact .inr hB'

namespace BuildState

/-- The ledger of fields names a field of a class. -/
def NamesField (b : BuildState) (C n : String) : Prop :=
  ∃ r, (r, some n) ∈ b.fieldOf.entries ∧ r.className = C

/-- A field is linked to a partition of its class as the descriptor. -/
def Describes (b : BuildState) (C n : String) : Prop :=
  ∃ p ∈ b.space.partitions, p.parentClass = C ∧ p.descriptorField = some n

/-- A block is linked to a partition of its class as the block of parts. -/
def Tables (b : BuildState) (C T : String) : Prop :=
  ∃ p ∈ b.space.partitions, p.parentClass = C ∧ p.tableBlock = some T

variable {b b' b'' : BuildState} {C n B T : String} {φ : Formula} {r : Rule}

theorem HasName.namesField (h : b.HasName r n) : b.NamesField r.className n := by
  obtain ⟨x, hx, halike⟩ := h
  exact ⟨x, hx, Rule.className_eq_of_signature halike.signature⟩

theorem Knows.unique {m : String} (h : b.Knows C φ n) (h' : b.Knows C φ m) : n = m := by
  obtain ⟨e, c, -, hc, hn⟩ := h
  obtain ⟨e', c', -, hc', hm⟩ := h'
  obtain rfl : c = c' := Option.some.inj (hc.symm.trans hc')
  exact Option.some.inj (hn.symm.trans hm)

/-- A partition that something is said of has settled afterwards. -/
theorem exists_settled (h : b.space.Settles b'.space) {p : Partition}
    (hp : p ∈ b.space.partitions) : ∃ p' ∈ b'.space.partitions, p.Settles p' := by
  obtain ⟨k, hk⟩ := List.mem_iff_getElem?.mp hp
  obtain ⟨p', hp', hsettles⟩ := h.partition k p hk
  exact ⟨p', List.mem_of_getElem? hp', hsettles⟩

namespace Onward

theorem namesField (h : Onward b b') : b.NamesField C n → b'.NamesField C n
  | ⟨x, hx, hclass⟩ => ⟨x, h.keeps x n hx, hclass⟩

theorem describes (h : Onward b b') : b.Describes C n → b'.Describes C n
  | ⟨p, hp, hclass, hn⟩ => by
      obtain ⟨p', hp', hsettles⟩ := exists_settled h.settles hp
      exact ⟨p', hp', hsettles.parentClass.trans hclass, (hsettles.described n hn).1⟩

theorem tables (h : Onward b b') : b.Tables C T → b'.Tables C T
  | ⟨p, hp, hclass, hT⟩ => by
      obtain ⟨p', hp', hsettles⟩ := exists_settled h.settles hp
      exact ⟨p', hp', hsettles.parentClass.trans hclass, hsettles.tabled T hT⟩

end Onward

/-- A step leaves the ledger of blocks as it is, and whatever it makes known it names or links. -/
structure Learns (b b' : BuildState) : Prop where
  blockOf : b'.blockOf = b.blockOf
  field : ∀ C φ n, b'.Knows C φ n → b.Knows C φ n ∨ b'.NamesField C n ∨ b'.Describes C n
  block : ∀ C φ B, b'.KnowsBlock C φ B →
    b.KnowsBlock C φ B ∨ (b'.Tables C B ∧ φ.name = "TablePartition")

namespace Learns

protected theorem refl (b : BuildState) : Learns b b :=
  ⟨rfl, fun _ _ _ => .inl, fun _ _ _ => .inl⟩

protected theorem trans (h : Learns b b') (h' : Learns b' b'') (honward : Onward b' b'') :
    Learns b b'' where
  blockOf := h'.blockOf.trans h.blockOf
  field := by
    intro C φ n hn
    rcases h'.field C φ n hn with hn | hnew
    · exact (h.field C φ n hn).imp_right (Or.imp honward.namesField honward.describes)
    · exact .inr hnew
  block := by
    intro C φ B hB
    rcases h'.block C φ B hB with hB | hnew
    · exact (h.block C φ B hB).imp_right (And.imp_left honward.tables)
    · exact .inr hnew

/-- A step that only marks and moves. -/
theorem of_stays (h : Linked b) (hg : Stays b b') (hblockOf : b'.blockOf = b.blockOf) :
    Learns b b' where
  blockOf := hblockOf
  field := fun _ _ _ hn => (hg.knows_before h hn).imp_right fun ⟨_, ha, _⟩ =>
    absurd ha List.not_mem_nil
  block := fun _ _ _ hB => (hg.knowsBlock_before h hB).imp_right fun hB =>
    absurd hB List.not_mem_nil

end Learns

/-- How the member for a rule comes to be known: it is known already, or it is made, and then the
block it is in is noted in the ledger of blocks. -/
inductive MemberFor (r : Rule) (φ : Formula) (key : Nat) (n : String) (b b' : BuildState) : Prop
  | known (member : b.KnowsMember r.className φ key n) (learns : Learns b b')
      (space : b'.space = b.space)
  | made {B : String} (member : b'.KnowsMember r.className φ key n)
      (block : b'.KnowsBlock r.className φ B)
      (blockOf : b'.blockOf = b.blockOf.update b.space.compareBlock r B)
      (field : ∀ C ψ m, b'.Knows C ψ m → b.Knows C ψ m)
      (before : ∀ D ψ D', b'.KnowsBlock D ψ D' → b.KnowsBlock D ψ D' ∨ (D = r.className ∧ ψ = φ))
      (space : b'.space = b.space)

namespace MemberFor

variable {key : Nat}

theorem space_eq (h : MemberFor r φ key n b b') : b'.space = b.space := by
  cases h <;> assumption

theorem knowsMember (h : MemberFor r φ key n b b') (hgrew : Grew b b') :
    b'.KnowsMember r.className φ key n := by
  cases h with
  | known member => exact hgrew.knowsMember member
  | made member => exact member

/-- Rules that have a block keep one. -/
theorem keeps_named (h : MemberFor r φ key n b b') :
    ∀ x B, (x, some B) ∈ b.blockOf.entries → ∃ B', (x, some B') ∈ b'.blockOf.entries := by
  intro x B hx
  cases h with
  | known _ learns => exact ⟨B, learns.blockOf ▸ hx⟩
  | made _ _ blockOf =>
    rw [blockOf]
    rcases Ledger.update_keeps hx with hstays | ⟨htaken, -⟩
    · exact ⟨B, hstays⟩
    · exact ⟨_, htaken⟩

end MemberFor

/-- The block of a member is known. -/
theorem Linked.exists_knowsBlock (h : Linked b) {key : Nat} (hn : b.KnowsMember C φ key n) :
    ∃ B, b.KnowsBlock C φ B := by
  obtain ⟨e, c, he, hc, hn⟩ := hn
  obtain ⟨B, hB⟩ := Option.isSome_iff_exists.mp ((h.indexes C e c he hc).member φ key n hn).1
  exact ⟨B, e, c, he, hc, hB⟩

end BuildState

namespace Build

open BuildState

variable {b b₁ b' : BuildState} {s : Space} {ts : Catalogue} {r : Rule} {C n B : String}
variable {φ : Formula}

/-! ## Fields -/

/-- A field is the only thing that gets known where one is asked for by its formula. -/
theorem learns_fieldFor (h : Linked b) {type : Except BuildError FieldType} {make : Naming}
    (hrun : (fieldFor C φ type make).Gives b n b') :
    (∀ D ψ m, b'.Knows D ψ m → b.Knows D ψ m ∨ (D = C ∧ m = n)) ∧
      ∀ D ψ B, b'.KnowsBlock D ψ B → b.KnowsBlock D ψ B := by
  obtain ⟨-, hknows⟩ := links_fieldFor h hrun
  obtain ⟨-, c, hc, ⟨-, rfl⟩ | ⟨-, t, -, hg⟩⟩ := fieldFor_cases hrun
  · exact ⟨fun _ _ _ => .inl, fun _ _ _ => id⟩
  · refine ⟨fun D ψ m hm => (hg.knows_before h hm).imp_right ?_, fun D ψ B hB =>
      (hg.knowsBlock_before h hB).resolve_right fun hB => ?_⟩
    · rintro ⟨a, ha, hkey⟩
      obtain ⟨rfl, rfl⟩ := mem_only ha
      cases hkey
      exact ⟨rfl, hm.unique hknows⟩
    · unfold only at hB
      split at hB <;> cases hB

/-- The field of a rule without a name gets known, and named. -/
theorem learns_formulaField (h : Sound s ts b) (hr : r.Told s ts) (hnone : ∀ n, ¬ b.HasName r n)
    (hrun : (formulaField r φ).Gives b n b') : Learns b b' ∧ b'.space = b.space := by
  obtain ⟨-, hname⟩ := writes_formulaField lasting_tells h hr hnone hrun
  obtain ⟨name, b₁, hfield, hrun⟩ := gives_bind.mp hrun
  obtain ⟨_, b₂, hrecord, hpure⟩ := gives_bind.mp hrun
  obtain ⟨rfl, rfl⟩ := gives_pure.mp hpure
  obtain ⟨hsame, -⟩ := fieldFor_cases hfield
  obtain ⟨hknown, hblocks⟩ := learns_fieldFor h.linked hfield
  rw [recordField, gives_modify] at hrecord
  subst hrecord
  refine ⟨⟨hsame.blockOf, fun D ψ m hm => ?_, fun D ψ B hB => .inl (hblocks D ψ B hB)⟩, hsame.space⟩
  rcases hknown D ψ m hm with hold | ⟨rfl, rfl⟩
  · exact .inl hold
  · exact .inr (.inl hname.namesField)

mutual

/-- What gets known on the way to a shared field is named. -/
theorem learns_sharedField : ∀ (r : Rule) (b b' : BuildState) (n : String), Sound s ts b →
    r.Told s ts → (sharedField r).Gives b n b' → Learns b b' ∧ b'.space = b.space
  | ⟨template, className, operands, cost, tieBreak⟩, b, b', n, h, hr, hrun => by
      rw [sharedField, gives_get_bind] at hrun
      split at hrun
      · obtain ⟨-, rfl⟩ := gives_pure.mp hrun
        exact ⟨.refl _, rfl⟩
      · rename_i hnone
        obtain ⟨xs, b₁, hoperands, hrun⟩ := gives_bind.mp hrun
        have hfewer : ∀ inner, .rule inner ∈ operands → inner.Told s ts ∧ inner.costs.length <
            (Rule.costs ⟨template, className, operands, cost, tieBreak⟩).length :=
          fun inner hinner => ⟨Rule.hereditary_told s ts _ inner hr hinner,
            Rule.length_costs_lt (r := ⟨template, className, operands, cost, tieBreak⟩) hinner⟩
        have hwrites := writes_sharedOperands lasting_tells operands _ b b₁ xs h hfewer hoperands
        have hnone₁ := hwrites.nameless fun m hm => by
          cases hnone.symm.trans (h.fieldOf?_of_hasName hr hm)
        obtain ⟨hlast, -⟩ := writes_formulaField lasting_tells hwrites.sound hr hnone₁ hrun
        obtain ⟨hlearns, hspace⟩ := learns_sharedOperands operands _ b b₁ xs h hfewer hoperands
        obtain ⟨hlearns', hspace'⟩ := learns_formulaField hwrites.sound hr hnone₁ hrun
        exact ⟨hlearns.trans hlearns' hlast.toOnward, hspace'.trans hspace⟩

theorem learns_sharedOperands : ∀ (operands : List (RuleOperand Rule)) (bound : Nat)
    (b b' : BuildState) (xs : List Operand), Sound s ts b →
    (∀ inner, .rule inner ∈ operands → inner.Told s ts ∧ inner.costs.length < bound) →
    (sharedOperands operands).Gives b xs b' → Learns b b' ∧ b'.space = b.space
  | [], bound, b, b', xs, _, _, hrun => by
      rw [sharedOperands, gives_pure] at hrun
      obtain ⟨-, rfl⟩ := hrun
      exact ⟨.refl _, rfl⟩
  | .field name type :: rest, bound, b, b', xs, h, hrest, hrun => by
      rw [sharedOperands, gives_bind] at hrun
      obtain ⟨ys, b₁, hrun, hpure⟩ := hrun
      obtain ⟨-, rfl⟩ := gives_pure.mp hpure
      exact learns_sharedOperands rest bound b _ ys h
        (fun inner hinner => hrest inner (List.mem_cons_of_mem _ hinner)) hrun
  | .rule inner :: rest, bound, b, b', xs, h, hrest, hrun => by
      rw [sharedOperands, gives_bind] at hrun
      obtain ⟨name, b₁, hfield, hrun⟩ := hrun
      obtain ⟨ys, b₂, hrun, hpure⟩ := gives_bind.mp hrun
      obtain ⟨-, rfl⟩ := gives_pure.mp hpure
      obtain ⟨hinner, -⟩ := hrest inner List.mem_cons_self
      have hrest' := fun x hx => hrest x (List.mem_cons_of_mem _ hx)
      obtain ⟨hwrites, -⟩ := writes_sharedField lasting_tells inner b b₁ name h hinner hfield
      have hwrites' :=
        writes_sharedOperands lasting_tells rest bound b₁ _ ys hwrites.sound hrest' hrun
      obtain ⟨hlearns, hspace⟩ := learns_sharedField inner b b₁ name h hinner hfield
      obtain ⟨hlearns', hspace'⟩ :=
        learns_sharedOperands rest bound b₁ _ ys hwrites.sound hrest' hrun
      exact ⟨hlearns.trans hlearns' hwrites'.toOnward, hspace'.trans hspace⟩
  | .part part :: rest, bound, b, b', xs, h, hrest, hrun => by
      simp only [sharedOperands, gives_get_bind, gives_lift_bind] at hrun
      obtain ⟨f, -, hrun⟩ := hrun
      obtain ⟨ys, b₁, hrun, hpure⟩ := gives_bind.mp hrun
      obtain ⟨-, rfl⟩ := gives_pure.mp hpure
      exact learns_sharedOperands rest bound b _ ys h
        (fun inner hinner => hrest inner (List.mem_cons_of_mem _ hinner)) hrun

end

theorem learns_statisticOperands : ∀ (operands : List (RuleOperand Rule)) (bound : Nat)
    (b b' : BuildState) (xs : List Operand), Sound s ts b →
    (∀ inner, .rule inner ∈ operands → inner.Told s ts ∧ inner.costs.length < bound) →
    (statisticOperands r operands).Gives b xs b' → Learns b b' ∧ b'.space = b.space
  | [], bound, b, b', xs, _, _, hrun => by
      rw [statisticOperands, gives_pure] at hrun
      obtain ⟨-, rfl⟩ := hrun
      exact ⟨.refl _, rfl⟩
  | .field name type :: rest, bound, b, b', xs, h, hrest, hrun => by
      rw [statisticOperands, gives_bind] at hrun
      obtain ⟨ys, b₁, hrun, hpure⟩ := hrun
      obtain ⟨-, rfl⟩ := gives_pure.mp hpure
      exact learns_statisticOperands rest bound b _ ys h
        (fun inner hinner => hrest inner (List.mem_cons_of_mem _ hinner)) hrun
  | .rule inner :: rest, bound, b, b', xs, h, hrest, hrun => by
      rw [statisticOperands, gives_bind] at hrun
      obtain ⟨name, b₁, hfield, hrun⟩ := hrun
      obtain ⟨ys, b₂, hrun, hpure⟩ := gives_bind.mp hrun
      obtain ⟨-, rfl⟩ := gives_pure.mp hpure
      obtain ⟨hinner, -⟩ := hrest inner List.mem_cons_self
      have hrest' := fun x hx => hrest x (List.mem_cons_of_mem _ hx)
      obtain ⟨hwrites, -⟩ := writes_sharedField lasting_tells inner b b₁ name h hinner hfield
      obtain ⟨hwrites', -⟩ :=
        writes_statisticOperands lasting_tells rest bound b₁ _ ys hwrites.sound hrest' hrun
      obtain ⟨hlearns, hspace⟩ := learns_sharedField inner b b₁ name h hinner hfield
      obtain ⟨hlearns', hspace'⟩ :=
        learns_statisticOperands rest bound b₁ _ ys hwrites.sound hrest' hrun
      exact ⟨hlearns.trans hlearns' hwrites'.toOnward, hspace'.trans hspace⟩
  | .part part :: rest, bound, b, b', xs, _, _, hrun => by
      rw [statisticOperands, gives_lift] at hrun
      cases hrun.1

theorem learns_tableOperand {y : Operand} (h : Sound s ts b) (hr : r.Told s ts)
    (hrun : (tableOperand r).Gives b y b') : Learns b b' ∧ b'.space = b.space := by
  unfold tableOperand at hrun
  split at hrun
  · obtain ⟨-, rfl⟩ := gives_pure.mp hrun
    exact ⟨.refl _, rfl⟩
  · rename_i inner rest hoperands
    obtain ⟨name, b₁, hfield, hpure⟩ := gives_bind.mp hrun
    obtain ⟨-, rfl⟩ := gives_pure.mp hpure
    have hinner : .rule inner ∈ r.operands := by
      rw [hoperands]
      exact List.mem_cons_self
    exact learns_sharedField inner b _ name h (Rule.hereditary_told s ts r inner hr hinner) hfield
  · rw [gives_lift] at hrun
    cases hrun.1

/-! ## Blocks of parts -/

/-- A new member makes no block known but that of its formula. -/
theorem knowsBlock_of_newMember (h : Linked b) {c : ClassRecord} {t : FieldType} {key : Nat}
    {make makeBlock : Naming} {name : String} (hname : (freeName C make).Gives b name b₁)
    (hrun : (insertMember C (c.block? φ) φ (.member name t "" key) makeBlock).Gives b₁ B b')
    {D D' : String} {ψ : Formula} (hn : b'.KnowsBlock D ψ D') :
    b.KnowsBlock D ψ D' ∨ (D = C ∧ ψ = φ) := by
  obtain ⟨stem, names, e, -, he, rfl, rfl⟩ := gives_freeName.mp hname
  obtain ⟨-, c₁, -, -, hcases⟩ := insertMember_cases hrun rfl he (Entity.freeName_notMem e stem)
  have hnames : Links b { b with names } := .of_stays h (.of_eq rfl rfl rfl) rfl rfl
  have hnew : ∀ {blocks : List Block}, ⟨D', ψ⟩ ∈ only C blocks D → (∀ B ∈ blocks, B.formula = φ) →
      D = C ∧ ψ = φ := by
    intro blocks hB hblocks
    unfold only at hB
    split at hB
    · exact ⟨Eq.symm ‹C = D›, hblocks _ hB⟩
    · cases hB
  rcases hcases with ⟨-, -, hg⟩ | ⟨-, -, hg⟩
  · exact (hg.knowsBlock_before hnames.linked hn).imp_right fun hB => hnew hB (by simp)
  · exact (hg.knowsBlock_before hnames.linked hn).imp_right fun hB => hnew hB (by simp)

/-- The descriptor of a partition gets known, and linked. -/
theorem learns_descriptorField (h : Linked b) {rank : Nat} {P : String}
    (hrun : (descriptorField rank).Gives b P b') : Learns b b' ∧
      ∀ k, k ≠ rank → b'.space.partitions[k]? = b.space.partitions[k]? := by
  obtain ⟨-, p', hp', hP'⟩ := links_descriptorField h hrun
  unfold descriptorField at hrun
  rw [gives_partition_bind] at hrun
  obtain ⟨p, hp, hrun⟩ := hrun
  cases hP : p.descriptorField with
  | some name =>
    rw [hP] at hrun
    obtain ⟨-, rfl⟩ := gives_pure.mp hrun
    exact ⟨.refl _, fun _ _ => rfl⟩
  | none =>
    simp only [hP, gives_get_bind, gives_lift_bind, gives_modify_bind] at hrun
    obtain ⟨⟨φ, space⟩, hdescribe, hrun⟩ := hrun
    obtain ⟨name, b₂, hfield, hrun⟩ := gives_bind.mp hrun
    rw [modifyPartition, gives_modify_bind] at hrun
    obtain ⟨rfl, rfl⟩ := gives_pure.mp hrun
    obtain ⟨cells, -, rfl⟩ := Space.describe_eq_ok hdescribe
    have hcells := links_cells h hp hP cells
    obtain ⟨hsame, -⟩ := fieldFor_cases hfield
    obtain ⟨hknown, hblocks⟩ := learns_fieldFor hcells.linked hfield
    have hclass : p'.parentClass = p.parentClass := by
      simp only [hsame.space, Space.modifyPartition, List.getElem?_modify_eq, hp] at hp'
      rw [← Option.some.inj hp']
    refine ⟨⟨hsame.blockOf, fun D ψ m hm => ?_, fun D ψ B hB => .inl (hblocks D ψ B hB)⟩,
      fun k hk => ?_⟩
    · rcases hknown D ψ m hm with hold | ⟨rfl, rfl⟩
      · exact .inl hold
      · exact .inr (.inr ⟨p', List.mem_of_getElem? hp', hclass, hP'⟩)
    · simp only [hsame.space, Space.modifyPartition]
      rw [List.getElem?_modify_ne _ _ hk.symm, List.getElem?_modify_ne _ _ hk.symm]

/-- The block of parts of a table gets known, and linked, and no other partition is changed. -/
theorem learns_tableBlock (h : Linked b) {part : Part} {T : String}
    (hrun : (tableBlock part).Gives b T b') : Learns b b' ∧
      ∀ k, k ≠ part.partition → b'.space.partitions[k]? = b.space.partitions[k]? := by
  obtain ⟨P, b₁, b₂, p, φ, key, hdescriptor, htabled, rfl⟩ := tableBlock_cases h hrun
  obtain ⟨hlinks, -⟩ := links_descriptorField h hdescriptor
  obtain ⟨hlearns, hothers⟩ := learns_descriptorField h hdescriptor
  obtain ⟨p₂, hp₂, hsettles, hlink⟩ := htabled.link
  have honly := htabled.onlyMembers
  have htables : Tables { b₂ with
      space := b₂.space.modifyPartition part.partition fun p => { p with tableBlock := some T } }
      p.parentClass T := by
    refine ⟨{ p₂ with tableBlock := some T }, List.mem_of_getElem? (i := part.partition) ?_,
      hsettles.parentClass, rfl⟩
    simp [Space.modifyPartition, hp₂]
  have hlast : Learns b₁ { b₂ with
      space := b₂.space.modifyPartition part.partition fun p => { p with tableBlock := some T } } := by
    refine ⟨?_, fun D ψ m hm => .inl (honly.known D ψ m hm), fun D ψ B hB => ?_⟩
    · rcases htabled.inserted with rfl | ⟨c, name, b₃, _, _, hname, hinsert⟩
      · rfl
      · obtain ⟨_, _, e, -, he, rfl, rfl⟩ := gives_freeName.mp hname
        obtain ⟨hsame, -⟩ := insertMember_cases hinsert rfl he (Entity.freeName_notMem e _)
        exact hsame.blockOf
    · rcases htabled.inserted with rfl | ⟨c, name, b₃, _, _, hname, hinsert⟩
      · exact .inl hB
      · refine (knowsBlock_of_newMember hlinks.linked hname hinsert hB).imp_right ?_
        rintro ⟨rfl, rfl⟩
        obtain rfl : B = T := BuildState.KnowsBlock.unique hB htabled.block
        obtain ⟨-, -, -, -, rfl⟩ := Space.tableBlockFormula_eq_ok htabled.cut htabled.formula
        exact ⟨htables, rfl⟩
  refine ⟨hlearns.trans hlast (.of_links (htabled.links.trans hlink)), fun k hk => ?_⟩
  rw [← hothers k hk, ← honly.space]
  exact List.getElem?_modify_ne _ _ hk.symm

/-! ## Members -/

theorem memberFor_blockMember (h : Linked b) {key : Nat}
    (hrun : (blockMember r φ key).Gives b n b') : MemberFor r φ key n b b' := by
  have honly := onlyMembers_blockMember r φ key hrun
  simp only [blockMember, gives_record_bind] at hrun
  obtain ⟨c, hc, hrun⟩ := hrun
  obtain ⟨e, he⟩ := h.entity_of_class _ c hc
  cases hmember : c.member? φ key with
  | some name =>
    simp only [hmember] at hrun
    obtain ⟨name', b₁, hreuse, hrun⟩ := gives_bind.mp hrun
    obtain ⟨rfl, rfl⟩ := gives_reuse.mp hreuse
    obtain ⟨_, b₂, hrecord, hpure⟩ := gives_bind.mp hrun
    obtain ⟨rfl, rfl⟩ := gives_pure.mp hpure
    rw [recordField, gives_modify] at hrecord
    subst hrecord
    exact .known ⟨e, c, he, hc, hmember⟩ ⟨rfl, fun _ _ _ => .inl, fun _ _ _ => .inl⟩ rfl
  | none =>
    simp only [hmember, pure_bind] at hrun
    obtain ⟨name, b₁, hname, hrun⟩ := gives_bind.mp hrun
    obtain ⟨type, -, hrun⟩ := gives_lift_bind.mp hrun
    obtain ⟨B, b₂, hinsert, hrun⟩ := gives_bind.mp hrun
    rw [gives_modify_bind] at hrun
    obtain ⟨_, b₃, hrecord, hpure⟩ := gives_bind.mp hrun
    obtain ⟨rfl, rfl⟩ := gives_pure.mp hpure
    rw [recordField, gives_modify] at hrecord
    subst hrecord
    obtain ⟨-, hblock, hknows⟩ := links_newMember h hc hname hinsert
    have hbefore : ∀ D ψ D', b₂.KnowsBlock D ψ D' →
        b.KnowsBlock D ψ D' ∨ (D = r.className ∧ ψ = φ) :=
      fun _ _ _ => knowsBlock_of_newMember h hname hinsert
    obtain ⟨_, _, e₁, -, he₁, rfl, rfl⟩ := gives_freeName.mp hname
    obtain ⟨hsame, -⟩ := insertMember_cases hinsert rfl he₁ (Entity.freeName_notMem e₁ _)
    refine .made hknows hblock ?_ honly.known hbefore honly.space
    rw [hsame.space, hsame.blockOf]

end Build

end FeatureSynth
