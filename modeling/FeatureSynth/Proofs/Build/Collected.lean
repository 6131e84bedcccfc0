/-
# What is collected

Before a build with shared rules creates the fields of candidates, it enters the rules met in them
into its ledgers.  What it has entered by then are exactly the rules that the candidates reach, up to
the order of a ledger: fields of dimensions in use were made before, but their rules are reached, and
so is what these are made from.

What is done with a ledger is to enter rules, and to note names for rules of entries or, in the ledger
of fields, for any rule asked for.  Whatever the order, the entries stay, and new ones are for rules
that were entered or asked for.  Where the order is lawful on these, the entries increase, a rule that
has an entry is found, and nothing is entered by a note.

It takes parts with one index per axis for the order to be lawful.  Nothing makes sure of that for the
parts that rules of dimensions name; and with others, a rule that has an entry may be missed.
-/
import FeatureSynth.Proofs.Build.Idempotent
import FeatureSynth.Proofs.Build.Ledgerwise
import FeatureSynth.Proofs.Build.Turns
import FeatureSynth.Proofs.Space.Blocks
import FeatureSynth.Proofs.Space.Reached
import FeatureSynth.Proofs.Space.UseCounts

namespace FeatureSynth

/-! ## Ledgers -/

namespace Ledger

variable {order : Rule → Rule → Ordering} {A P : Rule → Prop} {l l' l'' : Ledger} {r x : Rule}
variable {name : String}

/-- A ledger holds exactly some rules, up to an order. -/
structure Holds (order : Rule → Rule → Ordering) (A : Rule → Prop) (l : Ledger) : Prop where
  only : ∀ x ∈ l.rules, A x
  every : ∀ r, A r → ∃ x ∈ l.rules, order x r = .eq

/-- What a ledger becomes when rules in `A` are entered and get names. -/
inductive Gathers (order : Rule → Rule → Ordering) (A : Rule → Prop) (l : Ledger) : Ledger → Prop
  | refl : Gathers order A l l
  | enter {l' : Ledger} {r : Rule} : Gathers order A l l' → A r →
      Gathers order A l (l'.enter order r)
  | record {l' : Ledger} {r : Rule} (name : String) : Gathers order A l l' → A r →
      Gathers order A l (l'.record order r name)
  | update {l' : Ledger} (r : Rule) (name : String) : Gathers order A l l' →
      Gathers order A l (l'.update order r name)

theorem rules_update_eq (l : Ledger) : (l.update order r name).rules = l.rules :=
  rules_update l order r name

theorem contains_congr (h : l'.rules = l.rules) (r : Rule) :
    l'.contains order r = l.contains order r := by
  rw [contains, search_congr h, contains]

/-- The rules of the entries stay. -/
theorem rules_subset_enter (l : Ledger) : l.rules ⊆ (l.enter order r).rules := by
  unfold enter
  split
  · exact List.Subset.refl _
  · exact fun x hx => (mem_rules_insertIdx (of_search_vacant ‹_›)).mpr (.inr hx)

theorem rules_subset_record (l : Ledger) : l.rules ⊆ (l.record order r name).rules := by
  cases hsearch : l.search order r with
  | found i => exact (rules_record_of_found hsearch).symm ▸ List.Subset.refl _
  | vacant i =>
    rw [record, hsearch]
    exact fun x hx => (mem_rules_insertIdx (of_search_vacant hsearch)).mpr (.inr hx)

/-- A rule that was entered has an entry that the order does not tell from it. -/
theorem exists_of_enter (hr : order r r = .eq) : ∃ x ∈ (l.enter order r).rules, order x r = .eq := by
  unfold enter
  cases hsearch : l.search order r with
  | found i =>
    obtain ⟨entry, hentry, heq⟩ := of_search_found hsearch
    exact ⟨entry.1, List.mem_map_of_mem (List.mem_of_getElem? hentry), heq⟩
  | vacant i => exact ⟨r, (mem_rules_insertIdx (of_search_vacant hsearch)).mpr (.inl rfl), hr⟩

/-- Under a lawful order, a rule that has an entry is found. -/
theorem Sorted.contains (h : l.Sorted P order) (ho : LawfulOn P order) (hr : P r)
    (hx : x ∈ l.rules) (heq : order x r = .eq) : l.contains order r = true := by
  obtain ⟨⟨x, v⟩, hentry, rfl⟩ := List.mem_map.mp hx
  unfold Ledger.contains
  cases hsearch : l.search order r with
  | found i => rfl
  | vacant i => exact absurd hsearch (h.not_vacant ho hr hentry heq)

/-- Where a rule is found, it has an entry already. -/
theorem exists_found_of_contains (h : l.contains order r = true) :
    ∃ i, l.search order r = .found i := by
  unfold contains at h
  cases hsearch : l.search order r with
  | found i => exact ⟨i, rfl⟩
  | vacant i =>
    rw [hsearch] at h
    cases h

namespace Gathers

protected theorem trans (h : Gathers order A l l') (h' : Gathers order A l' l'') :
    Gathers order A l l'' := by
  induction h' with
  | refl => exact h
  | enter _ hr ih => exact ih.enter hr
  | record name _ hr ih => exact ih.record name hr
  | update r name _ ih => exact ih.update r name

theorem foldl_enter (h : Gathers order A l l') {xs : List Rule} (hxs : ∀ x ∈ xs, A x) :
    Gathers order A l (xs.foldl (·.enter order ·) l') := by
  induction xs generalizing l' with
  | nil => exact h
  | cons x xs ih =>
    obtain ⟨hx, hrest⟩ := List.forall_mem_cons.mp hxs
    exact ih (h.enter hx) hrest

theorem keeps (h : Gathers order A l l') : l.rules ⊆ l'.rules := by
  induction h with
  | refl => exact List.Subset.refl _
  | enter _ _ ih => exact List.Subset.trans ih (rules_subset_enter _)
  | record name _ _ ih => exact List.Subset.trans ih (rules_subset_record _)
  | update r name _ ih =>
    rw [rules_update_eq]
    exact ih

theorem adds (h : Gathers order A l l') : ∀ x ∈ l'.rules, x ∈ l.rules ∨ A x := by
  induction h with
  | refl => exact fun _ => .inl
  | enter _ hr ih =>
    intro x hx
    rcases mem_rules_enter hx with rfl | hx
    · exact .inr hr
    · exact ih x hx
  | record name _ hr ih =>
    intro x hx
    rcases mem_rules_record hx with rfl | hx
    · exact .inr hr
    · exact ih x hx
  | update r name _ ih =>
    rw [rules_update_eq]
    exact ih

/-- Under a lawful order the entries go on to increase. -/
theorem sorted (h : Gathers order A l l') (ho : LawfulOn P order) (hA : ∀ r, A r → P r)
    (hl : l.Sorted P order) : l'.Sorted P order := by
  induction h with
  | refl => exact hl
  | enter _ hr ih => exact ih.enter ho (hA _ hr)
  | record name _ hr ih => exact ih.record ho (hA _ hr)
  | update r name _ ih => exact ih.update

/-- Where the rules in question are found already, nothing is added. -/
theorem full (h : Gathers order A l l') (hA : ∀ r, A r → l.contains order r = true) :
    l'.rules = l.rules := by
  have hfound : ∀ {m : Ledger} {r}, m.rules = l.rules → A r → ∃ i, m.search order r = .found i :=
    fun hm hr => exists_found_of_contains ((contains_congr hm _).trans (hA _ hr))
  induction h with
  | refl => rfl
  | enter _ hr ih =>
    obtain ⟨i, hi⟩ := hfound ih hr
    rwa [Ledger.enter, hi]
  | record name _ hr ih =>
    obtain ⟨i, hi⟩ := hfound ih hr
    rw [rules_record_of_found hi, ih]
  | update r name _ ih => exact (rules_update_eq _).trans ih

/-- What was gathered from nothing is held, if none of it is missing. -/
theorem holds (h : Gathers order A .empty l)
    (hevery : ∀ r, A r → ∃ x ∈ l.rules, order x r = .eq) : l.Holds order A := by
  refine ⟨?_, hevery⟩
  intro x hx
  exact (h.adds x hx).resolve_left List.not_mem_nil

end Gathers

/-- A ledger in order that holds some rules gathers none of them again. -/
theorem Holds.full (h : l.Holds order A) (ho : LawfulOn P order) (hA : ∀ r, A r → P r)
    (hl : l.Sorted P order) (hlater : Gathers order A l l') : l'.rules = l.rules := by
  refine hlater.full ?_
  intro r hr
  obtain ⟨x, hx, heq⟩ := h.every r hr
  exact hl.contains ho (hA r hr) hx heq

/-- Rules entered in turn each have an entry in the end. -/
theorem exists_of_foldl_enter (hrefl : ∀ r, order r r = .eq) (l : Ledger) {xs : List Rule}
    (hr : r ∈ xs) : ∃ x ∈ (xs.foldl (·.enter order ·) l).rules, order x r = .eq := by
  induction xs generalizing l with
  | nil => cases hr
  | cons y xs ih =>
    rcases List.mem_cons.mp hr with rfl | hr
    · obtain ⟨x, hx, heq⟩ := exists_of_enter (l := l) (hrefl r)
      have hrest : Gathers order (fun _ => True) (l.enter order r)
          (xs.foldl (·.enter order ·) (l.enter order r)) :=
        Gathers.refl.foldl_enter fun _ _ => trivial
      exact ⟨x, hrest.keeps hx, heq⟩
    · exact ih (l.enter order y) hr

end Ledger

/-! ## Rules reached -/

namespace Space

variable {s : Space} {rules : List Rule} {k : Nat} {d : Dimension} {q : Rule}

/-- The rules of dimensions in need are reached. -/
theorem Needs.reached (h : s.Needs rules k) (hd : s.dimensions[k]? = some d)
    (hq : d.origin = .rule q) : s.Reached rules q := by
  have hselected : ∀ {r : Rule} {k : Nat} {d : Dimension} {q : Rule}, s.SelectsOn r k →
      s.dimensions[k]? = some d → d.origin = .rule q → Relation.ReflTransGen s.MadeFrom r q := by
    rintro r k d q ⟨part, hpart, p, hp, a, ha, rfl⟩ hd hq
    have hmem : d ∈ s.axisDimensions p := List.mem_filterMap.mpr ⟨a, ha, hd⟩
    exact reaches_of_mem_parts (mem_dimensionRules hp hmem hq) r hpart
  induction h generalizing d q with
  | named hr hk => exact ⟨_, hr, hselected hk hd hq⟩
  | onward _ hd' ho hk ih => exact (ih hd' ho).trans (hselected hk hd hq)

/-- The rules of dimensions in use are reached. -/
theorem reached_of_used {t : Space} (hcuts : s.SameCuts t) (hk : (t.countUses rules).Used k)
    (hd : s.dimensions[k]? = some d) (hq : d.origin = .rule q) : s.Reached rules q := by
  obtain ⟨d', hd', -, horigin⟩ := dimension_of_frame hcuts.frame hd
  have hreached := (needs_of_used hk).reached hd' (horigin.trans hq)
  rwa [reached_of_frame hcuts.frame] at hreached

/-- A part that a rule reached from some names. -/
def NamedBy (s : Space) (rules : List Rule) (part : Part) : Prop :=
  ∃ r, s.Reached rules r ∧ part ∈ r.parts

/-- Parts that rules reached name can be compared, if they have one index per axis. -/
theorem comparable_namedBy (h : ∀ r, s.Reached rules r → r.PartsIn s.Shaped) :
    s.Comparable (s.NamedBy rules) where
  shaped := fun part ⟨r, hr, hpart⟩ => h r hr part hpart
  onward := fun _ ⟨r, hr, hpart⟩ x hx _ hq =>
    ⟨x, hr.trans (reaches_of_mem_parts hx r hpart), hq⟩

end Space

/-! ## States -/

namespace Build

open BuildState

variable {s : Space} {A B : Rule → Prop} {o : Options} {mode : Mode} {rules : List Rule}
variable {b b' : BuildState} {r : Rule} {u : Unit}

/-- Steps that enter rules in `A` into the ledger of fields and rules in `B` into that of blocks. -/
def Enters (s : Space) (A B : Rule → Prop) (b b' : BuildState) : Prop :=
  s.SameCuts b.space → s.SameCuts b'.space ∧ b.fieldOf.Gathers s.compareCostName A b'.fieldOf ∧
    b.blockOf.Gathers s.compareBlock B b'.blockOf

theorem ledgerwise_enters (s : Space) (A B : Rule → Prop) : Ledgerwise (Enters s A B) where
  refl := fun b hb => ⟨hb, .refl, .refl⟩
  trans := by
    intro b₁ b₂ b₃ h h' hb
    obtain ⟨hcuts, hfields, hblocks⟩ := h hb
    obtain ⟨hcuts', hfields', hblocks'⟩ := h' hcuts
    exact ⟨hcuts', hfields.trans hfields', hblocks.trans hblocks'⟩
  of_cuts := fun hcuts hfieldOf hblockOf hb =>
    ⟨hb.trans hcuts, hfieldOf ▸ .refl, hblockOf ▸ .refl⟩

theorem noting_enters (hr : A r) : Ledgerwise.Noting (Enters s A B) r where
  field := fun name => always_modify fun b hb => by
    refine ⟨hb, ?_, .refl⟩
    rw [hb.compareCostName]
    exact .record name .refl hr
  block := fun name => always_modify fun b hb => by
    refine ⟨hb, .refl, ?_⟩
    rw [Space.compareBlock_congr hb]
    exact .update r name .refl

/-- The fields of rules in `A` enter no others. -/
theorem memberParts_enters (s : Space) (B : Rule → Prop) (hA : Rule.Hereditary A) :
    MemberParts A (fun m => Always (Enters s A B) m) :=
  (ledgerwise_enters s A B).memberParts hA fun _ hr => noting_enters hr

/-! ## Before the candidates -/

theorem fieldOf_collectFields (hcuts : s.SameCuts b.space)
    (hrun : (collectFields r).Gives b u b') : b' =
      { b with fieldOf := (s.subrules r).foldl (·.enter s.compareCostName ·) b.fieldOf } := by
  rw [collectFields, gives_modify, hcuts.compareCostName, Space.subrules_of_frame hcuts.frame] at hrun
  exact hrun

theorem enters_collectFields (hr : s.Reached rules r) (hcuts : s.SameCuts b.space)
    (hrun : (collectFields r).Gives b u b') : Enters s (s.Reached rules) B b b' := by
  rw [fieldOf_collectFields hcuts hrun]
  intro hb
  have hmet : ∀ x ∈ s.subrules r, s.Reached rules x :=
    fun x hx => hr.trans (Space.reaches_of_mem_subrules hx)
  exact ⟨hb, Ledger.Gathers.refl.foldl_enter hmet, .refl⟩

/-- The field of a dimension whose rule is reached only takes rules that are. -/
theorem enters_dimensionField {d : Dimension} {name : String}
    (hd : ∀ q, d.origin = .rule q → s.Reached rules q) (hcuts : s.SameCuts b.space)
    (hrun : (dimensionField o d).Gives b name b') : Enters s (s.Reached rules) B b b' := by
  have hR := ledgerwise_enters s (s.Reached rules) B
  have hparts := memberParts_enters s B (Space.Reached.hereditary s rules)
  unfold dimensionField at hrun
  cases horigin : d.origin with
  | field field type =>
    rw [horigin] at hrun
    obtain ⟨-, rfl⟩ := gives_pure.mp hrun
    exact hR.refl _
  | rule q =>
    have hq : s.Reached rules q := hd q horigin
    rw [horigin] at hrun
    dsimp only at hrun
    split at hrun
    · obtain ⟨_, b₁, hcollect, hshared⟩ := gives_bind.mp hrun
      exact hR.trans (enters_collectFields hq hcuts hcollect)
        ((hparts.sharedField q hq).respects hshared)
    · exact (hR.directField q).respects hrun

theorem enters_bindDimension {k : Nat}
    (hk : ∀ d q, s.dimensions[k]? = some d → d.origin = .rule q → s.Reached rules q)
    (hcuts : s.SameCuts b.space)
    (hrun : (bindDimension o k).Gives b u b') : Enters s (s.Reached rules) B b b' := by
  have hR := ledgerwise_enters s (s.Reached rules) B
  obtain ⟨_, b₁, hcheck, hrun⟩ := gives_bind.mp hrun
  refine hR.trans (hR.checkInterrupt.respects hcheck) ?_
  have hcuts₁ : s.SameCuts b₁.space := (hR.checkInterrupt.respects hcheck hcuts).1
  rw [gives_get_bind] at hrun
  cases hd : b₁.space.dimensions[k]? with
  | none =>
    rw [hd] at hrun
    obtain ⟨-, rfl⟩ := gives_pure.mp hrun
    exact hR.refl _
  | some d =>
    rw [hd] at hrun
    obtain ⟨name, b₂, hfield, hbind⟩ := gives_bind.mp hrun
    rw [gives_modify] at hbind
    subst hbind
    obtain ⟨d₀, hd₀, -, horigin⟩ := Space.dimension_of_frame hcuts₁.frame.symm hd
    have hreached : ∀ q, d.origin = .rule q → s.Reached rules q :=
      fun q hq => hk d₀ q hd₀ (horigin.trans hq)
    exact hR.trans (enters_dimensionField hreached hcuts₁ hfield)
      (hR.of_cuts (Space.sameCuts_modifyDimension _ _ fun _ => ⟨rfl, rfl⟩) rfl rfl)

theorem enters_bindDimensions (hcuts : s.SameCuts b.space)
    (hused : ∀ k ∈ b.space.usedDimensions, ∀ d q, s.dimensions[k]? = some d →
      d.origin = .rule q → s.Reached rules q)
    (hrun : (bindDimensions o).Gives b u b') : Enters s (s.Reached rules) B b b' := by
  have hR := ledgerwise_enters s (s.Reached rules) B
  simp only [bindDimensions, gives_get_bind] at hrun
  obtain ⟨_, b₁, hall, harrange⟩ := gives_bind.mp hrun
  rw [gives_get_bind] at harrange
  have hbound := gives_forM_induct
    (fun b₁ => s.SameCuts b₁.space ∧ Enters s (s.Reached rules) B b b₁)
    (fun k hk b₁ b₂ h₁ hone => by
      have hone := enters_bindDimension (B := B) (hused k hk) h₁.1 hone
      exact ⟨(hone h₁.1).1, hR.trans h₁.2 hone⟩) ⟨hcuts, hR.refl b⟩ hall
  exact hR.trans hbound.2 (hR.of_same (sameLedgers_arrangeFields _ harrange))

/-! ## Collection -/

/-- The block rules that are reached. -/
def ReachedBlock (s : Space) (rules : List Rule) (r : Rule) : Prop :=
  s.Reached rules r ∧ r.isBlockRule = true

/-- Steps that enter what some candidates reach, among others: nothing else, and all of what those in
`xs` do. -/
structure Collects (s : Space) (rules : List Rule) (mode : Mode) (xs : List Rule)
    (b b' : BuildState) : Prop where
  enters : Enters s (s.Reached rules) (ReachedBlock s rules) b b'
  fields : ∀ x, s.Reached xs x → ∃ y ∈ b'.fieldOf.rules, s.compareCostName y x = .eq
  blocks : mode = .sparse → ∀ x, ReachedBlock s xs x →
    ∃ y ∈ b'.blockOf.rules, s.compareBlock y x = .eq

theorem collects_nil (s : Space) (rules : List Rule) (mode : Mode) (b : BuildState) :
    Collects s rules mode [] b b := by
  have hnone : ∀ x, ¬ s.Reached [] x := by
    rintro x ⟨r, hr, -⟩
    cases hr
  exact ⟨(ledgerwise_enters s _ _).refl b, fun x hx => absurd hx (hnone x),
    fun _ x hx => absurd hx.1 (hnone x)⟩

/-- What was entered for one candidate stays when others follow. -/
theorem Collects.cons {b₁ : BuildState} {xs : List Rule} (hcuts : s.SameCuts b.space)
    (h : Collects s rules mode [r] b b₁) (h' : Collects s rules mode xs b₁ b') :
    Collects s rules mode (r :: xs) b b' := by
  obtain ⟨hcuts₁, -, -⟩ := h.enters hcuts
  obtain ⟨-, hkeeps, hkeeps'⟩ := h'.enters hcuts₁
  have hsplit : ∀ {x}, s.Reached (r :: xs) x → s.Reached [r] x ∨ s.Reached xs x := by
    rintro x ⟨y, hy, hreaches⟩
    rcases List.mem_cons.mp hy with rfl | hy
    · exact .inl ⟨y, List.mem_cons_self, hreaches⟩
    · exact .inr ⟨y, hy, hreaches⟩
  refine ⟨(ledgerwise_enters s _ _).trans h.enters h'.enters, ?_, ?_⟩
  · intro x hx
    rcases hsplit hx with hx | hx
    · obtain ⟨z, hz, heq⟩ := h.fields x hx
      exact ⟨z, hkeeps.keeps hz, heq⟩
    · exact h'.fields x hx
  · rintro hmode x ⟨hx, hblock⟩
    rcases hsplit hx with hx | hx
    · obtain ⟨z, hz, heq⟩ := h.blocks hmode x ⟨hx, hblock⟩
      exact ⟨z, hkeeps'.keeps hz, heq⟩
    · exact h'.blocks hmode x ⟨hx, hblock⟩

/-- One candidate: what it reaches gets entries. -/
theorem collects_candidate (hs : s.WellFounded) (hr : r ∈ rules) (hcuts : s.SameCuts b.space)
    (hrun : (do
      collectFields r
      if mode == .sparse then collectBlocks r : Build Unit).Gives b u b') :
    Collects s rules mode [r] b b' := by
  have hR := ledgerwise_enters s (s.Reached rules) (ReachedBlock s rules)
  have hreached : s.Reached rules r := .of_mem hr
  obtain ⟨_, b₁, hfields, hblocks⟩ := gives_bind.mp hrun
  have hfirst := enters_collectFields (B := ReachedBlock s rules) hreached hcuts hfields
  have hcuts₁ : s.SameCuts b₁.space := (hfirst hcuts).1
  have hentered : ∀ x, s.Reached [r] x → ∃ y ∈ b₁.fieldOf.rules, s.compareCostName y x = .eq := by
    intro x hx
    rw [fieldOf_collectFields hcuts hfields]
    have hrefl : ∀ y, s.compareCostName y y = .eq :=
      fun y => (Space.compareCostName_eq_iff hs).mpr (Rule.Alike.refl y)
    exact Ledger.exists_of_foldl_enter hrefl _
      ((Space.mem_subrules_iff hs).mpr (Space.reached_singleton.mp hx))
  split at hblocks
  · rw [collectBlocks, gives_modify, Space.compareBlock_congr hcuts₁,
      Space.blockRules_of_frame hcuts₁.frame] at hblocks
    subst hblocks
    have hmet : ∀ x ∈ s.blockRules r, ReachedBlock s rules x := by
      intro x hx
      obtain ⟨hreaches, hblock⟩ := (Space.mem_blockRules_iff hs).mp hx
      exact ⟨hreached.trans hreaches, hblock⟩
    have hrefl : ∀ y, s.compareBlock y y = .eq :=
      fun y => (Space.compareBlock_eq_iff hs).mpr ⟨rfl, rfl⟩
    refine ⟨hR.trans hfirst ?_, hentered, ?_⟩
    · exact fun hb => ⟨hb, .refl, Ledger.Gathers.refl.foldl_enter hmet⟩
    · rintro _ x ⟨hx, hblock⟩
      exact Ledger.exists_of_foldl_enter hrefl _
        ((Space.mem_blockRules_iff hs).mpr ⟨Space.reached_singleton.mp hx, hblock⟩)
  · rename_i hnot
    obtain ⟨-, rfl⟩ := gives_pure.mp hblocks
    exact ⟨hfirst, hentered, fun hmode => absurd (beq_iff_eq.mpr hmode) hnot⟩

/-- Candidate by candidate, the entries add up to what all of them reach. -/
theorem collects_candidates (hs : s.WellFounded) {xs : List Rule} (hsub : xs ⊆ rules)
    (hcuts : s.SameCuts b.space)
    (hrun : (forM xs fun r => do
      collectFields r
      if mode == .sparse then collectBlocks r : Build Unit).Gives b u b') :
    Collects s rules mode xs b b' := by
  induction xs generalizing b with
  | nil =>
    rw [gives_forM_nil.mp hrun]
    exact collects_nil s rules mode b
  | cons r xs ih =>
    obtain ⟨b₁, hone, hrest⟩ := gives_forM_cons.mp hrun
    have hfirst := collects_candidate hs (hsub List.mem_cons_self) hcuts hone
    obtain ⟨hcuts₁, -, -⟩ := hfirst.enters hcuts
    exact hfirst.cons hcuts (ih (List.subset_of_cons_subset hsub) hcuts₁ hrest)

/-- Collection does not fail. -/
theorem exists_collected (mode : Mode) (rules : List Rule) (b : BuildState) : ∃ b',
    (forM rules fun r => do
      collectFields r
      if mode == .sparse then collectBlocks r : Build Unit).Gives b () b' := by
  induction rules generalizing b with
  | nil => exact ⟨b, gives_forM_nil.mpr rfl⟩
  | cons r rules ih =>
    obtain ⟨b₁, hone⟩ : ∃ b₁, (do
        collectFields r
        if mode == .sparse then collectBlocks r : Build Unit).Gives b () b₁ := by
      split
      · exact ⟨_, gives_bind.mpr ⟨(), _, gives_modify.mpr rfl, gives_modify.mpr rfl⟩⟩
      · exact ⟨_, gives_bind.mpr ⟨(), _, gives_modify.mpr rfl, gives_pure.mpr ⟨rfl, rfl⟩⟩⟩
    obtain ⟨b₂, hrest⟩ := ih b₁
    exact ⟨b₂, gives_forM_cons.mpr ⟨b₁, hone, hrest⟩⟩

/-- Once dimensions have fields, the state gets ready. -/
theorem exists_prepared (mode : Mode)
    (hbind : (bindDimensions o).Gives { b with space := b.space.countUses rules } () b') :
    ∃ b₁, (prepare o mode rules).Gives b () b₁ := by
  obtain ⟨b₁, hcollect⟩ := exists_collected mode rules b'
  refine ⟨b₁, ?_⟩
  simp only [prepare, gives_modify_bind]
  exact gives_bind.mpr ⟨(), b', hbind, hcollect⟩

/-- Before the candidates have their turns, the ledgers have entries for what they reach. -/
theorem collects_prepare (hs : s.WellFounded) (hcuts : s.SameCuts b.space)
    (hrun : (prepare o mode rules).Gives b u b') : Collects s rules mode rules b b' := by
  have hR := ledgerwise_enters s (s.Reached rules) (ReachedBlock s rules)
  simp only [prepare, gives_modify_bind] at hrun
  obtain ⟨_, b₁, hbind, hcollect⟩ := gives_bind.mp hrun
  have hreset := Space.resetUses_countUses b.space rules
  have hcounted : s.SameCuts (b.space.countUses rules) :=
    hcuts.trans (Space.sameCuts_of_reset hreset)
  have hcount : Enters s (s.Reached rules) (ReachedBlock s rules) b
      { b with space := b.space.countUses rules } :=
    hR.of_cuts (Space.sameCuts_of_reset hreset) rfl rfl
  have hbound := enters_bindDimensions (B := ReachedBlock s rules) hcounted
    (fun k hk d q => Space.reached_of_used hcuts (Space.mem_usedDimensions.mp hk)) hbind
  obtain ⟨hcuts₁, -, -⟩ := hbound hcounted
  have hlater := collects_candidates hs (List.Subset.refl rules) hcuts₁ hcollect
  exact ⟨hR.trans hcount (hR.trans hbound hlater.enters), hlater.fields, hlater.blocks⟩

/-! ## From the candidates on -/

/-- What a build with shared rules does once the state is ready: the candidates have their turns, and
what was created is laid out. -/
def carryOut (o : Options) (rules : List Rule) : Build Unit := do
  let new ← markNew (← candidates o (sharedCandidate o (Mode.ofOptions o)) [] rules)
  arrange o new
  modify fun b => { b with schema := o.annotate b.schema }
  lift (← get).schema.compile

theorem complete_eq_prepare (hmode : Mode.ofOptions o ≠ .standard) (rules : List Rule) :
    complete o rules = prepare o (Mode.ofOptions o) rules >>= fun _ => carryOut o rules := by
  have hrealize : realize o rules = prepare o (Mode.ofOptions o) rules >>= fun _ =>
      candidates o (sharedCandidate o (Mode.ofOptions o)) [] rules >>= markNew := by
    unfold realize
    split
    · exact absurd ‹_› hmode
    · rfl
  simp only [complete, layOut, hrealize, carryOut, arrange, bind_assoc]

/-- The turns of candidates enter no blocks, and of fields only those of rules that are reached. -/
theorem enters_carryOut (s : Space) (o : Options) (rules : List Rule) :
    Always (Enters s (s.Reached rules) fun _ => False) (carryOut o rules) := by
  have hR := ledgerwise_enters s (s.Reached rules) fun _ => False
  have hparts := memberParts_enters s (fun _ => False) (Space.Reached.hereditary s rules)
  refine hR.closed.bind (closed_candidates hR.closed hR.checkInterrupt rules [] fun r hr new =>
    hparts.sharedCandidate hR.tidying.mark o _ new (.of_mem hr)) fun found => ?_
  have harrange : ∀ new, Always (Enters s (s.Reached rules) fun _ => False) (arrange o new) := by
    refine fun new => hR.closed.bind (hR.tidying.moving.arrangeFields _) fun _ => ?_
    split
    · exact hR.tidying.moving.arrangeBlocks
    · exact hR.closed.pure _
  exact hR.closed.bind (hR.tidying.markNew found) fun new => hR.closed.bind (harrange new) fun _ =>
    hR.closed.bind (hR.elsewhere fun _ => ⟨rfl, rfl, rfl⟩) fun _ =>
      hR.closed.bind hR.closed.get fun _ => hR.closed.lift _

end Build

/-! ## Whole builds -/

section Whole

open BuildState

variable {catalogue : Catalogue} {o : Options} {schema : Schema} {space : Space}
variable {rules : List Rule} {interrupt : Interrupt} {b₀ : BuildState}

/-- What the ledgers hold once they are filled, and at the end of a build. -/
structure Collected (o : Options) (space : Space) (rules : List Rule) (filled last : BuildState) :
    Prop where
  fields : filled.fieldOf.Holds space.compareCostName (space.Reached rules)
  blocks : Mode.ofOptions o = .sparse →
    filled.blockOf.Holds space.compareBlock (Build.ReachedBlock space rules)
  noBlocks : last.blockOf.rules = filled.blockOf.rules
  /-- Where parts have one index per axis, no two entries are for rules that the order ties, and the
  candidates enter no fields. -/
  once : (∀ r, space.Reached rules r → r.PartsIn space.Shaped) →
    (filled.fieldOf.rules.Pairwise fun x y => space.compareCostName x y = .lt) ∧
      (filled.blockOf.rules.Pairwise fun x y => space.compareBlock x y = .lt) ∧
      last.fieldOf.rules = filled.fieldOf.rules

/-- Over a well-founded space, one traversal of a rule tells whether it is a block rule as the
definition does, and a build with shared rules that gets fields for its dimensions has its ledgers
filled: that of fields has entries for exactly the rules that the candidates reach, and that of
blocks, if there are any, for exactly the block rules among them.  The turns of candidates enter no
blocks, and if all parts named by rules reached have one index per axis, no fields. -/
theorem runBuild_collected (hmode : Mode.ofOptions o ≠ .standard) (hspace : space.WellFounded)
    (hbind : (Build.bindDimensions o).Gives
      { start catalogue o schema space interrupt with
        space := space.clearLinks.countUses rules } () b₀) :
    (∀ (fuel : Nat) (r : Rule), (r.blockRulesWith (space.partBlockRules fuel)).1 = r.isBlockRule) ∧
      ∃ b₁, (Build.prepare o (Mode.ofOptions o) rules).Gives
          (start catalogue o schema space interrupt) () b₁ ∧
        Collected o space rules b₁ (runBuild catalogue o schema space rules interrupt).2 := by
  refine ⟨fun fuel r => by rw [Rule.blockRulesWith_eq (space.partBlockRules_eq fuel)], ?_⟩
  obtain ⟨b₁, hprepare⟩ : ∃ b₁, (Build.prepare o (Mode.ofOptions o) rules).Gives
      (start catalogue o schema space interrupt) () b₁ := Build.exists_prepared _ hbind
  have hcuts : space.SameCuts (start catalogue o schema space interrupt).space :=
    Space.sameCuts_clearLinks space
  obtain ⟨hfill, hfields, hblocks⟩ := Build.collects_prepare hspace hcuts hprepare
  obtain ⟨hcuts₁, hgathers, hgathers'⟩ := hfill hcuts
  have hrun : (runBuild catalogue o schema space rules interrupt).2 =
      ((Build.carryOut o rules).run b₁).2 := by
    unfold runBuild
    rw [Build.complete_eq_prepare hmode, Build.run_bind, hprepare]
  obtain ⟨-, hlast, hlast'⟩ := Build.enters_carryOut space o rules b₁ hcuts₁
  rw [← hrun] at hlast hlast'
  have hheld : b₁.fieldOf.Holds space.compareCostName (space.Reached rules) := hgathers.holds hfields
  have hheld' : Mode.ofOptions o = .sparse →
      b₁.blockOf.Holds space.compareBlock (Build.ReachedBlock space rules) :=
    fun hsparse => hgathers'.holds (hblocks hsparse)
  refine ⟨b₁, hprepare, hheld, hheld', hlast'.full fun _ h => h.elim, ?_⟩
  intro hshaped
  have hnamed : ∀ r, space.Reached rules r → r.PartsIn (space.NamedBy rules) :=
    fun r hr part hpart => ⟨r, hr, hpart⟩
  have hregistered : ∀ r, Build.ReachedBlock space rules r →
      r.PartsIn fun part => space.Registered part.partition := by
    intro r hr part hpart
    obtain ⟨p, hp, -⟩ := hshaped r hr.1 part hpart
    exact ⟨p, hp⟩
  have hlawful := Space.lawfulOn_compareCostNameBy roundedCost hspace
    (Space.comparable_namedBy hshaped)
  have hsorted := hgathers.sorted hlawful hnamed Ledger.sorted_empty
  have hsorted' :=
    hgathers'.sorted (Space.lawfulOn_compareBlock hspace) hregistered Ledger.sorted_empty
  exact ⟨List.pairwise_map.mpr hsorted.increasing, List.pairwise_map.mpr hsorted'.increasing,
    hheld.full hlawful hnamed hsorted hlast⟩

end Whole

namespace EarlyOrders

/-- The state before dimensions get fields: it is counted what the day and the mean use. -/
def counted : BuildState :=
  { BuildState.start .default sparse stored space .never with
    space := space.clearLinks.countUses [yearDay, mean] }

/-- The state with the ledgers filled. -/
def filled : BuildState :=
  ((Build.prepare sparse .sparse [yearDay, mean]).run (.start .default sparse stored space .never)).2

theorem shaped_reached (r : Rule) (hr : space.Reached [yearDay, mean] r) :
    r.PartsIn space.Shaped := by
  have hday : yearDay.PartsIn space.Shaped :=
    (Rule.fit_of_check wellShaped_space checked_mean.1 over_yearDay).told.shaped
  have hmean : mean.PartsIn space.Shaped :=
    (Rule.fit_of_check wellShaped_space checked_mean.2 over_mean).told.shaped
  refine hr.partsIn wellShaped_space.comparable.onward ?_
  intro x hx
  rcases List.mem_pair.mp hx with rfl | rfl
  · exact hday
  · exact hmean

end EarlyOrders

open EarlyOrders in
/-- The mean of the early orders reaches the day that they are cut along; it is the one block rule. -/
theorem earlyMean_collected :
    Mode.ofOptions sparse ≠ .standard ∧ space.WellFounded ∧
      (∀ r, space.Reached [yearDay, mean] r → r.PartsIn space.Shaped) ∧
      (∃ b₀, (Build.bindDimensions sparse).Gives counted () b₀) ∧
      filled.fieldOf.rules.map (·.name) = ["YearDay", "TableSelection", "TableMean"] ∧
      filled.blockOf.rules.map (·.name) = ["TableMean"] ∧
      Collected sparse space [yearDay, mean] filled firstBuild.2 := by
  have hmode : Mode.ofOptions sparse ≠ .standard := by decide
  have hbound : ((Build.bindDimensions sparse).run counted).1.isOk = true := by decide +kernel
  have hbind : (Build.bindDimensions sparse).Gives counted ()
      ((Build.bindDimensions sparse).run counted).2 := run_eq_of_isOk hbound
  obtain ⟨-, b₁, hprepare, hcollected⟩ := runBuild_collected hmode wellFounded_space hbind
  obtain rfl : filled = b₁ := congrArg Prod.snd hprepare
  exact ⟨hmode, wellFounded_space, shaped_reached, ⟨_, hbind⟩, by decide +kernel, by decide +kernel,
    hcollected⟩

/-! ## Links of pages -/

namespace Pages

def pages : FieldType := .objectArray "Page"

/-- Pages with their words, and with other pages in four tables. -/
def schema : Schema :=
  ⟨[ ⟨"Page", [ .native "words" .continuous, .native "links" pages, .native "cites" pages,
        .native "quotes" pages, .native "shows" pages ], []⟩ ]⟩

/-- The first part of a partition. -/
def first (table : String) (rank : Nat) : Rule :=
  ⟨.tableSelection, "Page", [.field table pages, .part ⟨rank, [0]⟩], 0, 0⟩

def count (rank : Nat) : Rule := ⟨.tableCount, "Page", [.rule (first "links" rank)], 0, 0⟩

def cut (table : String) (axes : List Axis) (parts : List (List Nat × PartEntry)) : Partition :=
  ⟨"Page", "Page", table, axes, parts, 0, none, none, axes.map fun _ => .none⟩

def halves : Levels := [⟨2, [.interval Scalar.missing 4 0, .interval 4 Scalar.maxValue 1]⟩]

/-- Links are cut along one axis, and in two ways along two.  Three dimensions count links in a part
with one index, and the other tables are cut along these. -/
def space : Space :=
  { dimensions :=
      [ ⟨"Page", .field "words" .continuous, 0, some halves, none⟩,
        ⟨"Page", .rule (count 0), 0, some halves, none⟩,
        ⟨"Page", .rule (count 1), 0, some halves, none⟩,
        ⟨"Page", .rule (count 2), 0, some halves, none⟩ ]
    partitions :=
      [ cut "links" [⟨0, 2⟩] [], cut "links" [⟨0, 2⟩, ⟨0, 4⟩] [], cut "links" [⟨0, 2⟩, ⟨1, 2⟩] [],
        cut "quotes" [⟨1, 2⟩] [([0], ⟨0, 0⟩)], cut "shows" [⟨2, 2⟩] [([0], ⟨0, 0⟩)],
        cut "cites" [⟨3, 2⟩] [([0], ⟨0, 0⟩)] ] }

def rules : List Rule := [first "quotes" 3, first "shows" 4, first "cites" 5]

def build : Except BuildError Unit × BuildState :=
  runBuild .default .default schema space rules .never

/-- The state with the ledgers filled. -/
def filled : Except BuildError Unit × BuildState :=
  (Build.prepare .default .optimized rules).run (.start .default .default schema space .never)

/-- The new fields, that of the last candidate first. -/
def laid : NewFields := (Build.gatheredFields .default .default schema space rules).rotate 2

def finished : Except BuildError Unit × BuildState :=
  Build.finished .default .default schema space rules laid

theorem build_eq : build = (.ok (), finished.2) :=
  Build.runBuild_of_finished (by decide +kernel) (Build.sorted_rotated (by decide +kernel))
    (by decide +kernel)

theorem wellFounded_space : space.WellFounded where
  dimensions_nodup := by decide +kernel
  partitions_nodup := by decide +kernel
  axis_dimension := by simp [space, cut]
  earlier := by
    intro k d r hd hr part hpart
    match k with
    | 0 =>
      cases hd
      cases hr
    | 1 | 2 | 3 =>
      cases hd
      cases hr
      obtain rfl := List.mem_singleton.mp hpart
      exact ⟨_, rfl, by decide⟩
    | k + 4 => simp [space] at hd

end Pages

open Pages in
/-- Between counts in parts with too few indexes the order of cost and structure goes round in a
circle.  The second candidate has an entry that its turn does not find, and gets another one. -/
theorem pages_entered_twice :
    space.WellFounded ∧ (∀ r ∈ rules, r.check space = .ok ()) ∧
      Mode.ofOptions .default = .optimized ∧ filled.1 = .ok () ∧ build.1 = .ok () ∧
      filled.2.fieldOf.rules.length = 9 ∧ build.2.fieldOf.rules.length = 10 := by
  have hfilled : filled.1.isOk = true := by decide +kernel
  have hchecked : (rules.all fun r => (r.check space).isOk) = true := by decide +kernel
  rw [build_eq]
  exact ⟨wellFounded_space, fun r hr => eq_ok_of_isOk (List.all_eq_true.mp hchecked r hr), rfl,
    eq_ok_of_isOk hfilled, rfl, by decide +kernel, by decide +kernel⟩

end FeatureSynth
