/-
# What a class record indexes

`ClassRecord.collect` walks over the fields and then over the blocks of an entity,
and indexes what some template that applies to the entity could have produced.
So the record knows a formula exactly when a derived field of the entity has it
*and* its operator is usable: the first such field answers.  The same holds of
blocks.  Members are indexed under the formula of the block they name.

A registration adds one entry behind all others, under a key that had none.
-/
import FeatureSynth.Proofs.Schema.Edit

namespace FeatureSynth

/-! ## Entries under keys -/

section Lookup

variable {κ ν : Type} [BEq κ] [LawfulBEq κ] {entries : List (κ × ν)} {key : κ} {name : ν}

theorem mem_of_lookup (h : entries.lookup key = some name) : (key, name) ∈ entries := by
  obtain ⟨l₁, l₂, rfl, -⟩ := List.lookup_eq_some_iff.mp h
  exact List.mem_append_right _ List.mem_cons_self

theorem lookup_of_mem (hn : (entries.map (·.1)).Nodup) (h : (key, name) ∈ entries) :
    entries.lookup key = some name := by
  obtain ⟨l₁, l₂, rfl⟩ := List.append_of_mem h
  refine List.lookup_eq_some_iff.mpr ⟨l₁, l₂, rfl, fun p hp => ?_⟩
  rw [List.map_append, List.nodup_append] at hn
  simpa using Ne.symm (hn.2.2 p.1 (List.mem_map_of_mem hp) key (by simp))

end Lookup

namespace ClassRecord

variable {c c' : ClassRecord} {e : Entity}

/-! ## One more entry -/

theorem lookup_insertNew {κ : Type} [BEq κ] [LawfulBEq κ] (key k : κ) (name : String)
    (entries : List (κ × String)) :
    (insertNew key name entries).lookup k =
      (entries.lookup k).or (if k == key then some name else none) := by
  unfold insertNew
  split
  · rename_i h
    cases hk : k == key with
    | false => simp
    | true =>
      obtain rfl : k = key := by simpa using hk
      obtain ⟨n, hn⟩ := Option.isSome_iff_exists.mp h
      simp [hn]
  · rw [List.lookup_append, List.lookup_cons]
    cases k == key <;> rfl

theorem nodup_append_new {κ : Type} [BEq κ] [LawfulBEq κ] {key : κ} {name : String}
    {entries : List (κ × String)} (h : (entries.map (·.1)).Nodup)
    (hnew : entries.lookup key = none) : ((entries ++ [(key, name)]).map (·.1)).Nodup := by
  rw [List.map_append, List.nodup_append]
  refine ⟨h, by simp, fun k hk k' hk' heq => ?_⟩
  obtain ⟨p, hp, rfl⟩ := List.mem_map.mp hk
  obtain rfl := List.mem_singleton.mp hk'
  have hne := List.lookup_eq_none_iff.mp hnew p hp
  simp [heq] at hne

theorem nodup_insertNew {κ : Type} [BEq κ] [LawfulBEq κ] {key : κ} {name : String}
    {entries : List (κ × String)} (h : (entries.map (·.1)).Nodup) :
    ((insertNew key name entries).map (·.1)).Nodup := by
  unfold insertNew
  split
  · exact h
  · rename_i hnew
    exact nodup_append_new h (Option.not_isSome_iff_eq_none.mp hnew)

/-! ## Collection -/

/-- The name of the first derived field with a formula. -/
def derivedName? (fields : List Field) (φ : Formula) : Option String :=
  (fields.find? (·.formula == some φ)).map (·.name)

theorem derivedName?_isSome {fields : List Field} {φ : Formula} :
    (derivedName? fields φ).isSome = true ↔ ∃ f ∈ fields, f.formula = some φ := by
  simp [derivedName?]

theorem addField_keeps (c : ClassRecord) (f : Field) :
    (addField e c f).operators = c.operators ∧ (addField e c f).className = c.className ∧
      (addField e c f).blocks = c.blocks := by
  unfold addField addDerived addMember
  repeat' split
  all_goals exact ⟨rfl, rfl, rfl⟩

theorem isUsable_addField (c : ClassRecord) (f : Field) (operator : String) :
    (addField e c f).isUsable operator = c.isUsable operator := by
  rw [isUsable, isUsable, (addField_keeps c f).1]

theorem field?_addMember (c : ClassRecord) (f : Field) (φ : Formula) :
    (c.addMember e f).field? φ = c.field? φ := by
  unfold addMember
  split
  · split
    · simp [field?, lookup_insertNew]
    · rfl
  · rfl

theorem field?_addDerived (c : ClassRecord) (f : Field) (φ ψ : Formula) :
    (c.addDerived f ψ).field? φ =
      (c.field? φ).or (if c.isUsable φ.name then if ψ = φ then some f.name else none else none) := by
  unfold addDerived field?
  by_cases h : ψ = φ
  · subst h
    cases hu : c.isUsable ψ.name <;> cases hl : c.fields.lookup (ψ, none) <;>
      simp [hl, List.lookup_append]
  · have hne : ((φ, (none : Option Nat)) == (ψ, none)) = false := by
      simpa using fun h' => h h'.symm
    split <;> simp [List.lookup_append, List.lookup_cons, hne]

theorem field?_addField (c : ClassRecord) (f : Field) (φ : Formula) :
    (addField e c f).field? φ =
      (c.field? φ).or (if c.isUsable φ.name then derivedName? [f] φ else none) := by
  unfold addField
  cases hf : f.formula with
  | none =>
    have : derivedName? [f] φ = none := by simp [derivedName?, hf]
    simp [field?_addMember, this]
  | some ψ =>
    have : derivedName? [f] φ = if ψ = φ then some f.name else none := by
      by_cases h : ψ = φ <;> simp [derivedName?, hf, h]
    rw [this]
    exact field?_addDerived c f φ ψ

theorem field?_foldl_addField (fields : List Field) (c : ClassRecord) (φ : Formula) :
    (fields.foldl (addField e) c).field? φ =
      (c.field? φ).or (if c.isUsable φ.name then derivedName? fields φ else none) := by
  induction fields generalizing c with
  | nil => simp [derivedName?]
  | cons f fs ih =>
    rw [List.foldl_cons, ih, field?_addField, isUsable_addField, Option.or_assoc]
    congr 1
    cases c.isUsable φ.name with
    | false => simp
    | true =>
      simp only [if_true, derivedName?, List.find?_cons]
      cases f.formula == some φ <;> simp

theorem foldl_addField_keeps (fields : List Field) (c : ClassRecord) :
    (fields.foldl (addField e) c).operators = c.operators ∧
      (fields.foldl (addField e) c).className = c.className ∧
        (fields.foldl (addField e) c).blocks = c.blocks := by
  induction fields generalizing c with
  | nil => exact ⟨rfl, rfl, rfl⟩
  | cons f fs ih =>
    obtain ⟨ho, hn, hb⟩ := ih (addField e c f)
    obtain ⟨ho', hn', hb'⟩ := addField_keeps (e := e) c f
    exact ⟨ho.trans ho', hn.trans hn', hb.trans hb'⟩

theorem addBlock_keeps (c : ClassRecord) (b : Block) :
    (c.addBlock b).fields = c.fields ∧ (c.addBlock b).operators = c.operators ∧
      (c.addBlock b).className = c.className := by
  unfold addBlock
  split <;> exact ⟨rfl, rfl, rfl⟩

theorem foldl_addBlock_keeps (blocks : List Block) (c : ClassRecord) :
    (blocks.foldl addBlock c).fields = c.fields ∧
      (blocks.foldl addBlock c).operators = c.operators ∧
        (blocks.foldl addBlock c).className = c.className := by
  induction blocks generalizing c with
  | nil => exact ⟨rfl, rfl, rfl⟩
  | cons b bs ih =>
    obtain ⟨hf, ho, hn⟩ := ih (c.addBlock b)
    obtain ⟨hf', ho', hn'⟩ := addBlock_keeps c b
    exact ⟨hf.trans hf', ho.trans ho', hn.trans hn'⟩

/-- A field stands under a key in a declared block with a formula. -/
structure IsMember (e : Entity) (f : Field) (φ : Formula) (key : Nat) : Prop where
  plain : f.formula = none
  key : f.key = some key
  block : ∃ b, f.block.bind e.block? = some b ∧ b.formula = φ

theorem member?_addField {f : Field} {φ : Formula} {k : Nat} {n : String}
    (h : (addField e c f).member? φ k = some n) :
    c.member? φ k = some n ∨ (IsMember e f φ k ∧ f.name = n ∧ c.isUsable φ.name = true) := by
  unfold addField at h
  split at h
  · left
    unfold addDerived at h
    split at h
    · rename_i ψ _ _
      have hne : ((φ, some k) == (ψ, (none : Option Nat))) = false := by simp
      simpa only [member?, List.lookup_append, List.lookup_cons, hne, List.lookup_nil,
        Option.or_none] using h
    · exact h
  · rename_i hf
    unfold addMember at h
    split at h
    · rename_i b key hb hk
      split at h
      · rename_i hu
        simp only [member?, lookup_insertNew, Option.or_eq_some_iff] at h
        rcases h with h | ⟨-, h⟩
        · exact .inl h
        · right
          split at h
          · rename_i hkey
            obtain ⟨rfl, rfl⟩ : φ = b.formula ∧ k = key := by simpa using hkey
            exact ⟨⟨hf, hk, b, hb, rfl⟩, by simpa using h, hu⟩
          · cases h
      · exact .inl h
    · exact .inl h

theorem member?_foldl_addField (fields : List Field) (c : ClassRecord) {φ : Formula} {k : Nat}
    {n : String} (h : (fields.foldl (addField e) c).member? φ k = some n) :
    c.member? φ k = some n ∨
      ∃ f ∈ fields, IsMember e f φ k ∧ f.name = n ∧ c.isUsable φ.name = true := by
  induction fields generalizing c with
  | nil => exact .inl h
  | cons f fs ih =>
    rcases ih _ h with h | ⟨g, hg, hm⟩
    · rcases member?_addField h with h | hm
      · exact .inl h
      · exact .inr ⟨f, List.mem_cons_self, hm⟩
    · rw [isUsable_addField] at hm
      exact .inr ⟨g, List.mem_cons_of_mem _ hg, hm⟩

/-- What is indexed stays, and a field that is a member gets indexed. -/
theorem member?_addField_isSome {f : Field} {φ : Formula} {k : Nat}
    (h : (c.member? φ k).isSome = true ∨ (IsMember e f φ k ∧ c.isUsable φ.name = true)) :
    ((addField e c f).member? φ k).isSome = true := by
  unfold addField
  split
  · rename_i ψ hψ
    rcases h with h | ⟨hm, -⟩
    · unfold addDerived
      split
      · rw [member?, List.lookup_append, ← member?, Option.isSome_or, h, Bool.true_or]
      · exact h
    · cases hψ.symm.trans hm.plain
  · unfold addMember
    split
    · rename_i b key hb hk
      rcases h with h | ⟨⟨-, hk', b', hb', rfl⟩, hu⟩
      · split
        · rw [member?, lookup_insertNew, ← member?, Option.isSome_or, h, Bool.true_or]
        · exact h
      · obtain rfl := Option.some.inj (hb.symm.trans hb')
        obtain rfl := Option.some.inj (hk.symm.trans hk')
        simp [hu, member?, lookup_insertNew]
    · rename_i hnone
      rcases h with h | ⟨⟨-, hk', b', hb', rfl⟩, -⟩
      · exact h
      · exact absurd hk' (hnone b' k hb')

theorem member?_foldl_addField_isSome {φ : Formula} {k : Nat} :
    ∀ {fields : List Field} {c : ClassRecord}, c.isUsable φ.name = true →
      ((c.member? φ k).isSome = true ∨ ∃ f ∈ fields, IsMember e f φ k) →
      ((fields.foldl (addField e) c).member? φ k).isSome = true
  | [], _, _, h => h.elim id fun ⟨_, hf, _⟩ => absurd hf List.not_mem_nil
  | f :: fs, c, hu, h => by
      refine member?_foldl_addField_isSome (c := addField e c f)
        ((isUsable_addField c f _).trans hu) ?_
      rcases h with h | ⟨g, hg, hm⟩
      · exact .inl (member?_addField_isSome (.inl h))
      · rcases List.mem_cons.mp hg with rfl | hg
        · exact .inl (member?_addField_isSome (.inr ⟨hm, hu⟩))
        · exact .inr ⟨g, hg, hm⟩

/-- The name of the first block with a formula. -/
def blockName? (blocks : List Block) (φ : Formula) : Option String :=
  (blocks.find? (·.formula == φ)).map (·.name)

theorem block?_foldl_addBlock (blocks : List Block) (c : ClassRecord) (φ : Formula) :
    (blocks.foldl addBlock c).block? φ =
      (c.block? φ).or (if c.isUsable φ.name then blockName? blocks φ else none) := by
  induction blocks generalizing c with
  | nil => simp [blockName?]
  | cons b bs ih =>
    have hu : (c.addBlock b).isUsable φ.name = c.isUsable φ.name := by
      rw [isUsable, isUsable, (addBlock_keeps c b).2.1]
    have hone : (c.addBlock b).block? φ =
        (c.block? φ).or (if c.isUsable φ.name then blockName? [b] φ else none) := by
      unfold addBlock
      by_cases hb : b.formula = φ
      · subst hb
        split <;> simp [block?, lookup_insertNew, blockName?, *]
      · have hne : (φ == b.formula) = false := by simpa using fun h => hb h.symm
        split <;> simp [block?, lookup_insertNew, blockName?, hb, hne]
    rw [List.foldl_cons, ih, hone, hu, Option.or_assoc]
    congr 1
    cases c.isUsable φ.name with
    | false => simp
    | true =>
      simp only [if_true, blockName?, List.find?_cons]
      cases b.formula == φ <;> simp

section Collect

variable (catalogue : Catalogue) (schema : Schema) (e : Entity)

/-- The record of an entity before anything is indexed. -/
def blank : ClassRecord :=
  { className := e.name, templates := catalogue.applicable e schema
    operators := (catalogue.applicable e schema).flatMap operatorsOf, fields := [], blocks := []
    redundant := redundantFields [] e.fields, derivedCount := 0, matched := [], memo := [] }

theorem collect_eq :
    collect catalogue schema e =
      e.blocks.foldl addBlock (e.fields.foldl (addField e) (blank catalogue schema e)) :=
  rfl

@[simp] theorem className_collect : (collect catalogue schema e).className = e.name := by
  rw [collect_eq, (foldl_addBlock_keeps _ _).2.2, (foldl_addField_keeps _ _).2.1]
  rfl

theorem isUsable_collect (operator : String) :
    (collect catalogue schema e).isUsable operator = (blank catalogue schema e).isUsable operator := by
  rw [isUsable, isUsable, collect_eq, (foldl_addBlock_keeps _ _).2.1, (foldl_addField_keeps _ _).1]

/-- A record knows the formulas of derived fields whose operator is usable, by the first field. -/
theorem field?_collect (φ : Formula) :
    (collect catalogue schema e).field? φ =
      if (collect catalogue schema e).isUsable φ.name then derivedName? e.fields φ else none := by
  have hblank : (blank catalogue schema e).field? φ = none := rfl
  rw [isUsable_collect, collect_eq, field?, (foldl_addBlock_keeps _ _).1]
  exact (field?_foldl_addField e.fields (blank catalogue schema e) φ).trans (by rw [hblank]; rfl)

theorem field?_collect_isSome (φ : Formula) :
    ((collect catalogue schema e).field? φ).isSome = true ↔
      (∃ f ∈ e.fields, f.formula = some φ) ∧
        (collect catalogue schema e).isUsable φ.name = true := by
  rw [field?_collect]
  cases (collect catalogue schema e).isUsable φ.name with
  | false => simp
  | true => simpa using derivedName?_isSome

theorem member?_collect {φ : Formula} {k : Nat} {n : String}
    (h : (collect catalogue schema e).member? φ k = some n) :
    ∃ f ∈ e.fields, IsMember e f φ k ∧ f.name = n ∧
      (collect catalogue schema e).isUsable φ.name = true := by
  rw [collect_eq, member?, (foldl_addBlock_keeps _ _).1] at h
  rw [isUsable_collect]
  rcases member?_foldl_addField e.fields _ h with h | h
  · cases h
  · exact h

theorem block?_collect (φ : Formula) :
    (collect catalogue schema e).block? φ =
      if (collect catalogue schema e).isUsable φ.name then blockName? e.blocks φ else none := by
  have hblank : (e.fields.foldl (addField e) (blank catalogue schema e)).block? φ = none := by
    rw [block?, (foldl_addField_keeps _ _).2.2]
    rfl
  have hu : (e.fields.foldl (addField e) (blank catalogue schema e)).isUsable φ.name =
      (blank catalogue schema e).isUsable φ.name := by
    rw [isUsable, isUsable, (foldl_addField_keeps _ _).1]
  rw [isUsable_collect, collect_eq, block?_foldl_addBlock, hblank, hu]
  rfl

end Collect

/-- An operator is usable when some template that applies can produce it. -/
theorem isUsable_collect_iff {catalogue : Catalogue} {schema : Schema} {e : Entity}
    {operator : String} :
    (collect catalogue schema e).isUsable operator = true ↔
      ∃ t ∈ catalogue.applicable e schema, operator ∈ operatorsOf t := by
  rw [isUsable_collect]
  simp [isUsable, blank]

/-- A member is known under its key if the operator of its block is usable. -/
theorem member?_collect_isSome (catalogue : Catalogue) (schema : Schema) {f : Field} {φ : Formula}
    {k : Nat} (hf : f ∈ e.fields) (hm : IsMember e f φ k)
    (hu : (collect catalogue schema e).isUsable φ.name = true) :
    ((collect catalogue schema e).member? φ k).isSome = true := by
  rw [isUsable_collect] at hu
  rw [collect_eq, member?, (foldl_addBlock_keeps _ _).1]
  exact member?_foldl_addField_isSome hu (.inr ⟨f, hf, hm⟩)

/-- No key is indexed twice. -/
theorem nodup_addField {f : Field} (h : (c.fields.map (·.1)).Nodup) :
    ((addField e c f).fields.map (·.1)).Nodup := by
  unfold addField addDerived addMember
  split
  · split
    · rename_i hnew
      rw [Bool.and_eq_true, Option.isNone_iff_eq_none] at hnew
      exact nodup_append_new h hnew.2
    · exact h
  · split
    · split
      · exact nodup_insertNew h
      · exact h
    · exact h

theorem nodup_collect (catalogue : Catalogue) (schema : Schema) (e : Entity) :
    ((collect catalogue schema e).fields.map (·.1)).Nodup ∧
      ((collect catalogue schema e).blocks.map (·.1)).Nodup := by
  have hfields : ∀ (fields : List Field) (c : ClassRecord), (c.fields.map (·.1)).Nodup →
      ((fields.foldl (addField e) c).fields.map (·.1)).Nodup := by
    intro fields
    induction fields with
    | nil => exact fun _ h => h
    | cons f fs ih => exact fun c h => ih _ (nodup_addField h)
  have hblocks : ∀ (blocks : List Block) (c : ClassRecord), (c.blocks.map (·.1)).Nodup →
      ((blocks.foldl addBlock c).blocks.map (·.1)).Nodup := by
    intro blocks
    induction blocks with
    | nil => exact fun _ h => h
    | cons b bs ih =>
      refine fun c h => ih _ ?_
      unfold addBlock
      split
      · exact nodup_insertNew h
      · exact h
  rw [collect_eq]
  constructor
  · rw [(foldl_addBlock_keeps _ _).1]
    exact hfields _ _ .nil
  · refine hblocks _ _ ?_
    rw [(foldl_addField_keeps _ _).2.2]
    exact .nil

/-! ## Registration -/

/-- An entry for a field under a key, behind all others. -/
def WithField (c : ClassRecord) (key : Formula × Option Nat) (name : String) (c' : ClassRecord) :
    Prop :=
  c'.className = c.className ∧ c'.fields = c.fields ++ [(key, name)] ∧ c'.blocks = c.blocks

theorem registerDerived_eq_ok {f : Field} (h : c.registerDerived f = .ok c') :
    ∃ φ, f.formula = some φ ∧ c.fields.lookup (φ, none) = none ∧ c.WithField (φ, none) f.name c' := by
  unfold registerDerived at h
  split at h
  · cases h
  · rename_i φ hφ
    split at h
    · cases h
    · rename_i hnone
      cases h
      exact ⟨φ, hφ, Option.not_isSome_iff_eq_none.mp hnone, rfl, rfl, rfl⟩

theorem registerMember_eq_ok {φ : Formula} {f : Field} (h : c.registerMember φ f = .ok c') :
    ∃ k, f.key = some k ∧ c.fields.lookup (φ, some k) = none ∧
      c.WithField (φ, some k) f.name c' := by
  unfold registerMember at h
  split at h
  · cases h
  · rename_i k hk
    split at h
    · cases h
    · rename_i hnone
      cases h
      exact ⟨k, hk, Option.not_isSome_iff_eq_none.mp hnone, rfl, rfl, rfl⟩

theorem registerBlock_eq_ok {b : Block} (h : c.registerBlock b = .ok c') :
    c.block? b.formula = none ∧ c'.className = c.className ∧ c'.fields = c.fields ∧
      c'.blocks = c.blocks ++ [(b.formula, b.name)] := by
  unfold registerBlock at h
  split at h
  · cases h
  · rename_i hnone
    cases h
    exact ⟨Option.not_isSome_iff_eq_none.mp hnone, rfl, rfl, rfl⟩

theorem noteMatch_keeps (c : ClassRecord) (name : String) :
    (c.noteMatch name).className = c.className ∧ (c.noteMatch name).fields = c.fields ∧
      (c.noteMatch name).blocks = c.blocks := by
  unfold noteMatch
  dsimp only
  repeat' split
  all_goals exact ⟨rfl, rfl, rfl⟩

/-- A lookup changes only what the record remembers. -/
theorem lookupRule_keeps {s : Space} {r : Rule} {answer : Option String}
    (h : c.lookupRule s r = .ok (answer, c')) :
    c'.className = c.className ∧ c'.fields = c.fields ∧ c'.blocks = c.blocks := by
  unfold lookupRule at h
  repeat' split at h
  all_goals cases h
  all_goals
    first
    | exact ⟨rfl, rfl, rfl⟩
    | exact noteMatch_keeps c _

end ClassRecord

end FeatureSynth
