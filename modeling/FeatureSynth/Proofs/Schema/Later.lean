/-
# What a build may change of a field

Of a field that was there a build sets marks, the cost and the note of the cost, and no
more.  The stored fields, which have neither a formula nor a block, also stay in order.
Whatever is made is not stored, and what is moved is not; so moves and insertions pass
the stored fields by, and the list of their names tells it.
-/
import FeatureSynth.Proofs.Schema.Edit

namespace FeatureSynth

/-! ## Lists with some elements passed by -/

section PassedBy

variable {α : Type} {p q : α → Bool}

theorem filter_firstToTail {l : List α} (h : ∀ x ∈ l, p x = true → q x = false) :
    (Entity.firstToTail p l).filter q = l.filter q := by
  induction l with
  | nil => rfl
  | cons x xs ih =>
    unfold Entity.firstToTail
    split
    · rename_i hx
      have hqx := h x List.mem_cons_self hx
      simp [hqx]
    · rw [List.filter_cons, List.filter_cons, ih fun y hy => h y (List.mem_cons_of_mem _ hy)]

theorem filter_insertBehind {p q : Field → Bool} {f : Field} (hf : q f = false) (l : List Field) :
    (Entity.insertBehind p f l).filter q = l.filter q := by
  induction l with
  | nil => rfl
  | cons x xs ih =>
    unfold Entity.insertBehind
    split
    · simp [List.filter_cons, hf]
    · rw [List.filter_cons, List.filter_cons, ih]

theorem filter_refill {p q : Field → Bool} (hp : ∀ f, p f = true → q f = false) :
    ∀ {l ms : List Field}, (∀ m ∈ ms, q m = false) →
      (Entity.refill p l ms).filter q = l.filter q
  | [], _, _ => rfl
  | x :: xs, [], _ => rfl
  | x :: xs, m :: ms, hms => by
      unfold Entity.refill
      split
      · rename_i hx
        rw [List.filter_cons_of_neg (by simp [hms m List.mem_cons_self]),
          List.filter_cons_of_neg (by simp [hp x hx])]
        exact filter_refill hp fun m' hm' => hms m' (List.mem_cons_of_mem _ hm')
      · rw [List.filter_cons, List.filter_cons, filter_refill hp hms]

end PassedBy

/-! ## Fields -/

theorem Notes.erase_place (word : String) (value : Float) (notes : Notes) :
    (place word value notes).erase word = notes.erase word := by
  induction notes with
  | nil => simp [place, erase]
  | cons n rest ih =>
    unfold place
    split
    · simp [erase]
    · have ih : (place word value rest).filter (·.1 != word) = rest.filter (·.1 != word) := ih
      rw [erase, erase, List.filter_cons, List.filter_cons, ih]

namespace Field

/-- Whether a field has its value stored with the record, outside of any block. -/
def isStored (f : Field) : Bool := f.formula.isNone && f.block.isNone

/-- A field as a build leaves it: marks are only set, and the cost and its note are free. -/
structure Later (f g : Field) : Prop where
  core : g.core = f.core
  used : f.used = true → g.used = true
  loaded : f.loaded = true → g.loaded = true
  notes : g.notes.erase costWord = f.notes.erase costWord

variable {f g h : Field}

protected theorem Later.refl (f : Field) : f.Later f := ⟨rfl, id, id, rfl⟩

protected theorem Later.trans (hfg : f.Later g) (hgh : g.Later h) : f.Later h where
  core := hgh.core.trans hfg.core
  used := hgh.used ∘ hfg.used
  loaded := hgh.loaded ∘ hfg.loaded
  notes := hgh.notes.trans hfg.notes

theorem isStored_core (f : Field) : f.core.isStored = f.isStored := rfl

theorem Later.name_eq (h : f.Later g) : g.name = f.name := by
  rw [← core_name, h.core, core_name]

theorem Later.isStored_eq (h : f.Later g) : g.isStored = f.isStored := by
  rw [← isStored_core, h.core, isStored_core]

theorem not_isStored_of_block {B : String} (hB : f.isIn B = true) : f.isStored = false := by
  have hblock : f.block = some B := by simpa [isIn] using hB
  simp [isStored, hblock]

theorem not_isStored_of_formula {φ : Formula} (hφ : f.formula = some φ) : f.isStored = false := by
  simp [isStored, hφ]

theorem later_mark (cost : Float) (f : Field) :
    f.Later { f with used := true, loaded := true, cost } :=
  ⟨rfl, fun _ => rfl, fun _ => rfl, rfl⟩

theorem later_annotate (o : Options) (isMain : Bool) (f : Field) :
    f.Later (o.annotateField isMain f) := by
  have herase : (f.notes.erase costWord).erase costWord = f.notes.erase costWord := by
    simp [Notes.erase]
  refine ⟨core_annotateField o isMain f, ?_, ?_, ?_⟩
  all_goals unfold Options.annotateField; split
  · exact id
  · exact id
  · exact id
  · exact id
  · exact herase
  · exact (Notes.erase_place _ _ _).trans (by rw [herase, herase])

end Field

/-! ## Entities -/

namespace Entity

/-- The names of the stored fields, in order. -/
def storedNames (e : Entity) : List String := (e.fields.filter (·.isStored)).map (·.name)

/-- Every field is there, as a build leaves it, and the stored fields are in the order they were
in. -/
structure Keeps (e e' : Entity) : Prop where
  later : ∀ f ∈ e.fields, ∃ g ∈ e'.fields, f.Later g
  stored : e'.storedNames = e.storedNames

variable {e e' e'' : Entity}

protected theorem Keeps.refl (e : Entity) : e.Keeps e := ⟨fun f hf => ⟨f, hf, .refl f⟩, rfl⟩

protected theorem Keeps.trans (h : e.Keeps e') (h' : e'.Keeps e'') : e.Keeps e'' where
  later := by
    intro f hf
    obtain ⟨g, hg, hfg⟩ := h.later f hf
    obtain ⟨k, hk, hgk⟩ := h'.later g hg
    exact ⟨k, hk, hfg.trans hgk⟩
  stored := h'.stored.trans h.stored

theorem Keeps.of_subset (h : ∀ f ∈ e.fields, f ∈ e'.fields)
    (hstored : e'.storedNames = e.storedNames) : e.Keeps e' :=
  ⟨fun f hf => ⟨f, h f hf, .refl f⟩, hstored⟩

/-- The stored fields can be told by the cores. -/
theorem storedNames_of_cores (h : e'.cores = e.cores) : e'.storedNames = e.storedNames := by
  have hcores : ∀ e : Entity, (e.cores.filter (·.isStored)).map (·.name) = e.storedNames := by
    intro e
    rw [cores, List.filter_map, List.map_map]
    rfl
  rw [← hcores, h, hcores]

/-- Every field is changed, and remains what it was up to marks and costs. -/
theorem keeps_map {change : Field → Field} (h : ∀ f, Field.Later f (change f)) (e : Entity) :
    e.Keeps { e with fields := e.fields.map change } where
  later := fun f hf => ⟨change f, List.mem_map_of_mem hf, h f⟩
  stored := storedNames_of_cores <| by
    rw [cores, List.map_map]
    exact List.map_congr_left fun f _ => (h f).core

theorem keeps_modifyField {change : Field → Field} (h : ∀ f, Field.Later f (change f)) (e : Entity)
    (name : String) : e.Keeps (e.modifyField name change) where
  later := by
    intro f hf
    rw [modifyField_eq]
    rcases mem_replaceFirst_or (p := (·.name == name)) change hf with hmem | hfirst
    · exact ⟨f, hmem, .refl f⟩
    · exact ⟨change f, change_mem_replaceFirst hfirst, h f⟩
  stored := storedNames_of_cores (cores_modifyField e name fun f => (h f).core)

/-! ### Moves -/

theorem keeps_moveFieldToTail {name : String}
    (h : ∀ f ∈ e.fields, f.name = name → f.isStored = false) :
    e.Keeps (e.moveFieldToTail name) :=
  .of_subset (fun _ hf => (moveFieldToTail_perm e name).mem_iff.mpr hf)
    (congrArg (List.map Field.name) (filter_firstToTail fun f hf hname =>
      h f hf (by simpa using hname)))

theorem keeps_moveBlockToTail (e : Entity) (B : String) : e.Keeps (e.moveBlockToTail B) := by
  refine .of_subset (fun _ hf => (moveBlockToTail_fields_perm e B).mem_iff.mpr hf)
    (congrArg (List.map Field.name) ?_)
  have hmembers : (e.fields.filter (·.isIn B)).filter (·.isStored) = [] := by
    refine List.filter_eq_nil_iff.mpr fun f hf => ?_
    simp [Field.not_isStored_of_block (List.mem_filter.mp hf).2]
  have hothers : (e.fields.filter (!·.isIn B)).filter (·.isStored) =
      e.fields.filter (·.isStored) := by
    rw [List.filter_filter]
    refine List.filter_congr fun f _ => ?_
    cases hB : f.isIn B with
    | true => simp [Field.not_isStored_of_block hB]
    | false => simp
  rw [moveBlockToTail, List.filter_append, hmembers, hothers, List.append_nil]

theorem keeps_sortBlock (e : Entity) (B : String) : e.Keeps (e.sortBlock B) := by
  refine .of_subset (fun _ hf => (sortBlock_perm e B).mem_iff.mpr hf)
    (congrArg (List.map Field.name) ?_)
  refine filter_refill (fun _ hf => Field.not_isStored_of_block hf) fun m hm => ?_
  exact Field.not_isStored_of_block (List.mem_filter.mp (List.mem_mergeSort.mp hm)).2

/-! ### Insertions -/

/-- An entity with one more field, made and not stored, and possibly with more blocks. -/
structure Adds (e : Entity) (f : Field) (e' : Entity) : Prop where
  name_eq : e'.name = e.name
  fields : e'.fields.Perm (e.fields ++ [f])
  stored : e'.storedNames = e.storedNames
  unstored : f.isStored = false
  unused : f.used = false

variable {f : Field}

theorem Adds.keeps (h : e.Adds f e') : e.Keeps e' :=
  .of_subset (fun _ hg => h.fields.mem_iff.mpr (List.mem_append_left _ hg)) h.stored

theorem Adds.mem_iff (h : e.Adds f e') {g : Field} : g ∈ e'.fields ↔ g ∈ e.fields ∨ g = f := by
  rw [h.fields.mem_iff, List.mem_append, List.mem_singleton]

theorem adds_insertField (e : Entity) (n : String) (t : FieldType) (φ : Formula) :
    e.Adds (.derived n t φ) (e.insertField (.derived n t φ)) where
  name_eq := rfl
  fields := .refl _
  stored := by simp [storedNames, insertField, Field.isStored, Field.derived]
  unstored := rfl
  unused := rfl

theorem adds_insertMember {n B : String} {t : FieldType} {key : Nat}
    (h : e.insertMember B (.member n t "" key) = .ok e') :
    e.Adds (asMember (.member n t "" key) B) e' := by
  obtain ⟨hname, -, hfields, -⟩ := insertMember_eq_ok h
  refine ⟨hname, hfields, ?_, rfl, rfl⟩
  unfold insertMember at h
  split at h
  · cases h
    exact congrArg (List.map Field.name) (filter_insertBehind rfl _)
  · cases h

theorem adds_addBlock (e : Entity) (b : Block) (n : String) (t : FieldType) (key : Nat) :
    e.Adds (asMember (.member n t "" key) b.name) (e.addBlock b (.member n t "" key)) where
  name_eq := rfl
  fields := .refl _
  stored := by simp [storedNames, addBlock, Field.isStored, asMember]
  unstored := rfl
  unused := rfl

end Entity

end FeatureSynth
