/-
# What edits keep

A build edits an entity in three ways: it adds, it moves, and it marks.  Marks
touch what the *core* of a field leaves out: whether it is used or loaded, and what
it costs.  Moves permute the fields and blocks.  So up to the order, an entity
after any edits is the entity before with more fields and blocks, and the cores
of its own are as they were.

Entities, records and fields are all replaced in place by the same traversal: the
first element that a test holds of.  `replaceFirst` is that traversal, with its
lemmas proved once.
-/
import Mathlib.Data.List.Perm.Basic
import FeatureSynth.Build.Cost
import FeatureSynth.Registry
import FeatureSynth.Schema.Edit

namespace FeatureSynth

/-! ## Replacing the first element -/

/-- A list with the first element that `p` holds of changed. -/
def replaceFirst {α : Type} (p : α → Bool) (change : α → α) : List α → List α
  | [] => []
  | x :: xs => if p x then change x :: xs else x :: replaceFirst p change xs

section ReplaceFirst

variable {α β : Type} {p q : α → Bool} {change : α → α}

theorem find?_replaceFirst {l : List α} {x : α} (h : l.find? p = some x)
    (hx : p (change x) = true) : (replaceFirst p change l).find? p = some (change x) := by
  induction l with
  | nil => cases h
  | cons y ys ih =>
    cases hy : p y with
    | true =>
      obtain rfl : y = x := by simpa [hy] using h
      simp [replaceFirst, hy, hx]
    | false =>
      simp only [replaceFirst, hy, List.find?_cons] at h ⊢
      simpa [hy] using ih h

theorem find?_replaceFirst_ne (l : List α) (hq : ∀ x, p x = true → q x = false)
    (hc : ∀ x, p x = true → q (change x) = false) :
    (replaceFirst p change l).find? q = l.find? q := by
  induction l with
  | nil => rfl
  | cons y ys ih =>
    cases hy : p y with
    | true => simp [replaceFirst, hy, hq y hy, hc y hy]
    | false => simp [replaceFirst, hy, List.find?_cons, ih]

theorem map_replaceFirst (g : α → β) (l : List α) (h : ∀ x, p x = true → g (change x) = g x) :
    (replaceFirst p change l).map g = l.map g := by
  induction l with
  | nil => rfl
  | cons y ys ih =>
    cases hy : p y with
    | true => simp [replaceFirst, hy, h y hy]
    | false => simp [replaceFirst, hy, ih]

/-- What is changed twice is changed once, if it is still the first after the first change. -/
theorem replaceFirst_replaceFirst {change' : α → α} (l : List α)
    (h : ∀ x, p x = true → p (change x) = true) :
    replaceFirst p change' (replaceFirst p change l) = replaceFirst p (change' ∘ change) l := by
  induction l with
  | nil => rfl
  | cons y ys ih =>
    cases hy : p y with
    | true => simp [replaceFirst, hy, h y hy]
    | false => simp [replaceFirst, hy, ih]

theorem change_mem_replaceFirst {l : List α} {x : α} (h : l.find? p = some x) :
    change x ∈ replaceFirst p change l := by
  induction l with
  | nil => cases h
  | cons z zs ih =>
    cases hz : p z with
    | true =>
      obtain rfl : z = x := by simpa [hz] using h
      simp [replaceFirst, hz]
    | false =>
      simp only [List.find?_cons, hz] at h
      simp [replaceFirst, hz, ih h]

/-- An element stays, or it is the one changed. -/
theorem mem_replaceFirst_or (change : α → α) {l : List α} {y : α} (h : y ∈ l) :
    y ∈ replaceFirst p change l ∨ l.find? p = some y := by
  induction l with
  | nil => cases h
  | cons z zs ih =>
    cases hz : p z with
    | true =>
      rcases List.mem_cons.mp h with rfl | h
      · exact .inr (by simp [hz])
      · exact .inl (by simp [replaceFirst, hz, h])
    | false =>
      rcases List.mem_cons.mp h with rfl | h
      · exact .inl (by simp [replaceFirst, hz])
      · rcases ih h with h | h
        · exact .inl (by simp [replaceFirst, hz, h])
        · exact .inr (by simpa [hz] using h)

theorem of_mem_replaceFirst {change : α → α} {l : List α} {y : α}
    (h : y ∈ replaceFirst p change l) : y ∈ l ∨ ∃ x, l.find? p = some x ∧ change x = y := by
  induction l with
  | nil => cases h
  | cons z zs ih =>
    cases hz : p z with
    | true =>
      rw [replaceFirst, if_pos hz] at h
      rcases List.mem_cons.mp h with rfl | h
      · exact .inr ⟨z, by rw [List.find?_cons_of_pos hz], rfl⟩
      · exact .inl (List.mem_cons_of_mem _ h)
    | false =>
      rw [replaceFirst, if_neg (by simp [hz])] at h
      rcases List.mem_cons.mp h with rfl | h
      · exact .inl List.mem_cons_self
      · rw [List.find?_cons_of_neg (by simp [hz])]
        exact (ih h).imp_left (List.mem_cons_of_mem _)

end ReplaceFirst

/-! ## Entities of a schema, records of a registry -/

namespace Schema

theorem setEntity_eq (s : Schema) (C : String) (e : Entity) :
    (s.setEntity C e).entities = replaceFirst (·.name == C) (fun _ => e) s.entities := by
  have : ∀ l, setEntity.go C e l = replaceFirst (·.name == C) (fun _ => e) l := by
    intro l
    induction l with
    | nil => rfl
    | cons x xs ih => simp only [setEntity.go, replaceFirst, ih]
  exact this s.entities

theorem name_of_entity? {s : Schema} {C : String} {e : Entity} (h : s.entity? C = some e) :
    e.name = C := by
  simpa using List.find?_some h

theorem mem_of_entity? {s : Schema} {C : String} {e : Entity} (h : s.entity? C = some e) :
    e ∈ s.entities :=
  List.mem_of_find?_eq_some h

theorem class_of_entity? {s : Schema} {C : String} {e : Entity} (h : s.entity? C = some e) :
    C ∈ s.entities.map (·.name) :=
  List.mem_map.mpr ⟨e, mem_of_entity? h, name_of_entity? h⟩

theorem entity?_setEntity {s : Schema} {C : String} {e e' : Entity} (h : s.entity? C = some e)
    (hn : e'.name = e.name) : (s.setEntity C e').entity? C = some e' := by
  rw [entity?, setEntity_eq]
  exact find?_replaceFirst h (by simp [hn, name_of_entity? h])

theorem entity?_setEntity_ne {s : Schema} {C D : String} {e' : Entity} (hn : e'.name = C)
    (hne : C ≠ D) : (s.setEntity C e').entity? D = s.entity? D := by
  rw [entity?, setEntity_eq]
  refine find?_replaceFirst_ne _ (fun x hx => ?_) (fun x _ => by simp [hn, hne])
  simp only [beq_iff_eq] at hx
  simp [hx, hne]

theorem names_setEntity {s : Schema} {C : String} {e e' : Entity} (h : s.entity? C = some e)
    (hn : e'.name = e.name) :
    (s.setEntity C e').entities.map (·.name) = s.entities.map (·.name) := by
  rw [setEntity_eq]
  refine map_replaceFirst _ _ fun x hx => ?_
  simp only [beq_iff_eq] at hx
  rw [hn, name_of_entity? h, hx]

end Schema

namespace Registry

theorem set_eq (g : Registry) (C : String) (c : ClassRecord) :
    (g.set C c).classes = replaceFirst (·.className == C) (fun _ => c) g.classes := by
  have : ∀ l, set.go C c l = replaceFirst (·.className == C) (fun _ => c) l := by
    intro l
    induction l with
    | nil => rfl
    | cons x xs ih => simp only [set.go, replaceFirst, ih]
  exact this g.classes

theorem className_of_class? {g : Registry} {C : String} {c : ClassRecord}
    (h : g.class? C = some c) : c.className = C := by
  simpa using List.find?_some h

theorem class?_set {g : Registry} {C : String} {c c' : ClassRecord} (h : g.class? C = some c)
    (hn : c'.className = c.className) : (g.set C c').class? C = some c' := by
  rw [class?, set_eq]
  exact find?_replaceFirst h (by simp [hn, className_of_class? h])

theorem names_set {g : Registry} {C : String} {c c' : ClassRecord} (h : g.class? C = some c)
    (hn : c'.className = c.className) :
    (g.set C c').classes.map (·.className) = g.classes.map (·.className) := by
  rw [set_eq]
  refine map_replaceFirst _ _ fun x hx => ?_
  simp only [beq_iff_eq] at hx
  rw [hn, className_of_class? h, hx]

/-- Of two records of one class the last one stays. -/
theorem set_set {g : Registry} {C : String} {c c' : ClassRecord} (hn : c.className = C) :
    (g.set C c).set C c' = g.set C c' := by
  have hclasses : ((g.set C c).set C c').classes = (g.set C c').classes := by
    rw [set_eq, set_eq, set_eq, replaceFirst_replaceFirst _ fun _ _ => by simp [hn]]
    rfl
  exact congrArg Registry.mk hclasses

theorem class?_set_ne {g : Registry} {C D : String} {c' : ClassRecord} (hn : c'.className = C)
    (hne : C ≠ D) : (g.set C c').class? D = g.class? D := by
  rw [class?, set_eq]
  refine find?_replaceFirst_ne _ (fun x hx => ?_) (fun x _ => by simp [hn, hne])
  simp only [beq_iff_eq] at hx
  simp [hx, hne]

end Registry

/-! ## Cores of fields -/

/-- What no build changes of a field: all but its marks and costs. -/
def Field.core (f : Field) : Field :=
  { f with used := false, loaded := false, cost := 0, notes := [] }

namespace Field

@[simp] theorem core_name (f : Field) : f.core.name = f.name := rfl

@[simp] theorem core_type (f : Field) : f.core.type = f.type := rfl

@[simp] theorem core_formula (f : Field) : f.core.formula = f.formula := rfl

@[simp] theorem core_block (f : Field) : f.core.block = f.block := rfl

@[simp] theorem core_key (f : Field) : f.core.key = f.key := rfl

@[simp] theorem core_core (f : Field) : f.core.core = f.core := rfl

end Field

namespace Entity

/-- The cores of the fields, in order. -/
def cores (e : Entity) : List Field := e.fields.map Field.core

theorem mem_cores {e : Entity} {f : Field} : f ∈ e.cores ↔ ∃ g ∈ e.fields, g.core = f :=
  List.mem_map

theorem core_mem_cores {e : Entity} {f : Field} (h : f ∈ e.fields) : f.core ∈ e.cores :=
  List.mem_map_of_mem h

theorem name_mem_names {e : Entity} {f : Field} (h : f ∈ e.fields) : f.name ∈ e.names :=
  List.mem_append_left _ (List.mem_map_of_mem h)

theorem name_mem_of_mem_cores {e : Entity} {f : Field} (h : f ∈ e.cores) : f.name ∈ e.names := by
  obtain ⟨g, hg, rfl⟩ := mem_cores.mp h
  have : g.name ∈ e.names := name_mem_names hg
  exact this

theorem map_name_cores (e : Entity) : e.cores.map (·.name) = e.fields.map (·.name) := by
  simp [cores, Function.comp_def]

/-! ## Marks -/

theorem modifyField_eq (e : Entity) (name : String) (change : Field → Field) :
    (e.modifyField name change).fields = replaceFirst (·.name == name) change e.fields := by
  have : ∀ l, modifyField.go name change l = replaceFirst (·.name == name) change l := by
    intro l
    induction l with
    | nil => rfl
    | cons x xs ih => simp only [modifyField.go, replaceFirst, ih]
  exact this e.fields

theorem cores_modifyField (e : Entity) (name : String) {change : Field → Field}
    (h : ∀ f, (change f).core = f.core) : (e.modifyField name change).cores = e.cores := by
  rw [cores, modifyField_eq]
  exact map_replaceFirst _ _ fun f _ => h f

/-! ## Moves -/

theorem firstToTail_perm {α : Type} (p : α → Bool) (l : List α) : (firstToTail p l).Perm l := by
  induction l with
  | nil => exact .refl _
  | cons x xs ih =>
    unfold firstToTail
    split
    · exact List.perm_append_singleton x xs
    · exact ih.cons x

theorem moveFieldToTail_perm (e : Entity) (name : String) :
    (e.moveFieldToTail name).fields.Perm e.fields :=
  firstToTail_perm _ _

theorem moveBlockToTail_fields_perm (e : Entity) (block : String) :
    (e.moveBlockToTail block).fields.Perm e.fields :=
  (List.perm_append_comm).trans (List.filter_append_perm _ _)

theorem moveBlockToTail_blocks_perm (e : Entity) (block : String) :
    (e.moveBlockToTail block).blocks.Perm e.blocks :=
  firstToTail_perm _ _

/-- Refilling the places of some elements puts the new ones beside all others. -/
theorem refill_perm_append (isMember : Field → Bool) :
    ∀ {l ms : List Field}, ms.length = (l.filter isMember).length →
      (refill isMember l ms).Perm (ms ++ l.filter fun x => !isMember x)
  | [], ms, h => by
      obtain rfl : ms = [] := List.eq_nil_of_length_eq_zero h
      exact .refl _
  | x :: xs, [], h => by
      have hnone : ∀ y ∈ x :: xs, isMember y = false := by
        intro y hy
        have := List.eq_nil_of_length_eq_zero h.symm
        simpa using List.filter_eq_nil_iff.mp this y hy
      have : (x :: xs).filter (fun x => !isMember x) = x :: xs :=
        List.filter_eq_self.mpr fun y hy => by rw [hnone y hy]; rfl
      rw [this]
      exact .refl _
  | x :: xs, m :: ms, h => by
      unfold refill
      cases hx : isMember x with
      | true =>
        rw [List.filter_cons_of_pos hx] at h
        rw [if_pos rfl, List.filter_cons_of_neg (by simp [hx])]
        exact (refill_perm_append isMember (Nat.succ.inj h)).cons m
      | false =>
        rw [List.filter_cons_of_neg (by simp [hx])] at h
        rw [if_neg Bool.false_ne_true, List.filter_cons_of_pos (by simp [hx])]
        exact ((refill_perm_append isMember h).cons x).trans List.perm_middle.symm

theorem sortBlock_perm (e : Entity) (block : String) :
    (e.sortBlock block).fields.Perm e.fields := by
  have hperm : ((e.members block).mergeSort keyLE).Perm (e.fields.filter (·.isIn block)) :=
    List.mergeSort_perm _ _
  exact (refill_perm_append _ hperm.length_eq).trans
    ((hperm.append_right _).trans (List.filter_append_perm _ _))

/-! ## Insertions -/

theorem insertBehind_perm (isMember : Field → Bool) (f : Field) :
    ∀ {l : List Field}, l.any isMember = true → (insertBehind isMember f l).Perm (l ++ [f])
  | x :: xs, h => by
      unfold insertBehind
      split
      · exact .cons x (List.perm_append_singleton f xs).symm
      · rename_i hx
        have : xs.any isMember = true := by
          cases hxs : xs.any isMember with
          | true => rfl
          | false => simp [hxs] at h hx; rw [hx] at h; exact absurd h (by simp)
        exact .cons x (insertBehind_perm isMember f this)

theorem insertMember_eq_ok {e e' : Entity} {block : String} {f : Field}
    (h : e.insertMember block f = .ok e') :
    e'.name = e.name ∧ e'.blocks = e.blocks ∧ e'.fields.Perm (e.fields ++ [asMember f block]) ∧
      e.fields.any (·.isIn block) = true := by
  unfold insertMember at h
  split at h
  · rename_i hany
    cases h
    exact ⟨rfl, rfl, insertBehind_perm _ _ hany, hany⟩
  · cases h

end Entity

/-! ## Final costs -/

theorem core_annotateField (o : Options) (isMain : Bool) (f : Field) :
    (o.annotateField isMain f).core = f.core := by
  unfold Options.annotateField
  split <;> rfl

end FeatureSynth
