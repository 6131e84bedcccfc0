/-
# Schemas up to marks and costs

The core of a schema leaves out of every field what a build may mark: whether it is
used or loaded, and what it costs.  All else is there, and in its place: entities,
fields with their types, formulas, blocks and keys, and the declared blocks.

What makes a schema well formed is in its core, and so is where anything is found.
-/
import FeatureSynth.Proofs.Schema.WellFormed

namespace FeatureSynth

theorem map_replaceFirst_of_find? {α β : Type} {p : α → Bool} {change : α → α} (g : α → β) :
    ∀ {l : List α} {x : α}, l.find? p = some x → g (change x) = g x →
      (replaceFirst p change l).map g = l.map g
  | y :: ys, x, h, hx => by
      cases hy : p y with
      | true =>
        obtain rfl : y = x := by simpa [hy] using h
        simp [replaceFirst, hy, hx]
      | false =>
        simp only [List.find?_cons, hy] at h
        simp [replaceFirst, hy, map_replaceFirst_of_find? g h hx]

namespace Entity

/-- An entity up to marks and costs of its fields. -/
def core (e : Entity) : Entity := { e with fields := e.cores }

variable {e e' : Entity}

theorem cores_eq (h : e'.core = e.core) : e'.cores = e.cores := congrArg Entity.fields h

/-- A field is found under a name in one of two entities with one core if it is in the other. -/
theorem field?_of_core (h : e'.core = e.core) {n : String} {f : Field} (hf : e.field? n = some f) :
    ∃ f', e'.field? n = some f' ∧ f'.core = f.core := by
  have hfind : ∀ e : Entity, (e.field? n).map Field.core = e.cores.find? (·.name == n) := by
    intro e
    rw [cores, List.find?_map]
    rfl
  have hcore := hfind e'
  rw [cores_eq h, ← hfind e, hf, Option.map_some, Option.map_eq_some_iff] at hcore
  exact hcore

/-! ## Well-formedness -/

theorem positions_map {α β : Type} {p : β → Bool} {f : α → β} :
    ∀ (start : ℕ) (l : List α), positions p start (l.map f) = positions (p ∘ f) start l
  | _, [] => rfl
  | start, x :: xs => by
      rw [List.map_cons, positions, positions, positions_map (start + 1) xs]
      rfl

theorem standTogether_map {α β : Type} {p : β → Bool} {f : α → β} (l : List α) :
    standTogether p (l.map f) = standTogether (p ∘ f) l := by
  rw [standTogether, standTogether, positions_map]

theorem fault?_core (e : Entity) (classes : List String) :
    e.core.fault? classes = e.fault? classes := by
  have hnames : e.core.names = e.names := by
    rw [names, names]
    exact congrArg (· ++ _) e.map_name_cores
  have hmembers : ∀ B, e.core.members B = (e.members B).map Field.core := by
    intro B
    show (e.fields.map Field.core).filter (·.isIn B) = _
    rw [List.filter_map]
    rfl
  have hblock : ∀ B, e.core.blockFault? B = e.blockFault? B := by
    intro B
    have htogether : standTogether (·.isIn B.name) e.core.fields =
        standTogether (·.isIn B.name) e.fields := standTogether_map e.fields
    simp only [blockFault?, hmembers, htogether, List.filterMap_map, List.map_eq_nil_iff]
    rfl
  have hfields : ∀ {fault : Field → Option EntityFault}, (∀ f, fault f.core = fault f) →
      e.core.fields.findSome? fault = e.fields.findSome? fault := by
    intro fault hfault
    show (e.fields.map Field.core).findSome? fault = _
    rw [List.findSome?_map]
    exact congrArg (List.findSome? · e.fields) (funext hfault)
  rw [fault?, fault?, hnames, hfields fun _ => rfl, hfields fun _ => rfl, funext hblock]
  rfl

end Entity

namespace Schema

/-- A schema up to marks and costs of its fields. -/
def core (s : Schema) : Schema := ⟨s.entities.map Entity.core⟩

variable {s t : Schema}

theorem fault?_core (s : Schema) : s.core.fault? = s.fault? := by
  have hclasses : s.core.entities.map (·.name) = s.entities.map (·.name) := by
    rw [core, List.map_map]
    rfl
  have hentities : ∀ classes,
      s.core.entities.findSome? (fun e => (e.fault? classes).map (.entity e.name)) =
        s.entities.findSome? fun e => (e.fault? classes).map (SchemaFault.entity e.name) := by
    intro classes
    rw [core, List.findSome?_map]
    refine congrArg (List.findSome? · s.entities) (funext fun e => ?_)
    exact congrArg (Option.map _) (e.fault?_core classes)
  rw [fault?, fault?, hclasses, hentities]

/-- Schemas with one core are well formed together. -/
theorem compile_of_core (h : t.core = s.core) : t.compile = s.compile := by
  rw [compile, compile, ← fault?_core t, h, fault?_core]

/-- An entity is found under a name in one of two schemas with one core if it is in the other. -/
theorem entity?_of_core (h : t.core = s.core) {C : String} {e : Entity}
    (he : s.entity? C = some e) : ∃ e', t.entity? C = some e' ∧ e'.core = e.core := by
  have hfind : ∀ s : Schema,
      (s.entity? C).map Entity.core = s.core.entities.find? (·.name == C) := by
    intro s
    rw [core, List.find?_map]
    rfl
  have hcore := hfind t
  rw [h, ← hfind s, he, Option.map_some, Option.map_eq_some_iff] at hcore
  exact hcore

theorem core_setEntity {C : String} {e e' : Entity} (he : s.entity? C = some e)
    (h : e'.core = e.core) : (s.setEntity C e').core = s.core := by
  rw [core, setEntity_eq, core, map_replaceFirst_of_find? Entity.core he h]

theorem core_annotate (o : Options) (s : Schema) : (o.annotate s).core = s.core := by
  rw [core, core, Options.annotate, List.map_map]
  congr 1
  refine List.map_congr_left fun e _ => ?_
  simp only [Function.comp_apply, Entity.core, Entity.cores, List.map_map, Entity.mk.injEq,
    true_and, and_true]
  exact List.map_congr_left fun f _ => core_annotateField o _ f

end Schema

end FeatureSynth
