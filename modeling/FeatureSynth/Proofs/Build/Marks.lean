/-
# Fields and their marks

A class holds a field with some property.  Creation and moves keep that, whatever
the property; a mark keeps it as far as the property allows for the mark, and
gives a field that is used, loaded and has the cost asked for.
-/
import FeatureSynth.Proofs.Build.Steps

namespace FeatureSynth

namespace BuildState

/-- A class of the schema in work holds a field with a property. -/
def HasField (b : BuildState) (C : String) (P : Field → Prop) : Prop :=
  ∃ e, b.schema.entity? C = some e ∧ ∃ f ∈ e.fields, P f

/-- Every field of a class is there as it was. -/
def KeepsFields (b b' : BuildState) : Prop := ∀ C P, b.HasField C P → b'.HasField C P

theorem HasField.imp {b : BuildState} {C : String} {P Q : Field → Prop} (h : b.HasField C P)
    (hPQ : ∀ f, P f → Q f) : b.HasField C Q := by
  obtain ⟨e, he, f, hf, hP⟩ := h
  exact ⟨e, he, f, hf, hPQ f hP⟩

theorem KeepsFields.of_eq {b b' : BuildState} (h : b'.schema = b.schema) : KeepsFields b b' := by
  intro C P hP
  rwa [HasField, h]

end BuildState

namespace Build

open BuildState

theorem chained_keepsFields : Chained KeepsFields :=
  ⟨fun _ _ _ h => h, fun h h' C P hP => h' C P (h C P hP)⟩

theorem closed_keepsFields : Closed (fun m => Respects KeepsFields m) :=
  chained_keepsFields.respects

/-! ## Creation and moves -/

theorem keepsFields_edit {C : String} {change : Entity → Except BuildError Entity}
    (hchange : ∀ e e', change e = .ok e' → e'.name = e.name ∧ ∀ f ∈ e.fields, f ∈ e'.fields) :
    Respects KeepsFields (edit C change) := by
  intro b u b' h
  obtain ⟨e, e', he, hok, rfl⟩ := gives_edit.mp h
  obtain ⟨hname, hfields⟩ := hchange e e' hok
  rintro D P ⟨e₁, he₁, f, hf, hP⟩
  by_cases hD : C = D
  · subst hD
    obtain rfl : e = e₁ := Option.some.inj (he.symm.trans he₁)
    exact ⟨e', Schema.entity?_setEntity he hname, f, hfields f hf, hP⟩
  · refine ⟨e₁, ?_, f, hf, hP⟩
    exact (Schema.entity?_setEntity_ne (hname.trans (Schema.name_of_entity? he)) hD).trans he₁

theorem keepsFields_noteField (C name : String) : Respects KeepsFields (noteField C name) := by
  intro b u b' h
  exact .of_eq (mem_noteField (D := C) (n := name) h).2.1

theorem keepsFields_insertDerived (C : String) (f : Field) :
    Respects KeepsFields (insertDerived C f) := by
  have hregister : Respects KeepsFields (register C (·.registerDerived f)) := by
    intro b u b' h
    obtain ⟨c, c', -, -, rfl⟩ := gives_register.mp h
    exact .of_eq rfl
  refine closed_keepsFields.bind hregister fun _ => closed_keepsFields.bind
    (keepsFields_edit fun e e' hok => ?_) fun _ => closed_keepsFields.bind
      (keepsFields_noteField C _) fun _ => closed_keepsFields.pure _
  cases hok
  exact ⟨rfl, fun g hg => List.mem_append_left _ hg⟩

theorem keepsFields_freeName (C : String) (make : Naming) :
    Respects KeepsFields (freeName C make) := by
  intro b name b' h
  obtain ⟨_, _, _, -, -, -, rfl⟩ := gives_freeName.mp h
  exact .of_eq rfl

theorem keepsFields_fieldFor {C : String} {φ : Formula} {type : Except BuildError FieldType}
    {make : Naming} : Respects KeepsFields (fieldFor C φ type make) := by
  refine closed_keepsFields.bind (closed_keepsFields.record C) fun c => ?_
  split
  · exact closed_keepsFields.bind (always_modify fun _ => .of_eq rfl).respects fun _ =>
      closed_keepsFields.pure _
  · exact closed_keepsFields.bind (keepsFields_freeName C make) fun _ =>
      closed_keepsFields.bind (closed_keepsFields.lift _) fun _ => keepsFields_insertDerived C _

theorem keepsFields_arrangeFields (new : List FieldPath) :
    Respects KeepsFields (arrangeFields new) := by
  refine closed_arrangeFields closed_keepsFields (fun C name => keepsFields_edit fun e e' hok => ?_) new
  cases hok
  exact ⟨rfl, fun f hf => (e.moveFieldToTail_perm _).mem_iff.mpr hf⟩

/-! ## Marks -/

/-- A candidate's field: used, loaded, at some cost. -/
def IsMarked (name : String) (cost : Float) (f : Field) : Prop :=
  f.name = name ∧ f.used = true ∧ f.loaded = true ∧ f.cost = cost

/-- A field with the mark of a candidate. -/
def mark (cost : Float) (f : Field) : Field := { f with used := true, loaded := true, cost }

variable {b b' : BuildState} {C D name : String} {cost : Float} {u : Unit}

theorem gives_markCandidate (h : (markCandidate C name cost).Gives b u b') :
    ∃ e, b.schema.entity? C = some e ∧ (e.field? name).isSome = true ∧
      b' = { b with schema := b.schema.setEntity C (e.modifyField name (mark cost)) } := by
  obtain ⟨e, e', he, hok, rfl⟩ := gives_edit.mp h
  split at hok
  · rename_i hname
    cases hok
    exact ⟨e, he, hname, rfl⟩
  · cases hok

/-- The field of a candidate carries its mark. -/
theorem hasField_marked (h : (markCandidate C name cost).Gives b u b') :
    b'.HasField C (IsMarked name cost) := by
  obtain ⟨e, he, hname, rfl⟩ := gives_markCandidate h
  obtain ⟨f, hf⟩ := Option.isSome_iff_exists.mp hname
  refine ⟨_, Schema.entity?_setEntity he rfl, mark cost f, ?_, ?_⟩
  · rw [Entity.modifyField_eq]
    exact change_mem_replaceFirst hf
  · have hn : f.name = name := by simpa using List.find?_some hf
    exact ⟨hn, rfl, rfl, rfl⟩

/-- A mark keeps what holds of the marked field as well. -/
theorem hasField_of_mark {P : Field → Prop} (h : (markCandidate C name cost).Gives b u b')
    (hP : b.HasField D P) (hmark : ∀ f, C = D → f.name = name → P f → P (mark cost f)) :
    b'.HasField D P := by
  obtain ⟨e, he, hname, rfl⟩ := gives_markCandidate h
  obtain ⟨e₁, he₁, f, hf, hPf⟩ := hP
  by_cases hD : C = D
  · subst hD
    obtain rfl : e = e₁ := Option.some.inj (he.symm.trans he₁)
    refine ⟨_, Schema.entity?_setEntity he rfl, ?_⟩
    rw [Entity.modifyField_eq]
    rcases mem_replaceFirst_or (p := (·.name == name)) (mark cost) hf with hmem | hfirst
    · exact ⟨f, hmem, hPf⟩
    · have hn : f.name = name := by simpa using List.find?_some hfirst
      exact ⟨_, change_mem_replaceFirst hfirst, hmark f rfl hn hPf⟩
  · have hC : (e.modifyField name (mark cost)).name = C := by
      rw [← Schema.name_of_entity? he]
      rfl
    exact ⟨e₁, (Schema.entity?_setEntity_ne hC hD).trans he₁, f, hf, hPf⟩

end Build

end FeatureSynth
