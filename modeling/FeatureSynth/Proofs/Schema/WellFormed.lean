/-
# What a schema that compiles is known by

Of the checks of `Schema.compile` builds rely on the names: those of the entities
differ, and so do those of the fields and blocks of each.  What templates apply to
depends on the relations, which lead to entities of the schema.
-/
import FeatureSynth.Proofs.Schema.Edit
import FeatureSynth.Schema.WellFormed

namespace FeatureSynth

theorem firstRepeat_eq_none {α : Type} [DecidableEq α] :
    ∀ {before xs : List α}, firstRepeat before xs = none → xs.Nodup ∧ ∀ x ∈ xs, x ∉ before
  | _, [], _ => ⟨List.nodup_nil, by simp⟩
  | before, x :: xs, h => by
      rw [firstRepeat] at h
      split at h
      · cases h
      · rename_i hx
        obtain ⟨hnodup, hbefore⟩ := firstRepeat_eq_none h
        refine ⟨List.nodup_cons.mpr ⟨fun hmem => ?_, hnodup⟩, ?_⟩
        · exact hbefore x hmem List.mem_cons_self
        · intro y hy
          rcases List.mem_cons.mp hy with rfl | hy
          · exact hx
          · exact fun hmem => hbefore y hy (List.mem_cons_of_mem _ hmem)

/-- Where names differ an element is the first of its own. -/
theorem find?_of_nodup {α β : Type} [BEq β] [LawfulBEq β] (name : α → β) {l : List α}
    (h : (l.map name).Nodup) {x : α} (hx : x ∈ l) :
    (l.find? fun y => name y == name x) = some x := by
  obtain ⟨l₁, l₂, rfl⟩ := List.append_of_mem hx
  rw [List.find?_append, Option.or_eq_some_iff]
  refine .inr ⟨List.find?_eq_none.mpr fun y hy => ?_, by simp⟩
  rw [List.map_append, List.nodup_append] at h
  simpa using h.2.2 (name y) (List.mem_map_of_mem hy) (name x) (by simp)

namespace Schema

variable {s : Schema}

theorem fault?_of_compile (h : s.compile = .ok ()) : s.fault? = none := by
  rw [compile] at h
  split at h
  · assumption
  · cases h

theorem nodup_of_compile (h : s.compile = .ok ()) :
    (s.entities.map (·.name)).Nodup ∧ ∀ e ∈ s.entities, e.names.Nodup := by
  obtain ⟨hnames, hentities⟩ := Option.or_eq_none_iff.mp (fault?_of_compile h)
  refine ⟨(firstRepeat_eq_none (Option.map_eq_none_iff.mp hnames)).1, fun e he => ?_⟩
  have hentity := Option.map_eq_none_iff.mp (List.findSome?_eq_none_iff.mp hentities e he)
  exact (firstRepeat_eq_none (Option.map_eq_none_iff.mp (Option.or_eq_none_iff.mp hentity).1)).1

/-- Relations lead to entities of the schema. -/
theorem entity?_of_relation (h : s.compile = .ok ()) {e : Entity} (he : e ∈ s.entities) {f : Field}
    (hf : f ∈ e.fields) {c : String} (hc : f.type.class? = some c) :
    (s.entity? c).isSome = true := by
  obtain ⟨-, hentities⟩ := Option.or_eq_none_iff.mp (fault?_of_compile h)
  have hentity := Option.map_eq_none_iff.mp (List.findSome?_eq_none_iff.mp hentities e he)
  obtain ⟨hfields, -⟩ := Option.or_eq_none_iff.mp (Option.or_eq_none_iff.mp hentity).2
  have hfield := List.findSome?_eq_none_iff.mp hfields f hf
  simp only [Entity.fieldFault?, hc] at hfield
  split at hfield
  · rename_i hmem
    obtain ⟨x, hx, hname⟩ := List.mem_map.mp hmem
    exact List.find?_isSome.mpr ⟨x, hx, by simpa using hname⟩
  · cases hfield

end Schema

namespace Entity

variable {e : Entity} {f : Field}

/-- Where names differ a field is found under its own. -/
theorem field?_of_mem (h : e.names.Nodup) (hf : f ∈ e.fields) : e.field? f.name = some f :=
  find?_of_nodup Field.name (List.nodup_append.mp h).1 hf

theorem eq_of_name {g : Field} (h : e.names.Nodup) (hf : f ∈ e.fields) (hg : g ∈ e.fields)
    (hname : f.name = g.name) : f = g :=
  Option.some.inj ((field?_of_mem h hf).symm.trans (hname ▸ field?_of_mem h hg))

end Entity

end FeatureSynth
