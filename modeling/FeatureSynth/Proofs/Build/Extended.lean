/-
# Fields and members behind the others

Where blocks are built, not every field is made at the tail: a member goes behind the last
one of its block.  But where nothing was derived before, that block is new itself, and the
member still stands behind all fields that were there.  So up to the final moves every class
is the one before with the created fields behind it, members among them.
-/
import FeatureSynth.Proofs.Build.Found
import FeatureSynth.Proofs.Build.Prolonged
import FeatureSynth.Proofs.Schema.Back

namespace FeatureSynth

namespace Entity

variable {e e' : Entity} {n B : String} {f : Field} {xs tail : List Field}

/-! ## Insertions behind a front -/

theorem insertBehind_append {p : Field → Bool} {l₁ l₂ : List Field} (h : ∀ x ∈ l₁, p x = false) :
    insertBehind p f (l₁ ++ l₂) = l₁ ++ insertBehind p f l₂ := by
  induction l₁ with
  | nil => rfl
  | cons x l₁ ih =>
    have hx := h x List.mem_cons_self
    rw [List.cons_append, insertBehind, if_neg (by simp [hx]),
      ih fun y hy => h y (List.mem_cons_of_mem _ hy), List.cons_append]

theorem map_core_insertBehind (B : String) (f : Field) (l : List Field) :
    (insertBehind (·.isIn B) f l).map Field.core =
      insertBehind (·.isIn B) f.core (l.map Field.core) := by
  induction l with
  | nil => rfl
  | cons x l ih =>
    have hany : (l.map Field.core).any (·.isIn B) = l.any (·.isIn B) := by
      rw [List.any_map]
      rfl
    have hx : x.core.isIn B = x.isIn B := rfl
    rw [insertBehind, List.map_cons, insertBehind, hany, hx]
    split
    · rfl
    · rw [List.map_cons, ih]

/-- A field that a class gains goes behind a front without members. -/
theorem GainsField.front (h : e.GainsField n e') (hcores : e.cores = xs ++ tail)
    (hplain : ∀ f ∈ xs, f.block = none) : ∃ tail', e'.cores = xs ++ tail' := by
  cases h with
  | derived t φ =>
    refine ⟨tail ++ [(Field.derived n t φ).core], ?_⟩
    rw [← List.append_assoc, ← hcores, cores, cores, insertField, List.map_append]
    rfl
  | @member B t key _ hinsert =>
    unfold insertMember at hinsert
    split at hinsert
    · cases hinsert
      refine ⟨insertBehind (·.isIn B) (asMember (.member n t "" key) B).core tail, ?_⟩
      rw [← insertBehind_append fun g hg => by simp [Field.isIn, hplain g hg], ← hcores]
      exact map_core_insertBehind B _ e.fields
    · cases hinsert

theorem GainsField.adds (h : e.GainsField n e') : ∃ f, f.name = n ∧ e.Adds f e' := by
  cases h with
  | derived t φ => exact ⟨.derived n t φ, rfl, adds_insertField e n t φ⟩
  | member hinsert => exact ⟨_, rfl, adds_insertMember hinsert⟩

/-- A field of a new name goes into the tail of a prolonged class. -/
theorem ProlongedBy.of_adds {e'' : Entity} {tail' : List Field} (h : e.ProlongedBy e' tail)
    (hadds : e'.Adds f e'') (hfresh : f.name ∉ e'.names) (hcores : e''.cores = e.cores ++ tail') :
    e.ProlongedBy e'' tail' ∧ ∀ n, n ∈ tail'.map (·.name) ↔ n ∈ tail.map (·.name) ∨ n = f.name := by
  have hnames : (e''.fields.map (·.name)).Perm (e'.fields.map (·.name) ++ [f.name]) := by
    simpa using hadds.fields.map (·.name)
  have hnodup : (e''.fields.map (·.name)).Nodup := by
    rw [hnames.nodup_iff]
    refine h.nodup.append (List.nodup_singleton _) fun m hm hm' => ?_
    rw [List.mem_singleton.mp hm'] at hm
    exact hfresh (List.mem_append_left _ hm)
  refine ⟨⟨hcores, hnodup⟩, fun n => ?_⟩
  have htail : (tail'.map (·.name)).Perm (tail.map (·.name) ++ [f.name]) := by
    rw [← map_name_cores, hcores, List.map_append, ← map_name_cores e', h.cores_eq,
      List.map_append, List.append_assoc] at hnames
    exact (List.perm_append_left_iff _).mp hnames
  simp [htail.mem_iff]

end Entity

namespace BuildState

/-- Every class is the one before with a tail that holds the created fields. -/
def Extends (b₀ b : BuildState) : Prop :=
  ∀ C e, b₀.schema.entity? C = some e → ∃ e' tail, b.schema.entity? C = some e' ∧
    e.ProlongedBy e' tail ∧ ∀ n, n ∈ tail.map (·.name) ↔ ⟨C, n⟩ ∈ b.createdFields

/-- A step keeps created fields behind the others, also where they are members. -/
def KeepsExtended (b₀ b b' : BuildState) : Prop := Extends b₀ b → Extends b₀ b'

variable {b₀ b b' : BuildState} {C : String} {e e' : Entity}

theorem Prolongs.extends (h : Prolongs b₀ b) : Extends b₀ b := fun C e he =>
  let ⟨e', tail, he', hprolonged, hcreated, _⟩ := h C e he
  ⟨e', tail, he', hprolonged, hcreated⟩

namespace Extends

theorem of_eq (h : Extends b₀ b) (hschema : b'.schema = b.schema)
    (hfields : b'.createdFields = b.createdFields) : Extends b₀ b' := by
  unfold Extends
  rw [hschema, hfields]
  exact h

/-- Marks and costs do not matter. -/
theorem of_cores (h : Extends b₀ b) (he : b.schema.entity? C = some e) (hname : e'.name = e.name)
    (hcores : e'.cores = e.cores) : Extends b₀ { b with schema := b.schema.setEntity C e' } := by
  intro D d₀ hd₀
  obtain ⟨d, tail, hd, hprolonged, hcreated⟩ := h D d₀ hd₀
  by_cases hD : C = D
  · subst hD
    obtain rfl : e = d := Option.some.inj (he.symm.trans hd)
    exact ⟨e', tail, Schema.entity?_setEntity he hname, hprolonged.of_cores hcores, hcreated⟩
  · exact ⟨d, tail, (Schema.entity?_setEntity_ne (hname.trans (Schema.name_of_entity? he)) hD).trans
      hd, hprolonged, hcreated⟩

theorem of_adds {f : Field} (h : Extends b₀ b) (he : b.schema.entity? C = some e)
    (hadds : e.Adds f e') (hfresh : f.name ∉ e.names)
    (hschema : b'.schema = b.schema.setEntity C e')
    (hfields : b'.createdFields = b.noted C f.name)
    (hfront : ∀ d tail, b₀.schema.entity? C = some d → e.cores = d.cores ++ tail →
      ∃ tail', e'.cores = d.cores ++ tail') : Extends b₀ b' := by
  intro D d₀ hd₀
  obtain ⟨d, tail, hd, hprolonged, hcreated⟩ := h D d₀ hd₀
  rw [hschema, hfields]
  by_cases hD : C = D
  · subst hD
    obtain rfl : e = d := Option.some.inj (he.symm.trans hd)
    obtain ⟨tail', hcores⟩ := hfront d₀ tail hd₀ hprolonged.cores_eq
    obtain ⟨hprolonged', hnames⟩ := hprolonged.of_adds hadds hfresh hcores
    refine ⟨e', tail', Schema.entity?_setEntity he hadds.name_eq, hprolonged', fun n => ?_⟩
    rw [mem_noted, hnames, hcreated]
    simp
  · refine ⟨d, tail, ?_, hprolonged, fun n => ?_⟩
    · rw [Schema.entity?_setEntity_ne (hadds.name_eq.trans (Schema.name_of_entity? he)) hD, hd]
    · rw [hcreated, mem_noted]
      refine (or_iff_left fun heq => hD ?_).symm
      exact (FieldPath.mk.inj heq).1.symm

/-- What is made goes into the tail, if nothing of the front is a member. -/
theorem of_makes (h : Extends b₀ b)
    (hplain : ∀ C e, b₀.schema.entity? C = some e → ∀ f ∈ e.fields, f.block = none)
    (hmakes : Makes b b') : Extends b₀ b' := by
  have hplain' : ∀ C e, b₀.schema.entity? C = some e → ∀ f ∈ e.cores, f.block = none := by
    intro C e he f hf
    obtain ⟨g, hg, rfl⟩ := Entity.mem_cores.mp hf
    exact hplain C e he g hg
  cases hmakes with
  | @field C stem e e' entity draws gains schema fields blocks =>
    obtain ⟨f, hf, hadds⟩ := gains.adds
    refine h.of_adds entity hadds (hf ▸ Entity.freeName_notMem e stem) schema (hf ▸ fields) ?_
    exact fun d tail hd hcores => gains.front hcores (hplain' C d hd)
  | @block C stem stem' e φ t key names entity draws drawsBlock schema fields blocks =>
    refine h.of_adds entity (e.adds_addBlock _ _ t key) (Entity.freeName_notMem e stem) schema
      fields fun d tail _ hcores =>
        ⟨tail ++ [(Entity.asMember (.member (e.freeName stem) t "" key) (e.freeName stem')).core], ?_⟩
    rw [← List.append_assoc, ← hcores]
    exact List.map_append

end Extends

theorem making_keepsExtended
    (hplain : ∀ C e, b₀.schema.entity? C = some e → ∀ f ∈ e.fields, f.block = none) :
    Build.Making (KeepsExtended b₀) where
  refl := fun _ => id
  trans := fun h h' => h' ∘ h
  still := fun hstill h => h.of_eq hstill.schema hstill.fields
  makes := fun hmakes h => h.of_makes hplain hmakes

end BuildState

namespace Build

open BuildState

variable {o : Options} {b₀ b₁ b b' : BuildState} {u : Unit} {C n : String} {new laid : NewFields}
variable {turns : List (Rule × String)}

theorem extends_mark {cost : Float} (hrun : (markCandidate C n cost).Gives b u b') :
    KeepsExtended b₀ b b' := by
  intro h
  obtain ⟨e, he, -, rfl⟩ := gives_markCandidate hrun
  exact h.of_cores he rfl (e.cores_modifyField n fun _ => rfl)

theorem Turns.extends (h : Turns o b₁ turns new b)
    (hplain : ∀ C e, b₀.schema.entity? C = some e → ∀ f ∈ e.fields, f.block = none)
    (hb : Extends b₀ b₁) : Extends b₀ b :=
  have hR := making_keepsExtended hplain
  h.respects hR.toChained (closed_checkInterrupt hR.blockParts.toParts)
    (fun r => hR.blockParts.members.candidateField (fun _ => hR.directField r) trivial)
    (fun _ _ _ _ _ _ hrun => extends_mark hrun) hb

theorem extends_markNew (h : Extends b₀ b) (hrun : (markNew new).Gives b laid b') :
    Extends b₀ b' :=
  closed_markNew (P := fun m => Respects (KeepsExtended b₀) m)
    (Chained.respects ⟨fun _ => id, fun h h' => h' ∘ h⟩)
    (fun _ _ _ _ _ _ hrun => extends_mark hrun) new hrun h

end Build

end FeatureSynth
