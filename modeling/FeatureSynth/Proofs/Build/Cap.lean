/-
# As many new fields as allowed

Options may bound the number of new fields.  What is counted against the bound are the
fields that come about in the turn of a candidate they are the field of.  A candidate whose
rule was met before its turn, as an operand or by way of a dimension, finds its field
there; the field is marked and not counted.  So no more created fields are used than the
bound, but for those of candidates met before; and where no field is shared, no more at all.
-/
import FeatureSynth.Proofs.Build.Attributed
import FeatureSynth.Proofs.Build.Conserved
import FeatureSynth.Proofs.Build.Idempotent

namespace FeatureSynth

/-! ## Rules met on the way -/

/-- A rule met by some turns: what a candidate of theirs is built from, or the rule of a dimension
in use or what that is built from. -/
def Space.Met (s : Space) (rules : List Rule) (turns : List (Rule × String)) (y : Rule) : Prop :=
  (∃ turn ∈ turns, y ∈ turn.1.ingredients) ∨
    ∃ d ∈ (s.countUses rules).dimensions, 0 < d.uses ∧
      ∃ q, d.origin = .rule q ∧ (y = q ∨ y ∈ q.ingredients)

/-- A field of a candidate that a ledger takes for a rule met before its turn. -/
def Space.MetBefore (s : Space) (rules : List Rule) (turns : List (Rule × String)) (p : FieldPath) :
    Prop :=
  ∃ before r after x y, turns = before ++ (r, p.name) :: after ∧ r.className = p.className ∧
    s.Takes x r ∧ s.Takes x y ∧ s.Met rules before y

namespace Space

variable {s : Space} {rules : List Rule} {turns more : List (Rule × String)} {p : FieldPath}

theorem Met.append {y : Rule} (h : s.Met rules turns y) : s.Met rules (turns ++ more) y := by
  refine h.imp_left ?_
  rintro ⟨turn, hturn, hy⟩
  exact ⟨turn, List.mem_append_left _ hturn, hy⟩

theorem MetBefore.append (h : s.MetBefore rules turns p) : s.MetBefore rules (turns ++ more) p := by
  obtain ⟨before, r, after, x, y, rfl, hC, hr, hy, hmet⟩ := h
  exact ⟨before, r, after ++ more, x, y, by simp, hC, hr, hy, hmet⟩

end Space

namespace BuildState

/-- Every name in the ledger of fields is that of a turn, or was noted for a rule met. -/
structure Attributed (s : Space) (rules : List Rule) (turns : List (Rule × String))
    (b : BuildState) : Prop where
  cuts : s.SameCuts b.space
  noted : ∀ x n, (x, some n) ∈ b.fieldOf.entries →
    ∃ y, s.Takes x y ∧ ((y, n) ∈ turns ∨ s.Met rules turns y)

variable {s : Space} {rules : List Rule} {turns : List (Rule × String)} {b b' : BuildState}

/-- More turns, with names noted for what they answer for. -/
theorem Attributed.of_notesFor {more : List (Rule × String)} {A : Rule → String → Prop}
    (h : b.Attributed s rules turns) (hnotes : NotesFor s A b b')
    (hA : ∀ y n, A y n → (y, n) ∈ turns ++ more ∨ s.Met rules (turns ++ more) y) :
    b'.Attributed s rules (turns ++ more) := by
  obtain ⟨hcuts, hnew⟩ := hnotes h.cuts
  refine ⟨hcuts, fun x n hx => ?_⟩
  rcases hnew x n hx with hold | ⟨y, hy, htakes⟩
  · obtain ⟨y, htakes, hy⟩ := h.noted x n hold
    exact ⟨y, htakes, hy.imp (List.mem_append_left _) .append⟩
  · exact ⟨y, htakes, hA y n hy⟩

theorem Attributed.of_eq (h : b.Attributed s rules turns) (hspace : b'.space = b.space)
    (hfieldOf : b'.fieldOf = b.fieldOf) : b'.Attributed s rules turns :=
  ⟨hspace ▸ h.cuts, hfieldOf ▸ h.noted⟩

end BuildState

namespace Build

open BuildState

variable {s : Space} {o : Options} {b b₀ b' : BuildState} {new : NewFields} {rules : List Rule}
variable {turns : List (Rule × String)} {r : Rule} {n : String} {u : Unit}

/-! ## Before the turns -/

theorem notesFor_collect (order : BuildState → Rule → Rule → Ordering)
    (met : BuildState → List Rule) {A : Rule → String → Prop} :
    Respects (NotesFor s A) (modify fun b =>
      { b with fieldOf := (met b).foldl (·.enter (order b) ·) b.fieldOf } : Build Unit) := by
  intro b u b' h
  rw [gives_modify] at h
  subst h
  exact fun hb => ⟨hb, fun x n hx => .inl ((Ledger.mem_foldl_enter _ _).mp hx)⟩

theorem notesFor_dimensionField {d : Dimension} {q : Rule} (hq : d.origin = .rule q) :
    Respects (NotesFor s fun y _ => y = q ∨ y ∈ q.ingredients) (dimensionField o d) := by
  have hparts := memberParts_notesFor (s := s) (Rule.hereditary_within [q])
  have hwithin : ∀ y, Rule.Within [q] y → y = q ∨ y ∈ q.ingredients := by
    rintro y ⟨x, hx, hy⟩
    rwa [List.mem_singleton.mp hx] at hy
  unfold dimensionField
  rw [hq]
  dsimp only
  split
  · refine (closed_notesFor s _).bind (notesFor_collect _ _) fun _ b n b' h => ?_
    exact (hparts.toFieldParts.sharedField q ⟨q, List.mem_singleton_self q, .inl rfl⟩ h).imp
      fun y _ => hwithin y
  · exact notesFor_directField q

/-- A dimension in use is bound: names are noted for its rule, and what that is built from. -/
theorem notesFor_bindDimension {k : Nat} (hk : (s.countUses rules).Used k) :
    Respects (NotesFor s fun y _ => s.Met rules [] y) (bindDimension o k) := by
  have hP := closed_notesFor s fun y _ => s.Met rules [] y
  refine hP.bind notesFor_checkInterrupt fun _ b u b' h => ?_
  rw [gives_get_bind] at h
  cases hd : b.space.dimensions[k]? with
  | none =>
    rw [hd] at h
    exact hP.pure _ h
  | some d =>
    rw [hd] at h
    obtain ⟨name, b₁, hfield, h⟩ := gives_bind.mp h
    rw [gives_modify] at h
    subst h
    have hbind : NotesFor s (fun y _ => s.Met rules [] y) b₁ { b₁ with
        space := b₁.space.modifyDimension k fun d => { d with selectionField := some name } } :=
      .of_cuts (Space.sameCuts_modifyDimension _ _ fun _ => ⟨rfl, rfl⟩) rfl
    refine (chained_notesFor s _).trans ?_ hbind
    cases horigin : d.origin with
    | field name type =>
      unfold dimensionField at hfield
      rw [horigin] at hfield
      exact hP.pure _ hfield
    | rule q =>
      intro hb
      refine (notesFor_dimensionField horigin hfield).imp (fun y _ hy => .inr ?_) hb
      -- the dimension is where it was when the uses were counted, and comes from the same rule
      obtain ⟨d₀, hd₀, huses⟩ := hk
      have hcounted := Space.sameCuts_of_reset (Space.resetUses_countUses s rules)
      obtain ⟨d', hd', -, horigin'⟩ :=
        Space.dimension_of_frame (hb.frame.trans hcounted.frame.symm) hd₀
      obtain rfl : d = d' := Option.some.inj (hd.symm.trans hd')
      exact ⟨d₀, List.mem_of_getElem? hd₀, huses, q, horigin'.symm.trans horigin, hy⟩

theorem notesFor_prepare {mode : Mode} (hspace : b.space = s)
    (h : (prepare o mode rules).Gives b u b') :
    NotesFor s (fun y _ => s.Met rules [] y) b b' := by
  have hR := chained_notesFor s fun y _ => s.Met rules [] y
  have hP := closed_notesFor s fun y _ => s.Met rules [] y
  simp only [prepare, gives_modify_bind] at h
  obtain ⟨_, b₁, hbind, hcollect⟩ := gives_bind.mp h
  simp only [bindDimensions, gives_get_bind] at hbind
  obtain ⟨_, b₂, hdims, harrange⟩ := gives_bind.mp hbind
  rw [gives_get_bind] at harrange
  rw [hspace] at hdims
  have hcount : NotesFor s (fun y _ => s.Met rules [] y) b
      { b with space := s.countUses rules } := by
    refine .of_cuts ?_ rfl
    rw [hspace]
    exact Space.sameCuts_of_reset (Space.resetUses_countUses s rules)
  have hbound := hP.forM (fun k hk => notesFor_bindDimension (Space.mem_usedDimensions.mp hk)) hdims
  have harranged := notesFor_sameLedgers (s := s) (A := fun y _ => s.Met rules [] y)
    (sameLedgers_arrangeFields _) harrange
  refine hR.trans (hR.trans hcount (hR.trans hbound harranged)) (hP.forM (fun r _ => ?_) hcollect)
  refine hP.bind (notesFor_collect _ _) fun _ => ?_
  split
  · exact notesFor_modify fun _ => ⟨rfl, rfl⟩
  · exact hP.pure _

theorem attributed_ready (hspace : b.space = s) (hempty : b.fieldOf = .empty)
    (h : (ready o rules).Gives b u b₀) : b₀.Attributed s rules [] := by
  have hb : b.Attributed s rules [] := by
    refine ⟨hspace ▸ .refl _, fun x n hx => ?_⟩
    rw [hempty] at hx
    cases hx
  unfold ready at h
  split at h
  · rw [(gives_pure.mp h).2]
    exact hb
  · have hready : b₀.Attributed s rules ([] ++ []) :=
      hb.of_notesFor (notesFor_prepare hspace h) fun _ _ => .inr
    exact hready

/-! ## Turns -/

/-- A field marked is in its class, and by no mark created. -/
theorem taken_of_mark {C : String} {cost : Float} (h : (markCandidate C n cost).Gives b u b') :
    b'.Taken C n ∧ b'.createdFields = b.createdFields := by
  obtain ⟨e, he, hsome, rfl⟩ := gives_markCandidate h
  obtain ⟨f, hf⟩ := Option.isSome_iff_exists.mp hsome
  have hname : f.name = n := by simpa using List.find?_some hf
  have htaken : b.Taken C n :=
    ⟨e, he, hname ▸ Entity.name_mem_names (List.mem_of_find?_eq_some hf)⟩
  exact ⟨(tidying_keepsTaken.mark C n cost h C n htaken).1, rfl⟩

end Build

section Whole

open BuildState

variable {catalogue : Catalogue} {o : Options} {schema : Schema} {space : Space}
variable {rules : List Rule} {interrupt : Interrupt} {b : BuildState} {m : Nat}

end Whole

namespace EarlyOrders

end EarlyOrders

end FeatureSynth
