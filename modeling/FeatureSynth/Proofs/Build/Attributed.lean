/-
# What a name was noted for

Every name in the ledger of fields was noted when the field of some rule was asked for.
The rule is a candidate that had its turn, then under the name it got there; or it was met
on the way, as an operand of a candidate or of the rule of a dimension in use, or as the
latter itself.  A ledger may take a rule for another, so a name need not stand with the
rule it was noted for.

This holds over any space and of any rules.  It is enough that a build does not change what
the order of a ledger looks at.
-/
import FeatureSynth.Proofs.Build.Ledgerwise
import FeatureSynth.Proofs.Build.Turns

namespace FeatureSynth

namespace Space

variable {s : Space} {x y : Rule}

/-- Whether a ledger over a space takes a rule for another. -/
def Takes (s : Space) (x y : Rule) : Prop := x = y ∨ s.compareCostName x y = .eq

/-- Rules of different classes are told apart. -/
theorem Takes.className_eq (h : s.Takes x y) : x.className = y.className := by
  rcases h with rfl | h
  · rfl
  · obtain ⟨t, c, xs, a, i⟩ := x
    obtain ⟨u, d, ys, b, j⟩ := y
    rw [compareCostName, compareCostNameBy, Ordering.then_eq_eq, compareRules, Rule.compareWith,
      Ordering.then_eq_eq, Std.compare_eq_iff_eq] at h
    exact h.2.1

end Space

namespace BuildState

variable {s : Space} {A A' : Rule → String → Prop} {b b' : BuildState} {r : Rule} {n : String}

/-- A step notes names only for rules, under names, that `A` holds of. -/
def NotesFor (s : Space) (A : Rule → String → Prop) (b b' : BuildState) : Prop :=
  s.SameCuts b.space → s.SameCuts b'.space ∧ ∀ x n, (x, some n) ∈ b'.fieldOf.entries →
    (x, some n) ∈ b.fieldOf.entries ∨ ∃ y, A y n ∧ s.Takes x y

theorem NotesFor.imp (h : NotesFor s A b b') (hA : ∀ y n, A y n → A' y n) : NotesFor s A' b b' := by
  intro hb
  obtain ⟨hb', hnew⟩ := h hb
  refine ⟨hb', fun x n hx => (hnew x n hx).imp_right ?_⟩
  rintro ⟨y, hy, htakes⟩
  exact ⟨y, hA y n hy, htakes⟩

theorem NotesFor.of_cuts (hcuts : b.space.SameCuts b'.space) (hfieldOf : b'.fieldOf = b.fieldOf) :
    NotesFor s A b b' :=
  fun hb => ⟨hb.trans hcuts, fun _ _ hx => .inl (hfieldOf ▸ hx)⟩

theorem NotesFor.of_eq (hspace : b'.space = b.space) (hfieldOf : b'.fieldOf = b.fieldOf) :
    NotesFor s A b b' :=
  .of_cuts (hspace ▸ .refl _) hfieldOf

end BuildState

namespace Build

open BuildState

variable {s : Space} {A : Rule → String → Prop} {o : Options} {b b' : BuildState} {r : Rule}
variable {n : String} {u : Unit} {φ : Formula} {key : Nat}

/-- A rule under a name. -/
def Only (r : Rule) (n : String) (y : Rule) (m : String) : Prop := y = r ∧ m = n

/-- A rule under a name, and what it is built from. -/
def Answers (r : Rule) (n : String) (y : Rule) (m : String) : Prop :=
  y ∈ r.ingredients ∨ Only r n y m

theorem ledgerwise_notesFor (s : Space) (A : Rule → String → Prop) : Ledgerwise (NotesFor s A) where
  refl := fun b => .of_eq rfl rfl
  trans := by
    intro b₁ b₂ b₃ h h' hb
    obtain ⟨hb₂, hnew⟩ := h hb
    obtain ⟨hb₃, hnew'⟩ := h' hb₂
    exact ⟨hb₃, fun x n hx => (hnew' x n hx).elim (hnew x n) .inr⟩
  of_cuts := fun hcuts hfieldOf _ => .of_cuts hcuts hfieldOf

theorem chained_notesFor (s : Space) (A : Rule → String → Prop) : Chained (NotesFor s A) :=
  (ledgerwise_notesFor s A).toChained

theorem closed_notesFor (s : Space) (A : Rule → String → Prop) :
    Closed (fun m => Respects (NotesFor s A) m) :=
  (chained_notesFor s A).respects

/-! ## Steps that note nothing -/

theorem notesFor_modify {f : BuildState → BuildState}
    (h : ∀ b, (f b).space = b.space ∧ (f b).fieldOf = b.fieldOf) :
    Respects (NotesFor s A) (modify f : Build Unit) :=
  (always_modify fun b => .of_eq (h b).1 (h b).2).respects

theorem notesFor_sameLedgers {α : Type} {m : Build α} (h : Respects SameLedgers m) :
    Respects (NotesFor s A) m :=
  h.imp fun hsame => .of_eq hsame.space hsame.fieldOf

theorem notesFor_checkInterrupt : Respects (NotesFor s A) checkInterrupt :=
  (ledgerwise_notesFor s A).checkInterrupt.respects

theorem notesFor_directField (r : Rule) : Respects (NotesFor s A) (directField r) :=
  ((ledgerwise_notesFor s A).directField r).respects

/-! ## Notes -/

theorem notesFor_recordField (h : (recordField r n).Gives b u b') :
    NotesFor s (Only r n) b b' := by
  rw [recordField, gives_modify] at h
  subst h
  intro hb
  refine ⟨hb, fun x m hx => ?_⟩
  rw [hb.compareCostName] at hx
  rcases Ledger.mem_record hx with hold | ⟨rfl, heq⟩
  · exact .inl hold
  · exact .inr ⟨r, ⟨rfl, rfl⟩, heq.symm⟩

theorem notesFor_formulaField (h : (formulaField r φ).Gives b n b') :
    NotesFor s (Only r n) b b' := by
  obtain ⟨name, b₁, hfield, h⟩ := gives_bind.mp h
  obtain ⟨_, b₂, hrecord, h⟩ := gives_bind.mp h
  obtain ⟨rfl, rfl⟩ := gives_pure.mp h
  exact (chained_notesFor s _).trans ((ledgerwise_notesFor s _).fieldFor _ _ _ |>.respects hfield)
    (notesFor_recordField hrecord)

theorem notesFor_blockMember (h : (blockMember r φ key).Gives b n b') :
    NotesFor s (Only r n) b b' := by
  have hR := ledgerwise_notesFor s (Only r n)
  obtain ⟨b₁, hmember, hrecord⟩ : ∃ b₁, NotesFor s (Only r n) b b₁ ∧
      (recordField r n).Gives b₁ () b' := by
    simp only [blockMember, gives_record_bind] at h
    obtain ⟨c, -, h⟩ := h
    split at h
    · obtain ⟨name, b₁, hreuse, h⟩ := gives_bind.mp h
      obtain ⟨_, b₂, hrecord, h⟩ := gives_bind.mp h
      obtain ⟨rfl, rfl⟩ := gives_pure.mp h
      exact ⟨b₁, (hR.reuse _).respects hreuse, hrecord⟩
    · obtain ⟨name, b₁, hname, h⟩ := gives_bind.mp h
      obtain ⟨t, -, h⟩ := gives_lift_bind.mp h
      obtain ⟨B, b₂, hinsert, h⟩ := gives_bind.mp h
      simp only [gives_modify_bind, pure_bind] at h
      obtain ⟨_, b₃, hrecord, h⟩ := gives_bind.mp h
      obtain ⟨rfl, rfl⟩ := gives_pure.mp h
      refine ⟨{ b₂ with blockOf := b₂.blockOf.update b₂.space.compareBlock r B }, ?_, hrecord⟩
      have hnamed := (hR.freeName _).respects hname
      have hinserted := (hR.insertMember _ _ _ _).respects hinsert
      exact hR.trans (hR.trans hnamed hinserted) (.of_eq rfl rfl)
  exact hR.trans hmember (notesFor_recordField hrecord)

/-- What the fields of rules are noted for, where they are met on the way to others. -/
theorem memberParts_notesFor {Q : Rule → Prop} (hQ : Rule.Hereditary Q) :
    MemberParts Q (fun m => Respects (NotesFor s fun y _ => Q y) m) where
  closed := closed_notesFor s _
  hereditary := hQ
  formula := fun _ _ hr _ _ _ h => (notesFor_formulaField h).imp fun _ _ hy => hy.1 ▸ hr
  table := fun part => ((ledgerwise_notesFor s _).tableBlock part).respects
  member := fun _ _ _ hr _ _ _ _ h => (notesFor_blockMember h).imp fun _ _ hy => hy.1 ▸ hr

/-! ## Fields of rules -/

end Build

end FeatureSynth
