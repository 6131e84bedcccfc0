/-
# Shared fields

With sharing the field of a rule is found through three tables: the ledger, which
goes by cost and structure, the records of the classes, which go by formulas, and
the fields that hold the values of dimensions.  `sharedName?` says which field that
is without the ledger: the one that the class of the rule knows by the template
over the shared fields of the rule operands.

The invariant `SharesRules` is that the ledger never says anything else.  It is
kept because all a name depends on only ever grows: a class keeps what it knows,
and the criterion of a part keeps its wording once its dimensions are bound.
-/
import FeatureSynth.Proofs.Build.Whole
import FeatureSynth.Proofs.Ledger
import FeatureSynth.Proofs.Rule.Alike
import FeatureSynth.Proofs.Space.Bound

namespace FeatureSynth

namespace BuildState

/-! ## Names without the ledger -/

/-- The field by which the record of a class of the schema in work knows a formula. -/
def knownField? (b : BuildState) (C : String) (φ : Formula) : Option String :=
  (b.schema.entity? C).bind fun _ => (b.registry.class? C).bind (·.field? φ)

mutual

/-- The field a rule shares. -/
def sharedName? (b : BuildState) : Rule → Option String
  | ⟨template, className, operands, _, _⟩ =>
    (sharedOperands? b operands).bind fun xs => b.knownField? className (template.formula xs)

/-- The operands of a rule over shared fields. -/
def sharedOperands? (b : BuildState) : List (RuleOperand Rule) → Option (List Operand)
  | [] => some []
  | .field name _ :: rest => (sharedOperands? b rest).map (.field name :: ·)
  | .rule inner :: rest =>
    (sharedName? b inner).bind fun name => (sharedOperands? b rest).map (.field name :: ·)
  | .part part :: rest =>
    (b.space.partFormula part).toOption.bind fun f =>
      (sharedOperands? b rest).map (.ofFormula f :: ·)

end

variable {b b' : BuildState}

theorem knownField?_eq_some {C : String} {φ : Formula} {n : String} :
    b.knownField? C φ = some n ↔ b.Knows C φ n := by
  simp only [knownField?, Knows, Option.bind_eq_some_iff]
  constructor
  · rintro ⟨e, he, c, hc, hn⟩
    exact ⟨e, c, he, hc, hn⟩
  · rintro ⟨e, c, he, hc, hn⟩
    exact ⟨e, he, c, hc, hn⟩

theorem knownField?_mono (h : Grew b b') {C : String} {φ : Formula} {n : String}
    (hn : b.knownField? C φ = some n) : b'.knownField? C φ = some n := by
  obtain ⟨added, blocks, h⟩ := h
  exact knownField?_eq_some.mpr (h.knows (knownField?_eq_some.mp hn))

mutual

/-- A shared field stays the shared field while classes get to know more and the criteria of the
parts stay as they are. -/
theorem sharedName?_mono (hg : Grew b b') : ∀ r : Rule,
    (∀ p ∈ r.parts, b'.space.partFormula p = b.space.partFormula p) →
      ∀ n, b.sharedName? r = some n → b'.sharedName? r = some n
  | ⟨t, c, operands, _, _⟩, hparts, n, h => by
      simp only [sharedName?, Option.bind_eq_some_iff] at h ⊢
      obtain ⟨xs, hxs, hn⟩ := h
      exact ⟨xs, sharedOperands?_mono hg operands hparts xs hxs, knownField?_mono hg hn⟩

theorem sharedOperands?_mono (hg : Grew b b') : ∀ operands : List (RuleOperand Rule),
    (∀ p ∈ Rule.partsList operands, b'.space.partFormula p = b.space.partFormula p) →
      ∀ xs, b.sharedOperands? operands = some xs → b'.sharedOperands? operands = some xs
  | [], _, xs, h => h
  | .field name type :: rest, hparts, xs, h => by
      simp only [sharedOperands?, Option.map_eq_some_iff] at h ⊢
      obtain ⟨ys, hys, rfl⟩ := h
      exact ⟨ys, sharedOperands?_mono hg rest hparts ys hys, rfl⟩
  | .rule inner :: rest, hparts, xs, h => by
      simp only [sharedOperands?, Option.bind_eq_some_iff, Option.map_eq_some_iff] at h ⊢
      obtain ⟨name, hname, ys, hys, rfl⟩ := h
      have hinner := fun p hp => hparts p (List.mem_append_left _ hp)
      have hrest := fun p hp => hparts p (List.mem_append_right _ hp)
      exact ⟨name, sharedName?_mono hg inner hinner name hname, ys,
        sharedOperands?_mono hg rest hrest ys hys, rfl⟩
  | .part part :: rest, hparts, xs, h => by
      simp only [sharedOperands?, Option.bind_eq_some_iff, Option.map_eq_some_iff] at h ⊢
      obtain ⟨f, hf, ys, hys, rfl⟩ := h
      have hrest := fun p hp => hparts p (List.mem_cons_of_mem _ hp)
      rw [hparts part List.mem_cons_self]
      exact ⟨f, hf, ys, sharedOperands?_mono hg rest hrest ys hys, rfl⟩

end

/-- Rules of one signature share one field. -/
theorem sharedName?_congr : ∀ r r' : Rule, r.signature = r'.signature →
    b.sharedName? r = b.sharedName? r' :=
  Rule.SameSignature.rules (Q := fun xs ys => b.sharedOperands? xs = b.sharedOperands? ys)
    { rule := fun t u c xs ys x y i j hname _ ih => by
        simp only [sharedName?, ih, Template.formula, hname]
      nil := rfl
      field := fun name type type' xs ys ih => by simp only [sharedOperands?, ih]
      nested := fun x y xs ys _ _ hx ih => by simp only [sharedOperands?, hx, ih]
      part := fun p xs ys ih => by simp only [sharedOperands?, ih] }

/-! ## The ledger -/

/-- Some rule of the ledger that its order does not tell from this one has a name. -/
def Named (b : BuildState) (r : Rule) : Prop := ∃ x n, (x, some n) ∈ b.fieldOf.entries ∧ x.Alike r

/-- What the ledger says of a rule: its shared field, for which everything it is made of is known. -/
structure Holds (b : BuildState) (r : Rule) (n : String) : Prop where
  bound : b.space.RuleBound r
  shared : b.sharedName? r = some n
  operands : ∀ inner, .rule inner ∈ r.operands → b.Named inner

/-- A state on the way from `b₀` in which the ledger names nothing but shared fields. -/
structure SharesRules (b₀ b : BuildState) : Prop where
  wellFounded : b.space.WellFounded
  grew : Grew b₀ b
  holds : ∀ r n, (r, some n) ∈ b.fieldOf.entries → b.Holds r n

theorem Holds.congr {x r : Rule} {n : String} (h : b.Holds x n) (halike : x.Alike r) :
    b.Holds r n where
  bound := by
    intro p hp
    rw [← Rule.parts_congr x r halike.signature] at hp
    exact h.bound p hp
  shared := (sharedName?_congr x r halike.signature).symm.trans h.shared
  operands := by
    intro inner hinner
    obtain ⟨y, hy, hinnery⟩ := halike.symm.exists_operand hinner
    obtain ⟨z, m, hz, hzy⟩ := h.operands y hy
    exact ⟨z, m, hz, hzy.trans hinnery.symm⟩

theorem Holds.mono {r : Rule} {n : String} (h : b.Holds r n) (hg : Grew b b')
    (hs : b.space.Binds b'.space) (hnamed : ∀ x, b.Named x → b'.Named x) : b'.Holds r n where
  bound := hs.ruleBound h.bound
  shared := sharedName?_mono hg r (fun p hp => Space.partFormula_bound hs (h.bound p hp)) n h.shared
  operands := fun inner hinner => hnamed inner (h.operands inner hinner)

namespace SharesRules

variable {b₀ : BuildState}

/-- A step that names no rule. -/
theorem keep (h : SharesRules b₀ b) (hg : Grew b b') (hs : b.space.Binds b'.space)
    (hentries : ∀ r n, (r, some n) ∈ b'.fieldOf.entries ↔ (r, some n) ∈ b.fieldOf.entries) :
    SharesRules b₀ b' where
  wellFounded := h.wellFounded.of_frame hs.frame
  grew := h.grew.trans hg
  holds := by
    intro r n hr
    refine (h.holds r n ((hentries r n).mp hr)).mono hg hs ?_
    rintro x ⟨y, m, hy, halike⟩
    exact ⟨y, m, (hentries y m).mpr hy, halike⟩

/-- What the ledger answers is the shared field. -/
theorem holds_of_fieldOf? (h : SharesRules b₀ b) {r : Rule} {n : String}
    (hn : b.fieldOf? r = some n) : b.Holds r n ∧ b.Named r := by
  obtain ⟨x, hx, heq⟩ := Ledger.of_name? hn
  have halike := (Space.compareCostName_eq_iff h.wellFounded).mp heq
  exact ⟨(h.holds x n hx).congr halike, x, n, hx, halike⟩

end SharesRules

/-- From a state in which the ledger names shared fields to another, over the same space. -/
structure Shares (b₀ b b' : BuildState) : Prop where
  space : b'.space = b.space
  grew : Grew b b'
  sound : SharesRules b₀ b'
  named : ∀ x, b.Named x → b'.Named x

namespace Shares

variable {b₀ b'' : BuildState} {r : Rule} {n : String}

protected theorem trans (h : Shares b₀ b b') (h' : Shares b₀ b' b'') : Shares b₀ b b'' :=
  ⟨h'.space.trans h.space, h.grew.trans h'.grew, h'.sound, fun x hx => h'.named x (h.named x hx)⟩

theorem holds (h : Shares b₀ b b') (hr : b.Holds r n) : b'.Holds r n :=
  hr.mono h.grew (by rw [h.space]; exact .refl _) h.named

theorem ruleBound (h : Shares b₀ b b') (hr : b.space.RuleBound r) : b'.space.RuleBound r := by
  rw [h.space]
  exact hr

theorem sharedOperands? (h : Shares b₀ b b') {operands : List (RuleOperand Rule)}
    {xs : List Operand} (hxs : b.sharedOperands? operands = some xs) :
    b'.sharedOperands? operands = some xs :=
  sharedOperands?_mono h.grew operands (fun _ _ => by rw [h.space]) xs hxs

end Shares

end BuildState

namespace Build

open BuildState

variable {b₀ b b' : BuildState} {r : Rule} {n : String}

/-! ## One field -/

theorem shares_of_same (h : SharesRules b₀ b) (hg : Grew b b') (hsame : SameLedgers b b') :
    Shares b₀ b b' where
  space := hsame.space
  grew := hg
  sound := h.keep hg (by rw [hsame.space]; exact .refl _) fun r n => by rw [hsame.fieldOf]
  named := by
    rintro x ⟨y, m, hy, halike⟩
    exact ⟨y, m, hsame.fieldOf ▸ hy, halike⟩

/-- A note of the shared field of a rule. -/
theorem shares_recordField {u : Unit} (h : SharesRules b₀ b) (hr : b.Holds r n)
    (hrun : (recordField r n).Gives b u b') : Shares b₀ b b' ∧ b'.Holds r n ∧ b'.Named r := by
  rw [recordField, gives_modify] at hrun
  subst hrun
  have hg : Grew b { b with fieldOf := b.fieldOf.record b.space.compareCostName r n } :=
    .of_eq rfl rfl rfl
  have halike : ∀ x, (b.space.compareCostName x r = .eq ∨ x = r) → x.Alike r := by
    rintro x (heq | rfl)
    · exact (Space.compareCostName_eq_iff h.wellFounded).mp heq
    · exact .refl x
  have hnamed : ∀ x, b.Named x →
      Named { b with fieldOf := b.fieldOf.record b.space.compareCostName r n } x := by
    rintro x ⟨y, m, hy, hyx⟩
    obtain ⟨m', hm'⟩ := Ledger.record_keeps hy
    exact ⟨y, m', hm', hyx⟩
  have hholds := hr.mono hg (.refl _) hnamed
  refine ⟨⟨rfl, hg, ⟨h.wellFounded, h.grew.trans hg, fun x m hx => ?_⟩, hnamed⟩, hholds, ?_⟩
  · rcases Ledger.mem_record hx with hold | ⟨rfl, heq⟩
    · exact (h.holds x m hold).mono hg (.refl _) hnamed
    · exact hholds.congr (halike x heq).symm
  · obtain ⟨x, hx, heq⟩ := Ledger.record_names b.space.compareCostName b.fieldOf r n
    exact ⟨x, n, hx, halike x heq⟩

/-- The field asked for by its formula is the one its class knows by it. -/
theorem knownField?_fieldFor (h₀ : b₀.Untouched) (hg₀ : Grew b₀ b) {C : String} {φ : Formula}
    {type : Except BuildError FieldType} {make : Naming}
    (h : (fieldFor C φ type make).Gives b n b') : b'.knownField? C φ = some n := by
  obtain ⟨-, c, hc, hcases⟩ := fieldFor_cases h
  obtain ⟨added, blocks, hg₀⟩ := hg₀
  obtain ⟨-, -, e, -, -, he, -⟩ := hg₀.class_of_untouched h₀ hc
  rw [knownField?_eq_some]
  rcases hcases with ⟨hn, rfl⟩ | ⟨-, t, -, hg⟩
  · exact ⟨e, c, he, hc, hn⟩
  · obtain ⟨e', c', he', hc', hclass⟩ := hg.grows C e c he hc
    refine ⟨e', c', he', hc', hclass.lookup_added (a := ⟨(Field.derived n t φ).core, (φ, none)⟩) ?_⟩
    simp [only]

/-- The field of a rule whose operands are known. -/
theorem shares_formulaField (h₀ : b₀.Untouched) (h : SharesRules b₀ b) {xs : List Operand}
    (hbound : b.space.RuleBound r) (hxs : b.sharedOperands? r.operands = some xs)
    (hoperands : ∀ inner, .rule inner ∈ r.operands → b.Named inner)
    (hrun : (formulaField r (r.template.formula xs)).Gives b n b') :
    Shares b₀ b b' ∧ b'.Holds r n ∧ b'.Named r := by
  obtain ⟨name, b₁, hfield, hrun⟩ := gives_bind.mp hrun
  obtain ⟨_, b₂, hrecord, hpure⟩ := gives_bind.mp hrun
  obtain ⟨rfl, rfl⟩ := gives_pure.mp hpure
  have hshares := shares_of_same h (grew_fieldFor hfield) (fieldFor_cases hfield).1
  have hholds : b₁.Holds r n :=
    { bound := hshares.ruleBound hbound
      shared := by
        obtain ⟨template, className, operands, cost, tieBreak⟩ := r
        rw [sharedName?, hshares.sharedOperands? hxs]
        exact knownField?_fieldFor h₀ h.grew hfield
      operands := fun inner hinner => hshares.named inner (hoperands inner hinner) }
  obtain ⟨hshares', hrest⟩ := shares_recordField hshares.sound hholds hrecord
  exact ⟨hshares.trans hshares', hrest⟩

mutual

/-- The field of a rule cut along bound dimensions is its shared field. -/
theorem shares_sharedField (h₀ : b₀.Untouched) : ∀ (r : Rule) (b b' : BuildState) (n : String),
    SharesRules b₀ b → b.space.RuleBound r → (sharedField r).Gives b n b' →
      Shares b₀ b b' ∧ b'.Holds r n ∧ b'.Named r
  | ⟨template, className, operands, cost, tieBreak⟩, b, b', n, h, hbound, hrun => by
      rw [sharedField, gives_get_bind] at hrun
      split at hrun
      · rename_i name hname
        obtain ⟨rfl, rfl⟩ := gives_pure.mp hrun
        exact ⟨shares_of_same h (.refl _) (.refl _), h.holds_of_fieldOf? hname⟩
      · obtain ⟨xs, b₁, hxs, hrun⟩ := gives_bind.mp hrun
        obtain ⟨hshares, hxs, hoperands⟩ :=
          shares_sharedOperands h₀ operands b b₁ xs h hbound hxs
        obtain ⟨hshares', hrest⟩ := shares_formulaField h₀ hshares.sound
          (hshares.ruleBound hbound) hxs hoperands hrun
        exact ⟨hshares.trans hshares', hrest⟩

theorem shares_sharedOperands (h₀ : b₀.Untouched) :
    ∀ (operands : List (RuleOperand Rule)) (b b' : BuildState) (xs : List Operand),
      SharesRules b₀ b → (∀ p ∈ Rule.partsList operands, b.space.PartBound p) →
      (sharedOperands operands).Gives b xs b' →
        Shares b₀ b b' ∧ b'.sharedOperands? operands = some xs ∧
          ∀ inner, .rule inner ∈ operands → b'.Named inner
  | [], b, b', xs, h, _, hrun => by
      rw [sharedOperands, gives_pure] at hrun
      obtain ⟨rfl, rfl⟩ := hrun
      exact ⟨shares_of_same h (.refl _) (.refl _), rfl, by simp⟩
  | .field name type :: rest, b, b', xs, h, hbound, hrun => by
      rw [sharedOperands, gives_bind] at hrun
      obtain ⟨ys, b₁, hrest, hpure⟩ := hrun
      obtain ⟨rfl, rfl⟩ := gives_pure.mp hpure
      obtain ⟨hshares, hys, hnamed⟩ := shares_sharedOperands h₀ rest b b' ys h hbound hrest
      refine ⟨hshares, by rw [sharedOperands?, hys]; rfl, fun inner hinner => hnamed inner ?_⟩
      simpa using hinner
  | .rule inner :: rest, b, b', xs, h, hbound, hrun => by
      rw [sharedOperands, gives_bind] at hrun
      obtain ⟨name, b₁, hfield, hrun⟩ := hrun
      obtain ⟨ys, b₂, hrest, hpure⟩ := gives_bind.mp hrun
      obtain ⟨rfl, rfl⟩ := gives_pure.mp hpure
      obtain ⟨hshares, hholds, hinner⟩ := shares_sharedField h₀ inner b b₁ name h
        (fun p hp => hbound p (List.mem_append_left _ hp)) hfield
      obtain ⟨hshares', hys, hnamed⟩ := shares_sharedOperands h₀ rest b₁ b' ys hshares.sound
        (fun p hp => by rw [hshares.space]; exact hbound p (List.mem_append_right _ hp)) hrest
      refine ⟨hshares.trans hshares', ?_, fun x hx => ?_⟩
      · rw [sharedOperands?, (hshares'.holds hholds).shared, hys]
        rfl
      · rcases List.mem_cons.mp hx with heq | hx
        · cases heq
          exact hshares'.named _ hinner
        · exact hnamed x hx
  | .part part :: rest, b, b', xs, h, hbound, hrun => by
      rw [sharedOperands, gives_get_bind, gives_lift_bind] at hrun
      obtain ⟨f, hf, hrun⟩ := hrun
      obtain ⟨ys, b₁, hrest, hpure⟩ := gives_bind.mp hrun
      obtain ⟨rfl, rfl⟩ := gives_pure.mp hpure
      obtain ⟨hshares, hys, hnamed⟩ := shares_sharedOperands h₀ rest b b' ys h
        (fun p hp => hbound p (List.mem_cons_of_mem _ hp)) hrest
      refine ⟨hshares, ?_, fun inner hinner => hnamed inner ?_⟩
      · rw [sharedOperands?, hshares.space, hf, hys]
        rfl
      · simpa using hinner

end

end Build

end FeatureSynth
