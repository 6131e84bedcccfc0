/-
# Checked rules get their fields

A rule is feasible if it is checked, over the default catalogue and fields of the schema, and
the analysis has located the parts it names.  In a steady state every feasible rule gets its
field, directly or over shared fields, and nothing on the way can fail.

A member of a block takes more.  The formula of a block of parts refers to the fields of the
dimensions, so these have to be bound.  The descriptor of the partition is made first, and
keys are read off it; the block of parts follows, then the fields of the other operands, and
the member last.
-/
import FeatureSynth.Proofs.Build.Steady

namespace FeatureSynth

/-- A checked rule over fields of a schema, the parts of which are located. -/
structure Rule.Feasible (s : Space) (schema : Schema) (r : Rule) : Prop
    extends r.Grounded s schema where
  located : r.PartsIn s.Located

namespace Space

/-- The dimensions that a part is cut along are bound to fields. -/
def AxesBound (s : Space) (part : Part) : Prop :=
  ∀ p, s.partitions[part.partition]? = some p → ∀ a ∈ p.axes, ∃ x, s.BoundTo a x

variable {s s' : Space} {part : Part}

theorem Settles.located (h : Settles s s') (hpart : s.Located part) : s'.Located part :=
  hpart.of_sameLevels (.of_settles h)

theorem Settles.axesBound (h : Settles s s') (hpart : s.AxesBound part) : s'.AxesBound part := by
  intro p' hp' a ha
  have hlt : part.partition < s.partitions.length :=
    h.length ▸ (List.getElem?_eq_some_iff.mp hp').1
  obtain ⟨p₁, hp₁, hsettles⟩ := h.partition _ _ (List.getElem?_eq_getElem hlt)
  obtain rfl : p' = p₁ := Option.some.inj (hp'.symm.trans hp₁)
  obtain ⟨x, d, name, hd, hname, hx⟩ :=
    hpart _ (List.getElem?_eq_getElem hlt) a (hsettles.axes ▸ ha)
  exact ⟨x, d, name, by rw [h.dimensions]; exact hd, hname, hx⟩

/-- A block of parts has a formula once the partition has a descriptor and its dimensions are
bound. -/
theorem exists_tableBlockFormula {rank : Nat} {p : Partition} {P : String}
    (hp : s.partitions[rank]? = some p) (hP : p.descriptorField = some P)
    (hbound : ∀ a ∈ p.axes, ∃ x, s.BoundTo a x) : ∃ φ, s.tableBlockFormula rank = .ok φ := by
  unfold tableBlockFormula
  simp only [hp, hP]
  refine exists_mapM_bind (fun a ha => ?_) fun fields => ⟨_, rfl⟩
  obtain ⟨x, d, name, hd, hname, -⟩ := hbound a ha
  exact ⟨.field name, by rw [hd, Option.bind_some, hname]⟩

end Space

namespace Rule.Feasible

variable {s s' : Space} {schema : Schema} {r inner : Rule}

theorem operand (h : r.Feasible s schema) (hinner : .rule inner ∈ r.operands) :
    inner.Feasible s schema :=
  ⟨h.toGrounded.operand hinner, h.located.operand hinner⟩

theorem settles (h : r.Feasible s schema) (hs : s.Settles s') : r.Feasible s' schema :=
  ⟨h.toGrounded.of_sameCuts hs.sameCuts, fun part hpart => hs.located (h.located part hpart)⟩

end Rule.Feasible

/-- A feasible rule, the parts of which are cut along bound dimensions. -/
structure Rule.Blockable (s : Space) (schema : Schema) (r : Rule) : Prop
    extends r.Feasible s schema where
  bound : r.PartsIn s.AxesBound

namespace Rule.Blockable

variable {s s' : Space} {schema : Schema} {r inner : Rule}

theorem operand (h : r.Blockable s schema) (hinner : .rule inner ∈ r.operands) :
    inner.Blockable s schema :=
  ⟨h.toFeasible.operand hinner, h.bound.operand hinner⟩

theorem settles (h : r.Blockable s schema) (hs : s.Settles s') : r.Blockable s' schema :=
  ⟨h.toFeasible.settles hs, fun part hpart => hs.axesBound (h.bound part hpart)⟩

end Rule.Blockable

namespace BuildState

variable {b : BuildState} {C n : String} {φ : Formula} {key : Nat}

theorem Linked.hasCore_of_knows (h : Linked b) (hn : b.Knows C φ n) :
    b.HasCore C (·.name = n) := by
  obtain ⟨e, c, he, hc, hn⟩ := hn
  obtain ⟨f, hf, hname, -⟩ := (h.indexes C e c he hc).derived φ n hn
  exact ⟨e, c, he, hc, f, hf, hname⟩

theorem Linked.hasCore_of_knowsMember (h : Linked b) (hn : b.KnowsMember C φ key n) :
    b.HasCore C (·.name = n) := by
  obtain ⟨e, c, he, hc, hn⟩ := hn
  obtain ⟨-, f, hf, B, hname, -⟩ := (h.indexes C e c he hc).member φ key n hn
  exact ⟨e, c, he, hc, f, hf, hname⟩

end BuildState

namespace Build

open BuildState

variable {schema : Schema} {b : BuildState} {r : Rule}

/-- A step that realizes a rule gives a field of the rule's class, in a steady state. -/
def Realizes (schema : Schema) (b : BuildState) (r : Rule) (n : String) (b' : BuildState) : Prop :=
  Proceeds schema b b' ∧ b'.HasCore r.className (·.name = n)

theorem Realizes.after {b₁ b' : BuildState} {n : String} (hp : Proceeds schema b b₁)
    (h : Realizes schema b₁ r n b') : Realizes schema b r n b' :=
  ⟨hp.trans h.1, h.2⟩

theorem realizes_known (h : b.Steady schema) {n : String} (hn : b.fieldOf? r = some n) :
    Realizes schema b r n b :=
  ⟨h.refl, h.hasCore_of_fieldOf? hn⟩

theorem ensures_recordField (h : b.Steady schema) {n : String}
    (hn : b.HasCore r.className (·.name = n)) :
    (do recordField r n; return n : Build String).Ensures b (Realizes schema b r) :=
  .change_bind rfl (.ret ⟨h.record hn, hn⟩)

/-! ## Fields -/

theorem ensures_formulaField (h : b.Steady schema) (hr : r.Feasible b.space schema) (φ : Formula) :
    (formulaField r φ).Ensures b (Realizes schema b r) := by
  obtain ⟨t, htype, hclass⟩ := hr.exists_resultType h.start
  refine .bind_of (ensures_fieldFor h hr.className_mem htype hclass
    (exists_ofRule b.names h.dimensions hr.toGrounded hr.located false))
    fun n b₁ _ ⟨hp, hsame, hknows⟩ => ?_
  exact (ensures_recordField hp.steady (hp.steady.linked.hasCore_of_knows hknows)).mono
    fun _ _ _ hn => hn.after hp

mutual

/-- A feasible rule gets a field over shared fields. -/
theorem ensures_sharedField : ∀ (r : Rule) {b : BuildState}, b.Steady schema →
    r.Feasible b.space schema → (sharedField r).Ensures b (Realizes schema b r)
  | ⟨template, className, operands, cost, tieBreak⟩, b, h, hr => by
      unfold sharedField
      refine .get_bind ?_
      split
      · exact .ret (realizes_known h ‹_›)
      · refine .bind_of (ensures_sharedOperands operands h (fun inner => hr.operand)
          fun part hpart => hr.located.part hpart) fun xs b₁ _ hp => ?_
        exact (ensures_formulaField hp.steady (hr.settles hp.settles) _).mono
          fun _ _ _ hn => hn.after hp

theorem ensures_sharedOperands : ∀ (xs : List (RuleOperand Rule)) {b : BuildState},
    b.Steady schema → (∀ inner, .rule inner ∈ xs → inner.Feasible b.space schema) →
      (∀ part, .part part ∈ xs → b.space.Located part) →
        (sharedOperands xs).Ensures b fun _ => Proceeds schema b
  | [], b, h, _, _ => by
      unfold sharedOperands
      exact .ret h.refl
  | .field name type :: rest, b, h, hrules, hparts => by
      unfold sharedOperands
      exact .bind_of (ensures_sharedOperands rest h
        (fun inner hinner => hrules inner (List.mem_cons_of_mem _ hinner))
        fun part hpart => hparts part (List.mem_cons_of_mem _ hpart)) fun _ _ _ hp => .ret hp
  | .rule inner :: rest, b, h, hrules, hparts => by
      unfold sharedOperands
      refine .bind_of (ensures_sharedField inner h (hrules inner List.mem_cons_self))
        fun name b₁ _ ⟨hp, _⟩ => ?_
      exact .bind_of (ensures_sharedOperands rest hp.steady
        (fun x hx => (hrules x (List.mem_cons_of_mem _ hx)).settles hp.settles)
        fun part hpart => hp.settles.located (hparts part (List.mem_cons_of_mem _ hpart)))
        fun _ _ _ hp' => .ret (hp.trans hp')
  | .part part :: rest, b, h, hrules, hparts => by
      unfold sharedOperands
      obtain ⟨φ, hφ⟩ := (hparts part List.mem_cons_self).exists_partFormula
      refine .get_bind (.lift_bind hφ ?_)
      exact .bind_of (ensures_sharedOperands rest h
        (fun inner hinner => hrules inner (List.mem_cons_of_mem _ hinner))
        fun part hpart => hparts part (List.mem_cons_of_mem _ hpart)) fun _ _ _ hp => .ret hp

end

end Build

end FeatureSynth
