/-
# Names that last

The ledger of fields is written while it is read: the field of a rule is asked for,
found to be unknown, made from the fields of the operands, and noted.  What is noted
in between are names of rules with fewer costs than the rule has, so the note at the
end takes no name away, and whatever was once said of a rule by its name holds to
the end.

This needs ledgers that answer for what they hold, hence a space in which the order
of cost and structure is lawful on all rules met.  `Sound` gathers it; `Writes` is
what a step does to a sound state.
-/
import FeatureSynth.Proofs.Build.Linked
import FeatureSynth.Proofs.Ledger.Sorted
import FeatureSynth.Proofs.Rule.Check
import FeatureSynth.Proofs.Rule.Templates

namespace FeatureSynth

namespace Rule

/-- The rules that a ledger over a space tells apart: their parts have one index per axis, and their
templates are those of one catalogue. -/
structure Told (s : Space) (ts : Catalogue) (r : Rule) : Prop where
  shaped : r.PartsIn s.Shaped
  named : r.Over ts

theorem hereditary_told (s : Space) (ts : Catalogue) : Hereditary (Told s ts) :=
  fun _ _ h hinner => ⟨h.shaped.operand hinner, over_operand h.named hinner⟩

end Rule

namespace BuildState

/-- The ledger has a name for a rule, or for one that its order does not tell from it. -/
def HasName (b : BuildState) (r : Rule) (n : String) : Prop :=
  ∃ x, (x, some n) ∈ b.fieldOf.entries ∧ x.Alike r

/-- A registered class has a field, up to marks, with a property. -/
def HasCore (b : BuildState) (C : String) (P : Field → Prop) : Prop :=
  ∃ e c, b.schema.entity? C = some e ∧ b.registry.class? C = some c ∧ ∃ f ∈ e.cores, P f

/-- A name is that of a field of a class which is in no block. -/
def IsPlain (b : BuildState) (C n : String) : Prop :=
  b.HasCore C fun f => f.name = n ∧ f.block = none

/-- A linked state over the cuts of a space, whose ledger is sorted. -/
structure Sound (s : Space) (ts : Catalogue) (b : BuildState) : Prop where
  wellFounded : s.WellFounded
  wellShaped : s.WellShaped
  linked : Linked b
  sharp : b.Sharp
  cuts : s.SameCuts b.space
  sorted : b.fieldOf.Sorted (Rule.Told s ts) s.compareCostName

/-- Forward from one state to another: classes grow, partitions settle, and rules keep names. -/
structure Onward (b b' : BuildState) : Prop where
  grew : Grew b b'
  settles : b.space.Settles b'.space
  keeps : ∀ x n, (x, some n) ∈ b.fieldOf.entries → (x, some n) ∈ b'.fieldOf.entries

end BuildState

/-- Fields stay. -/
theorem Grew.hasCore {b b' : BuildState} (h : Grew b b') {C : String} {P : Field → Prop}
    (hf : b.HasCore C P) : b'.HasCore C P := by
  obtain ⟨added, blocks, hg⟩ := h
  obtain ⟨e, c, he, hc, f, hf, hP⟩ := hf
  obtain ⟨e', c', he', hc', hclass⟩ := hg.grows C e c he hc
  exact ⟨e', c', he', hc', f, hclass.core_mem hf, hP⟩

namespace BuildState

variable {b b' b'' : BuildState} {s : Space} {ts : Catalogue} {r : Rule} {n : String}

namespace Onward

protected theorem refl (b : BuildState) : Onward b b := ⟨.refl b, .refl _, fun _ _ h => h⟩

protected theorem trans (h : Onward b b') (h' : Onward b' b'') : Onward b b'' :=
  ⟨h.grew.trans h'.grew, h.settles.trans h'.settles, fun x n hx => h'.keeps x n (h.keeps x n hx)⟩

theorem of_links (h : Links b b') : Onward b b' :=
  ⟨h.grew, h.settles, fun _ _ hx => h.fieldOf.symm ▸ hx⟩

theorem hasName (h : Onward b b') (hn : b.HasName r n) : b'.HasName r n := by
  obtain ⟨x, hx, halike⟩ := hn
  exact ⟨x, h.keeps x n hx, halike⟩

theorem hasCore (h : Onward b b') {C : String} {P : Field → Prop} (hf : b.HasCore C P) :
    b'.HasCore C P :=
  h.grew.hasCore hf

end Onward

namespace Sound

theorem lawful (h : Sound s ts b) : LawfulOn (Rule.Told s ts) s.compareCostName :=
  (Space.lawfulOn_compareCostName h.wellFounded h.wellShaped).mono fun _ hr => hr.shaped

theorem alike_iff (h : Sound s ts b) {x y : Rule} : s.compareCostName x y = .eq ↔ x.Alike y :=
  Space.compareCostName_eq_iff h.wellFounded

theorem of_links (h : Sound s ts b) (hl : Links b b') : Sound s ts b' where
  wellFounded := h.wellFounded
  wellShaped := h.wellShaped
  linked := hl.linked
  sharp := hl.sharp h.sharp
  cuts := h.cuts.trans hl.settles.sameCuts
  sorted := hl.fieldOf.symm ▸ h.sorted

/-- Another sorted ledger. -/
theorem note (h : Sound s ts b) {l : Ledger} (hl : l.Sorted (Rule.Told s ts) s.compareCostName) :
    Sound s ts { b with fieldOf := l } where
  wellFounded := h.wellFounded
  wellShaped := h.wellShaped
  linked := ⟨h.linked.entity_of_class, h.linked.indexes, h.linked.described, h.linked.tabled⟩
  sharp := h.sharp
  cuts := h.cuts
  sorted := hl

/-- What the ledger answers is a name it has. -/
theorem hasName_of_fieldOf? (h : Sound s ts b) (hn : b.fieldOf? r = some n) : b.HasName r n := by
  obtain ⟨x, hx, heq⟩ := Ledger.of_name? hn
  rw [h.cuts.compareCostName] at heq
  exact ⟨x, hx, h.alike_iff.mp heq⟩

/-- The ledger answers a rule that has a name. -/
theorem fieldOf?_of_hasName (h : Sound s ts b) (hr : r.Told s ts) (hn : b.HasName r n) :
    b.fieldOf? r = some n := by
  obtain ⟨x, hx, halike⟩ := hn
  rw [fieldOf?, h.cuts.compareCostName]
  exact h.sorted.name?_eq h.lawful hr hx (h.alike_iff.mpr halike)

/-- A field with a formula is in no block. -/
theorem isPlain_of_knows (h : Sound s ts b) {C : String} {φ : Formula} (hn : b.Knows C φ n) :
    b.IsPlain C n := by
  obtain ⟨e, c, he, hc, hn⟩ := hn
  obtain ⟨f, hf, hname, hφ⟩ := (h.linked.indexes C e c he hc).derived φ n hn
  exact ⟨e, c, he, hc, f, hf, hname, (h.sharp C e c he hc).apart f hf (by rw [hφ]; rfl)⟩

/-- The fields of a class differ in name. -/
theorem core_unique (h : Sound s ts b) {C : String} {P Q : Field → Prop}
    (hP : b.HasCore C fun f => f.name = n ∧ P f) (hQ : b.HasCore C fun f => f.name = n ∧ Q f) :
    ∃ f, P f ∧ Q f := by
  obtain ⟨e, c, he, hc, f, hf, hname, hP⟩ := hP
  obtain ⟨e', c', he', hc', g, hg, hname', hQ⟩ := hQ
  obtain rfl : e = e' := Option.some.inj (he.symm.trans he')
  obtain rfl : f = g := List.inj_on_of_nodup_map (h.linked.indexes C e c he hc).fields_nodup hf hg
    (hname.trans hname'.symm)
  exact ⟨f, hP, hQ⟩

end Sound

/-! ## Steps that note names -/

/-- Something said of rules and their names that holds on, and that holds of fields in no block. -/
structure Lasting (T : BuildState → Rule → String → Prop) : Prop where
  onward : ∀ b b' : BuildState, Onward b b' → ∀ x n, T b x n → T b' x n
  plain : ∀ b x n, b.IsPlain x.className n → T b x n

/-- From one state onward to a sound one, with new names only for rules with fewer costs than a
bound; and what `T` says holds of them. -/
structure Writes (s : Space) (ts : Catalogue) (T : BuildState → Rule → String → Prop) (bound : Nat)
    (b b' : BuildState) : Prop extends Onward b b' where
  sound : Sound s ts b'
  fresh : ∀ x n, (x, some n) ∈ b'.fieldOf.entries →
    (x, some n) ∈ b.fieldOf.entries ∨ (x.costs.length < bound ∧ T b' x n)

/-- What `T` says holds of every name in the ledger. -/
def Said (T : BuildState → Rule → String → Prop) (b : BuildState) : Prop :=
  ∀ x n, (x, some n) ∈ b.fieldOf.entries → T b x n

variable {T T' : BuildState → Rule → String → Prop} {bound bound' : Nat}

namespace Writes

theorem of_links (h : Sound s ts b) (hl : Links b b') : Writes s ts T bound b b' where
  toOnward := .of_links hl
  sound := h.of_links hl
  fresh := fun _ _ hx => .inl (hl.fieldOf ▸ hx)

protected theorem refl (h : Sound s ts b) : Writes s ts T bound b b := .of_links h (.refl h.linked)

protected theorem trans (hT : Lasting T) (h : Writes s ts T bound b b')
    (h' : Writes s ts T bound b' b'') : Writes s ts T bound b b'' where
  toOnward := h.toOnward.trans h'.toOnward
  sound := h'.sound
  fresh := by
    intro x n hx
    rcases h'.fresh x n hx with hx | hnew
    · rcases h.fresh x n hx with hold | ⟨hlt, hnew⟩
      · exact .inl hold
      · exact .inr ⟨hlt, hT.onward _ _ h'.toOnward x n hnew⟩
    · exact .inr hnew

theorem imp (h : Writes s ts T bound b b') (hbound : bound ≤ bound')
    (hT : ∀ b x n, T b x n → T' b x n) : Writes s ts T' bound' b b' where
  toOnward := h.toOnward
  sound := h.sound
  fresh := by
    intro x n hx
    rcases h.fresh x n hx with hold | ⟨hlt, hnew⟩
    · exact .inl hold
    · exact .inr ⟨Nat.lt_of_lt_of_le hlt hbound, hT _ x n hnew⟩

theorem mono (h : Writes s ts T bound b b') (hbound : bound ≤ bound') :
    Writes s ts T bound' b b' :=
  h.imp hbound fun _ _ _ => id

/-- What is said of all names is said of all names afterwards. -/
theorem said (h : Writes s ts T bound b b') (hT : Lasting T) (hb : b.Said T) : b'.Said T := by
  intro x n hx
  rcases h.fresh x n hx with hold | ⟨-, hnew⟩
  · exact hT.onward _ _ h.toOnward x n (hb x n hold)
  · exact hnew

/-- A rule without a name has none after names were noted for rules with fewer costs. -/
theorem nameless (h : Writes s ts T r.costs.length b b') (hr : ∀ n, ¬ b.HasName r n) :
    ∀ n, ¬ b'.HasName r n := by
  rintro n ⟨x, hx, halike⟩
  rcases h.fresh x n hx with hold | ⟨hlt, -⟩
  · exact hr n ⟨x, hold, halike⟩
  · rw [halike.costs] at hlt
    exact Nat.lt_irrefl _ hlt

end Writes

end BuildState

namespace Build

open BuildState

variable {b b' : BuildState} {s : Space} {ts : Catalogue} {r : Rule} {n : String}
variable {T : BuildState → Rule → String → Prop}

/-- A note for a rule without a name. -/
theorem writes_recordField (hT : Lasting T) (h : Sound s ts b) (hr : r.Told s ts)
    (hnone : ∀ n, ¬ b.HasName r n) (halike : ∀ x, x.Told s ts → x.Alike r → T b x n)
    (hrun : (recordField r n).Gives b () b') :
    Writes s ts T (r.costs.length + 1) b b' ∧ b'.HasName r n := by
  rw [recordField, gives_modify, h.cuts.compareCostName] at hrun
  subst hrun
  have honward : Onward b { b with fieldOf := b.fieldOf.record s.compareCostName r n } :=
    { grew := .of_eq rfl rfl rfl
      settles := .refl _
      keeps := fun x m hx => Ledger.record_keeps_name
        (fun y k hy heq => hnone k ⟨y, hy, h.alike_iff.mp heq⟩) hx }
  have hsorted : (b.fieldOf.record s.compareCostName r n).Sorted (·.Told s ts) s.compareCostName :=
    h.sorted.record h.lawful hr
  have hnoted : ∀ x, (s.compareCostName x r = .eq ∨ x = r) → x.Alike r := by
    rintro x (heq | rfl)
    · exact h.alike_iff.mp heq
    · exact .refl x
  refine ⟨{ toOnward := honward, sound := h.note hsorted, fresh := fun x m hx => ?_ }, ?_⟩
  · rcases Ledger.mem_record hx with hold | ⟨rfl, heq⟩
    · exact .inl hold
    · have hx' := hnoted x heq
      refine .inr ⟨by rw [hx'.costs]; exact Nat.lt_succ_self _, hT.onward _ _ honward x _ ?_⟩
      exact halike x (hsorted.within _ hx) hx'
  · obtain ⟨x, hx, heq⟩ := Ledger.record_names s.compareCostName b.fieldOf r n
    exact ⟨x, hx, hnoted x heq⟩

/-- The field of a rule without a name, with its formula over what stands for the operands. -/
theorem writes_formulaField (hT : Lasting T) (h : Sound s ts b) (hr : r.Told s ts)
    (hnone : ∀ n, ¬ b.HasName r n) {φ : Formula}
    (hrun : (formulaField r φ).Gives b n b') :
    Writes s ts T (r.costs.length + 1) b b' ∧ b'.HasName r n := by
  obtain ⟨b₁, hlinks, hknows, hrecord⟩ := links_formulaField h.linked hrun
  have h₁ := h.of_links hlinks
  have hnone₁ : ∀ n, ¬ b₁.HasName r n := by
    rintro n ⟨x, hx, halike⟩
    exact hnone n ⟨x, hlinks.fieldOf ▸ hx, halike⟩
  have hsaid : ∀ x, x.Told s ts → x.Alike r → T b₁ x n := by
    intro x _ halike
    refine hT.plain _ x n ?_
    rw [Rule.className_eq_of_signature halike.signature]
    exact h₁.isPlain_of_knows hknows
  obtain ⟨hwrites, hname⟩ := writes_recordField hT h₁ hr hnone₁ hsaid hrecord
  exact ⟨(Writes.of_links h hlinks).trans hT hwrites, hname⟩

/-! ## Shared fields -/

mutual

/-- A shared field is noted as the name of its rule, and in no block. -/
theorem writes_sharedField (hT : Lasting T) : ∀ (r : Rule) (b b' : BuildState) (n : String),
    Sound s ts b → r.Told s ts → (sharedField r).Gives b n b' →
      Writes s ts T (r.costs.length + 1) b b' ∧ b'.HasName r n
  | ⟨template, className, operands, cost, tieBreak⟩, b, b', n, h, hr, hrun => by
      rw [sharedField, gives_get_bind] at hrun
      split at hrun
      · rename_i name hname
        obtain ⟨rfl, rfl⟩ := gives_pure.mp hrun
        exact ⟨.refl h, h.hasName_of_fieldOf? hname⟩
      · rename_i hnone
        obtain ⟨xs, b₁, hoperands, hrun⟩ := gives_bind.mp hrun
        have hwrites := writes_sharedOperands hT operands _ b b₁ xs h
          (fun inner hinner => ⟨Rule.hereditary_told s ts _ inner hr hinner,
            Rule.length_costs_lt (r := ⟨template, className, operands, cost, tieBreak⟩) hinner⟩)
          hoperands
        have hnone₁ := hwrites.nameless fun m hm => by
          cases hnone.symm.trans (h.fieldOf?_of_hasName hr hm)
        obtain ⟨hwrites', hname⟩ := writes_formulaField hT hwrites.sound hr hnone₁ hrun
        exact ⟨(hwrites.mono (Nat.le_succ _)).trans hT hwrites', hname⟩

theorem writes_sharedOperands (hT : Lasting T) : ∀ (operands : List (RuleOperand Rule))
    (bound : Nat) (b b' : BuildState) (xs : List Operand), Sound s ts b →
    (∀ inner, .rule inner ∈ operands → inner.Told s ts ∧ inner.costs.length < bound) →
    (sharedOperands operands).Gives b xs b' → Writes s ts T bound b b'
  | [], bound, b, b', xs, h, _, hrun => by
      rw [sharedOperands, gives_pure] at hrun
      obtain ⟨-, rfl⟩ := hrun
      exact .refl h
  | .field name type :: rest, bound, b, b', xs, h, hrest, hrun => by
      rw [sharedOperands, gives_bind] at hrun
      obtain ⟨ys, b₁, hrun, hpure⟩ := hrun
      obtain ⟨-, rfl⟩ := gives_pure.mp hpure
      exact writes_sharedOperands hT rest bound b _ ys h
        (fun inner hinner => hrest inner (List.mem_cons_of_mem _ hinner)) hrun
  | .rule inner :: rest, bound, b, b', xs, h, hrest, hrun => by
      rw [sharedOperands, gives_bind] at hrun
      obtain ⟨name, b₁, hfield, hrun⟩ := hrun
      obtain ⟨ys, b₂, hrun, hpure⟩ := gives_bind.mp hrun
      obtain ⟨-, rfl⟩ := gives_pure.mp hpure
      obtain ⟨htold, hlt⟩ := hrest inner List.mem_cons_self
      obtain ⟨hwrites, -⟩ := writes_sharedField hT inner b b₁ name h htold hfield
      have hwrites' := writes_sharedOperands hT rest bound b₁ _ ys hwrites.sound
        (fun x hx => hrest x (List.mem_cons_of_mem _ hx)) hrun
      exact (hwrites.mono hlt).trans hT hwrites'
  | .part part :: rest, bound, b, b', xs, h, hrest, hrun => by
      simp only [sharedOperands, gives_get_bind, gives_lift_bind] at hrun
      obtain ⟨f, -, hrun⟩ := hrun
      obtain ⟨ys, b₁, hrun, hpure⟩ := gives_bind.mp hrun
      obtain ⟨-, rfl⟩ := gives_pure.mp hpure
      exact writes_sharedOperands hT rest bound b _ ys h
        (fun inner hinner => hrest inner (List.mem_cons_of_mem _ hinner)) hrun

end

end Build

end FeatureSynth
