/-
# Parts that an analysis has located

A part picks an index on every axis.  It is located once each index is that of a partile,
of the kind the dimension has, and so is every part that the rules of these dimensions name,
and on.  Which parts are located depends on the frame of the space and on the levels of its
dimensions, so no step of a build changes it.

A located part has a criterion and a name, whether its dimensions are linked to fields or
spelled out; its partition has a descriptor; and it has a key as soon as the cells of the
partition are those that the descriptor tells.  Conversely, where no dimension is linked a
criterion spells out everything, and only located parts have one.
-/
import FeatureSynth.Proofs.Space.Bound
import FeatureSynth.Proofs.Space.Keys
import FeatureSynth.Proofs.Space.SameLevels
import FeatureSynth.Proofs.Space.UseCounts

namespace FeatureSynth

theorem exists_mapM {ε α β : Type} {f : α → Except ε β} : ∀ {xs : List α},
    (∀ x ∈ xs, ∃ y, f x = .ok y) → ∃ ys, xs.mapM f = .ok ys
  | [], _ => ⟨[], rfl⟩
  | x :: xs, h => by
      obtain ⟨y, hy⟩ := h x List.mem_cons_self
      obtain ⟨ys, hys⟩ := exists_mapM fun z hz => h z (List.mem_cons_of_mem _ hz)
      refine ⟨y :: ys, ?_⟩
      rw [List.mapM_cons, hy, hys]
      rfl

theorem exists_mapM_bind {ε α β γ : Type} {f : α → Except ε β} {g : List β → Except ε γ}
    {xs : List α} (h : ∀ x ∈ xs, ∃ y, f x = .ok y) (hg : ∀ ys, ∃ z, g ys = .ok z) :
    ∃ z, (xs.mapM f >>= g) = .ok z := by
  obtain ⟨ys, hys⟩ := exists_mapM h
  rw [hys]
  exact hg ys

theorem exists_of_mapM {ε α β : Type} {f : α → Except ε β} {xs : List α} {ys : List β}
    (h : xs.mapM f = .ok ys) {x : α} (hx : x ∈ xs) : ∃ y, f x = .ok y := by
  have hall := Space.forall₂_of_mapM h
  clear h
  induction hall with
  | nil => cases hx
  | cons hy _ ih =>
    rcases List.mem_cons.mp hx with rfl | hx
    · exact ⟨_, hy⟩
    · exact ih hx

/-! ## Located parts -/

/-- A partile has a criterion for the values of its own kind. -/
theorem Partile.criterion_isOk (operand : Operand) (kind : Kind) (x : Partile) :
    (x.criterion operand kind).isOk = x.isOf kind := by
  cases x with
  | interval lower upper index =>
    cases kind <;> unfold Partile.criterion Partile.isOf <;> dsimp only <;>
      (repeat' split) <;> rfl
  | value v index outside =>
    cases kind <;> cases outside <;> rfl

theorem exists_of_isOk {ε α : Type} {x : Except ε α} (h : x.isOk = true) : ∃ a, x = .ok a := by
  cases x with
  | ok a => exact ⟨a, rfl⟩
  | error => cases h

namespace Rule

variable {parts : Part → Except BuildError Formula}

mutual

/-- A rule has a formula if the parts it names have one. -/
theorem formulaWith_isOk : ∀ r : Rule,
    (r.formulaWith parts).isOk = r.parts.all fun part => (parts part).isOk
  | ⟨template, className, operands, cost, tieBreak⟩ => by
      rw [formulaWith, Rule.parts, ← operandFormulasWith_isOk operands]
      cases operandFormulasWith parts operands <;> rfl

theorem operandFormulasWith_isOk : ∀ xs : List (RuleOperand Rule),
    (operandFormulasWith parts xs).isOk = (partsList xs).all fun part => (parts part).isOk
  | [] => rfl
  | .field name type :: rest => by
      rw [operandFormulasWith, partsList, ← operandFormulasWith_isOk rest]
      cases operandFormulasWith parts rest <;> rfl
  | .rule inner :: rest => by
      rw [operandFormulasWith, partsList, List.all_append, ← formulaWith_isOk inner,
        ← operandFormulasWith_isOk rest]
      cases formulaWith parts inner <;> cases operandFormulasWith parts rest <;> rfl
  | .part part :: rest => by
      rw [operandFormulasWith, partsList, List.all_cons, ← operandFormulasWith_isOk rest]
      cases parts part <;> cases operandFormulasWith parts rest <;> rfl

end

end Rule

namespace Space

/-- A part whose indexes are those of partiles, each of the kind its dimension has. -/
structure Resolved (s : Space) (part : Part) : Prop where
  shaped : s.Shaped part
  partile : ∀ a i, (a, i) ∈ s.axesOf part →
    ∃ d x, s.resolve a i = .ok (d, x) ∧ x.isOf d.kind = true

/-- A part whose indexes are those of partiles, and so are those of the parts that the rules of its
dimensions name, and on. -/
inductive Located (s : Space) : Part → Prop
  | intro {part : Part} (shaped : s.Shaped part)
      (resolved : ∀ a i, (a, i) ∈ s.axesOf part →
        ∃ d x, s.resolve a i = .ok (d, x) ∧ x.isOf d.kind = true)
      (below : ∀ a i, (a, i) ∈ s.axesOf part → ∀ d r, s.dimensions[a.dimension]? = some d →
        d.origin = .rule r → ∀ q ∈ r.parts, Located s q) : Located s part

variable {s s' : Space} {part : Part}

theorem resolve_eq_ok {a : Axis} {i : Nat} {d : Dimension} {x : Partile} :
    s.resolve a i = .ok (d, x) ↔ s.dimensions[a.dimension]? = some d ∧
      (d.levels.bind fun levels => levels.partile? a.granularity i) = some x := by
  unfold resolve
  split
  · rename_i hnone
    simp [hnone, breach]
  · rename_i d' hd'
    rw [hd']
    split
    · rename_i x' hx'
      constructor
      · intro h
        cases h
        exact ⟨rfl, hx'⟩
      · rintro ⟨hd, hx⟩
        cases hd
        rw [hx', Option.some.injEq] at hx
        rw [hx]
    · rename_i hnone
      constructor
      · intro h
        cases h
      · rintro ⟨hd, hx⟩
        cases hd
        rw [hnone] at hx
        cases hx

theorem Located.of_sameLevels (hs : s.SameLevels s') (h : s.Located part) : s'.Located part := by
  induction h with
  | @intro part shaped resolved below ih =>
    obtain ⟨p, hp, hlength⟩ := shaped
    obtain ⟨p', hp', hcut, -⟩ := hs.partition hp
    simp only [Partition.cut, Prod.mk.injEq] at hcut
    refine .intro ⟨p', hp', by rw [hcut.2.2.2, hlength]⟩ ?_ ?_
    · intro a i ha
      obtain ⟨d, x, hx, hof⟩ := resolved a i (hs.axesOf_eq part ▸ ha)
      obtain ⟨hd, hpartile⟩ := resolve_eq_ok.mp hx
      obtain ⟨d', hd', -, ho, hlevels⟩ := hs.dimension hd
      refine ⟨d', x, resolve_eq_ok.mpr ⟨hd', by rw [hlevels, hpartile]⟩, ?_⟩
      rw [kind_of_origin ho, hof]
    · intro a i ha d' r hd' ho q hq
      obtain ⟨d, hd, -, hod, -⟩ := hs.symm.dimension hd'
      exact ih a i (hs.axesOf_eq part ▸ ha) d r hd (hod.trans ho) q hq

/-- Every axis of the partition of a resolved part is one that the part has an index on. -/
theorem Resolved.exists_index (h : s.Resolved part) {p : Partition}
    (hp : s.partitions[part.partition]? = some p) {a : Axis} (ha : a ∈ p.axes) :
    ∃ i, (a, i) ∈ s.axesOf part := by
  obtain ⟨p', hp', hlength⟩ := h.shaped
  obtain rfl : p = p' := Option.some.inj (hp.symm.trans hp')
  obtain ⟨k, hk⟩ := List.mem_iff_getElem?.mp ha
  have hlt : k < part.indexes.length := hlength ▸ (List.getElem?_eq_some_iff.mp hk).1
  refine ⟨part.indexes[k], ?_⟩
  rw [axesOf, hp]
  exact List.mem_of_getElem? (List.getElem?_zip_eq_some.mpr ⟨hk, List.getElem?_eq_getElem hlt⟩)

namespace Located

theorem shaped (h : s.Located part) : s.Shaped part := by
  cases h
  assumption

theorem resolved (h : s.Located part) : s.Resolved part := by
  obtain ⟨shaped, partile, -⟩ := h
  exact ⟨shaped, partile⟩

/-- The criterion of a located part is there, however far formulas are spelled out. -/
theorem exists_partFormulaWithin : ∀ (fuel : Nat) {part : Part}, s.Located part →
    ∃ φ, s.partFormulaWithin fuel part = .ok φ
  | 0, _, _ => ⟨_, rfl⟩
  | fuel + 1, part, .intro _ resolved below => by
      have hcriterion : ∀ x ∈ s.axesOf part,
          ∃ φ, s.axisCriterionWith (s.partFormulaWithin fuel) x.1 x.2 = .ok φ := by
        intro ⟨a, i⟩ ha
        obtain ⟨d, x, hx, hof⟩ := resolved a i ha
        have hd := (resolve_eq_ok.mp hx).1
        obtain ⟨operand, hoperand⟩ :
            ∃ operand, dimensionOperandWith (s.partFormulaWithin fuel) d = .ok operand := by
          unfold dimensionOperandWith
          split
          · exact ⟨_, rfl⟩
          · exact ⟨_, rfl⟩
          · rename_i r ho _
            have hparts : (r.formulaWith (s.partFormulaWithin fuel)).isOk = true := by
              rw [Rule.formulaWith_isOk, List.all_eq_true]
              intro q hq
              obtain ⟨φ, hφ⟩ := exists_partFormulaWithin fuel (below a i ha d r hd ho q hq)
              rw [hφ]
              rfl
            obtain ⟨φ, hφ⟩ := exists_of_isOk hparts
            exact ⟨.ofFormula φ, by rw [hφ]; rfl⟩
        obtain ⟨φ, hφ⟩ := exists_of_isOk ((x.criterion_isOk operand d.kind).trans hof)
        exact ⟨φ, by simp only [axisCriterionWith, hx, hoperand, bind, Except.bind, hφ]⟩
      obtain ⟨φs, hφs⟩ := exists_mapM hcriterion
      exact ⟨.conjunction φs, by simp only [partFormulaWithin, hφs, bind, Except.bind]; rfl⟩

theorem exists_partFormula (h : s.Located part) : ∃ φ, s.partFormula part = .ok φ :=
  exists_partFormulaWithin _ h

theorem exists_formula {r : Rule} (h : r.PartsIn s.Located) : ∃ φ, s.formula r = .ok φ := by
  refine exists_of_isOk ((Rule.formulaWith_isOk r).trans ?_)
  refine List.all_eq_true.mpr fun part hpart => ?_
  obtain ⟨φ, hφ⟩ := (h part hpart).exists_partFormula
  rw [hφ]
  rfl

end Located

/-- Where a part has a criterion, each of its axes has one: the index is that of a partile, and the
partile is told by the operand of the dimension. -/
theorem criterion_of_partFormulaWithin {fuel : Nat} {φ : Formula}
    (h : s.partFormulaWithin (fuel + 1) part = .ok φ) {a : Axis} {i : Nat}
    (ha : (a, i) ∈ s.axesOf part) :
    ∃ d x operand ψ, s.resolve a i = .ok (d, x) ∧
      dimensionOperandWith (s.partFormulaWithin fuel) d = .ok operand ∧
      x.criterion operand d.kind = .ok ψ := by
  simp only [partFormulaWithin, bind, Except.bind] at h
  split at h
  · cases h
  · rename_i φs hcriteria
    obtain ⟨ψ, hψ⟩ := exists_of_mapM hcriteria ha
    dsimp only [axisCriterionWith] at hψ
    cases hx : s.resolve a i with
    | error => rw [hx] at hψ; cases hψ
    | ok dx =>
      obtain ⟨d, x⟩ := dx
      cases hoperand : dimensionOperandWith (s.partFormulaWithin fuel) d with
      | error => simp only [hx, bind, Except.bind, hoperand] at hψ; cases hψ
      | ok operand =>
        refine ⟨d, x, operand, ψ, rfl, hoperand, ?_⟩
        simpa only [hx, bind, Except.bind, hoperand] using hψ

/-- Only resolved parts have a criterion, whatever the dimensions are linked to. -/
theorem resolved_of_isOk (hshaped : s.Shaped part) {fuel : Nat}
    (hok : (s.partFormulaWithin (fuel + 1) part).isOk = true) : s.Resolved part where
  shaped := hshaped
  partile := by
    intro a i ha
    obtain ⟨φ, hφ⟩ := exists_of_isOk hok
    obtain ⟨d, x, operand, ψ, hx, -, hψ⟩ := criterion_of_partFormulaWithin hφ ha
    refine ⟨d, x, hx, ?_⟩
    rw [← x.criterion_isOk operand, hψ]
    rfl

/-- Where no dimension is linked to a field, only located parts have a criterion. -/
theorem located_of_isOk (hs : s.WellFounded) (hw : s.WellShaped)
    (hfree : ∀ d ∈ s.dimensions, d.selectionField = none) : ∀ (fuel : Nat) {part : Part},
      s.Below fuel part.partition → s.Shaped part → (s.partFormulaWithin fuel part).isOk = true →
        s.Located part
  | 0, part, hbelow, hshaped, _ => by
      obtain ⟨p, hp, hlength⟩ := hshaped
      have hnone : s.axesOf part = [] := by
        cases haxes : p.axes with
        | nil => simp [axesOf, hp, haxes]
        | cons a axes => exact absurd (hbelow p hp a (by simp [haxes])) (Nat.not_lt_zero _)
      exact .intro ⟨p, hp, hlength⟩ (by simp [hnone]) (by simp [hnone])
  | fuel + 1, part, hbelow, hshaped, hok => by
      obtain ⟨φ, hφ⟩ := exists_of_isOk hok
      refine .intro hshaped (resolved_of_isOk hshaped hok).partile fun a i ha d r hd ho q hq => ?_
      obtain ⟨d', x, operand, ψ, hx, hoperand, -⟩ := criterion_of_partFormulaWithin hφ ha
      obtain rfl : d = d' := Option.some.inj (hd.symm.trans (resolve_eq_ok.mp hx).1)
      obtain ⟨p, hp, ha⟩ := mem_axesOf ha
      have hmem := List.mem_of_getElem? hd
      have hparts : (r.formulaWith (s.partFormulaWithin fuel)).isOk = true := by
        unfold dimensionOperandWith at hoperand
        rw [ho, hfree d hmem] at hoperand
        dsimp only at hoperand
        cases hr : r.formulaWith (s.partFormulaWithin fuel) with
        | error => rw [hr] at hoperand; cases hoperand
        | ok => rfl
      rw [Rule.formulaWith_isOk, List.all_eq_true] at hparts
      exact located_of_isOk hs hw hfree fuel (hs.below_of_earlier (hbelow p hp a ha) hd ho hq)
        (hw.named d hmem r ho q hq) (hparts q hq)

/-- The rules that resolve where no dimension is linked to a field name located parts only. -/
theorem located_of_resolves (hs : s.WellFounded) (hw : s.WellShaped)
    (hfree : ∀ d ∈ s.dimensions, d.selectionField = none) {r : Rule} (hr : r.PartsIn s.Shaped)
    (h : s.resolves r = true) : r.PartsIn s.Located := fun part hpart =>
  located_of_isOk hs hw hfree _ (hs.below_depth _) (hr part hpart)
    (List.all_eq_true.mp h part hpart)

theorem WellShaped.of_part? (hw : s.WellShaped) (h : (s.part? part).isSome = true) :
    s.Shaped part := by
  unfold Space.part? at h
  cases hp : s.partitions[part.partition]? with
  | none => rw [hp] at h; cases h
  | some p =>
    rw [hp, Option.bind_some] at h
    obtain ⟨entry, hentry⟩ := Option.isSome_iff_exists.mp h
    exact ⟨p, hp, hw.kept p (List.mem_of_getElem? hp) (part.indexes, entry) (mem_of_lookup hentry)⟩

/-! ## Uses -/

/-- The dimensions that rules with located parts need have rules with located parts. -/
theorem located_of_needs {rules : List Rule} (hrules : ∀ r ∈ rules, r.PartsIn s.Located) {k : Nat}
    (h : s.Needs rules k) : ∀ d r, s.dimensions[k]? = some d → d.origin = .rule r →
      r.PartsIn s.Located := by
  have honward : ∀ {r : Rule} {k : Nat}, r.PartsIn s.Located → s.SelectsOn r k →
      ∀ d r', s.dimensions[k]? = some d → d.origin = .rule r' → r'.PartsIn s.Located := by
    rintro r _ hr ⟨part, hpart, p, hp, a, ha, rfl⟩ d r' hd ho q hq
    have hlocated := hr part hpart
    obtain ⟨i, hi⟩ := hlocated.resolved.exists_index hp ha
    obtain ⟨-, -, hbelow⟩ := hlocated
    exact hbelow a i hi d r' hd ho q hq
  induction h with
  | named hr hk => exact honward (hrules _ hr) hk
  | onward _ hd ho hk ih => exact honward (ih _ _ hd ho) hk

theorem located_of_used {rules : List Rule} (hrules : ∀ r ∈ rules, r.PartsIn s.Located) {k : Nat}
    {d : Dimension} {r : Rule} (hused : (s.countUses rules).Used k)
    (hd : s.dimensions[k]? = some d) (ho : d.origin = .rule r) : r.PartsIn s.Located :=
  located_of_needs hrules (needs_of_used hused) d r hd ho

/-! ## Names -/

section Names

variable {schema : Schema}

namespace Located

/-- A located part and its partition have names, however far names are spelled out. -/
theorem cover (hdims : s.Grounded schema) : ∀ (fuel : Nat) {part : Part}, s.Located part →
    (s.selectionNames fuel).Cover part
  | 0, _, _ => ⟨⟨_, rfl⟩, _, rfl⟩
  | fuel + 1, part, h => by
      obtain ⟨shaped, resolved, below⟩ := id h
      have hname : ∀ a i, (a, i) ∈ s.axesOf part → ∀ d, s.dimensions[a.dimension]? = some d →
          ∃ n, dimensionNameWith (s.selectionNames fuel) d = .ok n := by
        intro a i ha d hd
        unfold dimensionNameWith
        split
        · exact ⟨_, rfl⟩
        · rename_i r ho
          exact (hdims d (List.mem_of_getElem? hd) r ho).exists_nameWith
            (fun q hq => cover hdims fuel (below a i ha d r hd ho q hq)) false
      constructor
      · refine exists_mapM_bind (fun x hx => ?_) fun ns => ⟨_, rfl⟩
        obtain ⟨a, i⟩ := x
        obtain ⟨d, x, hresolved, -⟩ := resolved a i hx
        obtain ⟨n, hn⟩ := hname a i hx d (resolve_eq_ok.mp hresolved).1
        exact ⟨x.phrase n d.kind, by simp only [hresolved, hn, bind, Except.bind]; rfl⟩
      · obtain ⟨p, hp, -⟩ := id shaped
        simp only [selectionNames, hp, Option.map_some, Option.getD_some]
        refine exists_mapM_bind (fun a ha => ?_) fun ns => ⟨_, rfl⟩
        obtain ⟨i, hi⟩ := h.resolved.exists_index hp ha
        cases hd : s.dimensions[a.dimension]? with
        | none => exact ⟨_, rfl⟩
        | some d =>
          obtain ⟨n, hn⟩ := hname a i hi d hd
          exact ⟨n ++ "(" ++ toString a.granularity ++ ")", by
            simp only [hn, bind, Except.bind]; rfl⟩

end Located

end Names

end Space

theorem NameSource.exists_choose (n : NameSource) {x : Except BuildError String}
    (h : ∃ name, x = .ok name) : ∃ y, n.choose x = .ok y := by
  obtain ⟨name, rfl⟩ := h
  unfold NameSource.choose
  split
  · exact ⟨_, rfl⟩
  · exact ⟨_, rfl⟩

section Sources

variable {s : Space} {schema : Schema} {part : Part} (n : NameSource)

theorem exists_ofRule {r : Rule} (hdims : s.Grounded schema) (hr : r.Grounded s schema)
    (hparts : r.PartsIn s.Located) (asBlock : Bool) : ∃ y, n.ofRule s r asBlock = .ok y :=
  n.exists_choose (hr.exists_nameWith (fun part hpart => (hparts part hpart).cover hdims _) asBlock)

theorem exists_ofPartition (hdims : s.Grounded schema) (h : s.Located part) :
    ∃ y, n.ofPartition s part.partition = .ok y := by
  obtain ⟨-, axes, haxes⟩ := h.cover hdims s.depth
  exact n.exists_choose ⟨_, by rw [Space.partitionName, haxes]; rfl⟩

theorem exists_ofTableBlock (hdims : s.Grounded schema) (h : s.Located part) :
    ∃ y, n.ofTableBlock s part.partition = .ok y := by
  obtain ⟨-, axes, haxes⟩ := h.cover hdims s.depth
  exact n.exists_choose ⟨_, by rw [Space.partitionName, haxes]; rfl⟩

theorem exists_ofPart (hdims : s.Grounded schema) (h : s.Located part) :
    ∃ y, n.ofPart s part = .ok y := by
  obtain ⟨⟨values, hvalues⟩, -⟩ := h.cover hdims s.depth
  exact n.exists_choose ⟨_, by rw [Space.partName, hvalues]; rfl⟩

end Sources

/-! ## Descriptors and keys -/

namespace Cells

theorem mem_insert {index cell j : Nat} : ∀ {l : List (Nat × Nat)},
    j ∈ (insert index cell l).map (·.1) ↔ j = index ∨ j ∈ l.map (·.1)
  | [] => by simp [insert]
  | x :: rest => by
      unfold insert
      split
      · simp
      · rename_i heq
        have hx : index = x.1 := Std.LawfulEqOrd.eq_of_compare heq
        simp [hx]
      · rw [List.map_cons, List.mem_cons, mem_insert, List.map_cons, List.mem_cons]
        exact or_left_comm

theorem mem_foldl_insert {j : Nat} : ∀ {entries l : List (Nat × Nat)},
    j ∈ (entries.foldl (fun cells e => insert e.1 e.2 cells) l).map (·.1) ↔
      j ∈ l.map (·.1) ∨ j ∈ entries.map (·.1)
  | [], l => by simp
  | e :: entries, l => by
      rw [List.foldl_cons, mem_foldl_insert, mem_insert, List.map_cons, List.mem_cons]
      tauto

end Cells

namespace Bounds

/-- Every interval gets a cell. -/
theorem mem_foldl_add {j : Nat} : ∀ (partiles : List Partile) (b : Bounds),
    (j ∈ b.cellOf.map (·.1) ∨ ∃ x ∈ partiles, x.isOf .continuous = true ∧ x.index = j) →
      j ∈ (partiles.foldl add b).cellOf.map (·.1)
  | [], b, h => by simpa using h
  | .value .. :: rest, b, h => by
      rw [List.foldl_cons]
      refine mem_foldl_add rest _ (h.imp id ?_)
      rintro ⟨x, hx, hof, hj⟩
      rcases List.mem_cons.mp hx with rfl | hx
      · cases hof
      · exact ⟨x, hx, hof, hj⟩
  | .interval lower upper index :: rest, b, h => by
      obtain ⟨cell, hcell⟩ := b.add_cellOf lower upper index
      rw [List.foldl_cons]
      refine mem_foldl_add rest _ ?_
      rw [hcell, Cells.mem_insert]
      rcases h with h | ⟨x, hx, hof, hj⟩
      · exact .inl (.inr h)
      · rcases List.mem_cons.mp hx with rfl | hx
        · exact .inl (.inl hj.symm)
        · exact .inr ⟨x, hx, hof, hj⟩

end Bounds

/-- Every group of a value gets a cell. -/
theorem mem_groupsFrom {x : Partile} : ∀ {partiles : List Partile} (cell : Nat), x ∈ partiles →
    x.isOf .symbol = true →
      x.index ∈ (groupsFrom cell partiles).2.map (·.1) ∧ (groupsFrom cell partiles).1 ≠ []
  | .interval .. :: rest, cell, hx, hof => by
      rcases List.mem_cons.mp hx with rfl | hx
      · cases hof
      · exact mem_groupsFrom (cell + 1) hx hof
  | .value value index outside :: rest, cell, hx, hof => by
      rw [groupsFrom]
      refine ⟨?_, by simp⟩
      rcases List.mem_cons.mp hx with rfl | hx
      · exact List.mem_cons_self
      · exact List.mem_cons_of_mem _ (mem_groupsFrom (cell + 1) hx hof).1

namespace Space

variable {s : Space} {part : Part} {a : Axis} {i : Nat} {d : Dimension} {x : Partile}

/-- A partile that an index means is one of the level, under that index. -/
theorem partile_of_resolve (h : s.resolve a i = .ok (d, x)) :
    s.dimensions[a.dimension]? = some d ∧ ∃ levels position, d.levels = some levels ∧
      levels.position? a.granularity = some position ∧
      x ∈ levels.partilesAt position ∧ x.index = i := by
  obtain ⟨hd, hpartile⟩ := resolve_eq_ok.mp h
  obtain ⟨levels, hlevels, hpartile⟩ := Option.bind_eq_some_iff.mp hpartile
  obtain ⟨position, hposition, hsearch⟩ := Option.bind_eq_some_iff.mp hpartile
  refine ⟨hd, levels, position, hlevels, hposition, ?_⟩
  unfold Levels.search? at hsearch
  obtain ⟨k, hk, hx⟩ := Option.bind_eq_some_iff.mp hsearch
  refine ⟨List.mem_of_getElem? hx, ?_⟩
  obtain ⟨y, hy, heq⟩ := of_bisectList_found (Spot.found?_eq_some.mp hk)
  obtain rfl : y = x := Option.some.inj (hy.symm.trans hx)
  exact Std.LawfulEqOrd.eq_of_compare heq

theorem exists_axisDescriptor (h : s.resolve a i = .ok (d, x)) (hof : x.isOf d.kind = true) :
    ∃ y, s.axisDescriptor a = .ok y := by
  obtain ⟨hd, levels, position, hlevels, hposition, -⟩ := partile_of_resolve h
  unfold axisDescriptor
  simp only [hd, hlevels, hposition]
  unfold Partile.isOf at hof
  split at hof
  · rename_i hkind
    exact ⟨_, by rw [hkind]⟩
  · rename_i hkind
    exact ⟨_, by rw [hkind]⟩
  · cases hof

/-- The table of an axis has a cell for every index that means a partile. -/
theorem cell_of_resolve {φ : Formula} {c : Cells} (hφ : s.axisDescriptor a = .ok (φ, c))
    (h : s.resolve a i = .ok (d, x)) (hof : x.isOf d.kind = true) :
    0 < c.count ∧ i ∈ c.cellOf.map (·.1) := by
  obtain ⟨hd, levels, position, hlevels, hposition, hx, rfl⟩ := partile_of_resolve h
  unfold axisDescriptor at hφ
  simp only [hd, hlevels, hposition] at hφ
  split at hφ
  · rename_i hkind
    rw [hkind] at hof
    cases hφ
    exact ⟨Nat.succ_pos _, Bounds.mem_foldl_add _ _ (.inr ⟨x, hx, hof, rfl⟩)⟩
  · rename_i hkind
    rw [hkind] at hof
    obtain ⟨hmem, hne⟩ := mem_groupsFrom 0 hx hof
    have hc : c = (groupDescriptor (levels.partilesAt position)
        ((levels.take position).map (·.partiles))).2 := by rw [Except.ok.inj hφ]
    rw [hc, groupDescriptor]
    refine ⟨?_, Cells.mem_foldl_insert.mpr (.inr hmem)⟩
    dsimp only
    split
    · exact List.length_pos_iff.mpr hne
    · rw [List.length_append]
      exact Nat.lt_of_lt_of_le (List.length_pos_iff.mpr hne) (Nat.le_add_right _ _)
  · cases hφ

theorem Resolved.exists_descriptor (h : s.Resolved part) :
    ∃ φ cells, s.descriptor part.partition = .ok (φ, cells) := by
  obtain ⟨p, hp, -⟩ := h.shaped
  have haxes : ∀ a ∈ p.axes, ∃ y, s.axisDescriptor a = .ok y := by
    intro a ha
    obtain ⟨i, hi⟩ := h.exists_index hp ha
    obtain ⟨d, x, hx, hof⟩ := h.partile a i hi
    exact exists_axisDescriptor hx hof
  obtain ⟨described, hdescribed⟩ := exists_mapM haxes
  exact ⟨_, _, by simp only [descriptor, hp, Option.map_some, Option.getD_some, hdescribed, bind,
    Except.bind]; rfl⟩

/-- Indexes of partiles have a cell number. -/
theorem exists_cellNumber_of_described : ∀ {axes : List Axis} {indexes : List Nat}
    {described : List (Formula × Cells)}, indexes.length = axes.length →
      List.Forall₂ (fun a y => s.axisDescriptor a = .ok y) axes described →
      (∀ a i, (a, i) ∈ axes.zip indexes →
        ∃ d x, s.resolve a i = .ok (d, x) ∧ x.isOf d.kind = true) →
      (described.map (·.2)).length = indexes.length ∧
        (∀ c ∈ described.map (·.2), 0 < c.count) ∧
        ∃ number, cellNumber (described.map (·.2)) indexes = .ok number
  | [], [], _, _, .nil, _ => ⟨rfl, by simp, 0, rfl⟩
  | a :: axes, i :: indexes, (φ, c) :: described, hlength, .cons hφ hrest, h => by
      obtain ⟨hlen, hpositive, number, hnumber⟩ := exists_cellNumber_of_described
        (Nat.succ.inj hlength) hrest fun a i hai => h a i (List.mem_cons_of_mem _ hai)
      obtain ⟨d, x, hx, hof⟩ := h a i List.mem_cons_self
      obtain ⟨hc, hi⟩ := cell_of_resolve hφ hx hof
      obtain ⟨cell, hcell⟩ : ∃ cell, c.cellOf.lookup i = some cell := by
        obtain ⟨entry, hentry, rfl⟩ := List.mem_map.mp hi
        refine Option.isSome_iff_exists.mp ?_
        rw [List.lookup_isSome_iff]
        exact ⟨entry, hentry, by simp⟩
      refine ⟨by simpa using hlen, ?_, cell + c.count * number, ?_⟩
      · intro c' hc'
        rcases List.mem_cons.mp hc' with rfl | hc'
        · exact hc
        · exact hpositive c' hc'
      · rw [List.map_cons, cellNumber, hcell]
        simp only [hnumber]

/-- A resolved part has a cell number in the described cells of its partition. -/
theorem Resolved.exists_cellNumber (h : s.Resolved part) {φ : Formula} {cells : List Cells}
    (hφ : s.descriptor part.partition = .ok (φ, cells)) :
    cells.length = part.indexes.length ∧ (∀ c ∈ cells, 0 < c.count) ∧
      ∃ number, cellNumber cells part.indexes = .ok number := by
  obtain ⟨p, hp, hlength⟩ := h.shaped
  unfold descriptor at hφ
  rw [hp, Option.map_some, Option.getD_some] at hφ
  dsimp only at hφ
  cases hdescribed : p.axes.mapM s.axisDescriptor with
  | error e => rw [hdescribed] at hφ; cases hφ
  | ok described =>
    rw [hdescribed] at hφ
    obtain rfl : described.map (·.2) = cells := congrArg Prod.snd (Except.ok.inj hφ)
    exact exists_cellNumber_of_described hlength (forall₂_of_mapM hdescribed) fun a i ha =>
      h.partile a i (by rw [axesOf, hp]; exact ha)

/-- The key of a part is told by its cell number. -/
theorem key_eq_of_cellNumber {p : Partition} {number : Nat}
    (hp : s.partitions[part.partition]? = some p) (hlength : p.cells.length = part.indexes.length)
    (hpositive : ∀ c ∈ p.cells, 0 < c.count)
    (hnumber : cellNumber p.cells part.indexes = .ok number) :
    s.key part = .ok ((number + 1) % keyBound) := by
  have hcounts : ¬ (p.cells.length ≠ part.indexes.length ∨
      p.cells.any (·.count == 0) = true) := by
    rw [not_or, not_not, List.any_eq_true]
    refine ⟨hlength, fun ⟨c, hc, hzero⟩ => ?_⟩
    exact absurd (beq_iff_eq.mp hzero) (Nat.ne_of_gt (hpositive c hc))
  unfold key
  simp only [hp, if_neg hcounts, hnumber]

/-- A resolved part has a key once the cells of its partition are the described ones. -/
theorem Resolved.exists_key (h : s.Resolved part) {p : Partition} {φ : Formula}
    (hp : s.partitions[part.partition]? = some p)
    (hφ : s.descriptor part.partition = .ok (φ, p.cells)) : ∃ key, s.key part = .ok key := by
  obtain ⟨hlength, hpositive, number, hnumber⟩ := h.exists_cellNumber hφ
  exact ⟨_, key_eq_of_cellNumber hp hlength hpositive hnumber⟩

end Space

end FeatureSynth
