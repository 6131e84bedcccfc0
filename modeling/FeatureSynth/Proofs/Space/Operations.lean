/-
# What registration and counting keep

A space is worked on by eight calls: four register a dimension, a partition or a part, one counts a
use, and three clear what was counted, found or linked.  Whatever the order of the calls, the space
stays valid; what lies behind a rank stays what it was, and a part keeps its cost; and a call that
registered something answers the same from then on, and changes nothing.
-/
import FeatureSynth.Proofs.Registry.Index
import FeatureSynth.Proofs.Space.Costs
import FeatureSynth.Proofs.Space.SameLevels

namespace FeatureSynth

/-! ## Parts in order -/

namespace Partition

variable {indexes : List Nat} {cost : Float} {l : List (List Nat × PartEntry)}

/-- Parts by increasing indexes. -/
def InOrder (parts : List (List Nat × PartEntry)) : Prop :=
  (parts.map (·.1)).Pairwise fun i j => compare i j = .lt

theorem InOrder.insertPart (h : InOrder l) : InOrder (insertPart indexes cost l) := by
  induction l with
  | nil => exact List.pairwise_singleton _ _
  | cons p rest ih =>
    obtain ⟨hfirst, hrest⟩ := List.pairwise_cons.mp h
    rw [Partition.insertPart]
    cases hcmp : compare indexes p.1 with
    | lt =>
      refine List.pairwise_cons.mpr ⟨fun j hj => ?_, h⟩
      rcases List.mem_cons.mp hj with rfl | hj
      · exact hcmp
      · exact Std.TransCmp.lt_trans hcmp (hfirst j hj)
    | eq => exact h
    | gt =>
      refine List.pairwise_cons.mpr ⟨fun j hj => ?_, ih hrest⟩
      obtain ⟨e, he, rfl⟩ := List.mem_map.mp hj
      rcases Space.mem_insertPart he with he | he
      · exact hfirst _ (List.mem_map_of_mem he)
      · rw [he]
        exact Std.OrientedCmp.gt_iff_lt.mp hcmp

/-- A part that is there is not inserted again. -/
theorem insertPart_of_mem (h : InOrder l) (hmem : indexes ∈ l.map (·.1)) :
    insertPart indexes cost l = l := by
  induction l with
  | nil => cases hmem
  | cons p rest ih =>
    obtain ⟨hfirst, hrest⟩ := List.pairwise_cons.mp h
    rw [insertPart]
    rcases List.mem_cons.mp hmem with heq | hmem
    · have hself : compare p.1 p.1 = .eq := Std.ReflCmp.compare_self
      rw [heq, hself]
    · rw [Std.OrientedCmp.gt_iff_lt.mpr (hfirst indexes hmem), ih hrest hmem]

theorem mem_keys_insertPart (indexes : List Nat) (cost : Float) (l : List (List Nat × PartEntry)) :
    indexes ∈ (insertPart indexes cost l).map (·.1) := by
  induction l with
  | nil => exact List.mem_cons_self
  | cons p rest ih =>
    rw [insertPart]
    cases hcmp : compare indexes p.1 with
    | lt => exact List.mem_cons_self
    | eq => exact Std.LawfulEqOrd.eq_of_compare hcmp ▸ List.mem_cons_self
    | gt => exact List.mem_cons_of_mem _ ih

/-- Parts that are there stay when one more is inserted. -/
theorem mem_insertPart_of_mem {e : List Nat × PartEntry} (h : e ∈ l) :
    e ∈ insertPart indexes cost l := by
  induction l with
  | nil => cases h
  | cons p rest ih =>
    rw [insertPart]
    cases compare indexes p.1 with
    | lt => exact List.mem_cons_of_mem _ h
    | eq => exact h
    | gt =>
      rcases List.mem_cons.mp h with rfl | h
      · exact List.mem_cons_self
      · exact List.mem_cons_of_mem _ (ih h)

theorem InOrder.nodup (h : InOrder l) : (l.map (·.1)).Nodup :=
  h.imp fun {i j} hlt heq => by
    have hself : compare j j = .eq := Std.ReflCmp.compare_self
    rw [heq, hself] at hlt
    cases hlt

/-- What registration makes sure of in a partition by itself. -/
structure Sound (p : Partition) : Prop where
  cut : p.axes ≠ []
  granularity : ∀ a ∈ p.axes, 2 ≤ a.granularity ∧ Space.isPowerOfTwo a.granularity = true
  fit : ∀ e ∈ p.parts, Space.fits p.axes e.1 = true
  inOrder : InOrder p.parts

theorem Sound.of_costs {p p' : Partition} (h : p.Sound) (haxes : p'.axes = p.axes)
    (hcosts : p'.costs = p.costs) : p'.Sound := by
  have hkeys : p'.parts.map (·.1) = p.parts.map (·.1) := by
    have := congrArg (List.map Prod.fst) hcosts
    simpa [Partition.costs, Function.comp_def] using this
  refine ⟨haxes ▸ h.cut, haxes ▸ h.granularity, fun e he => ?_, ?_⟩
  · have hmem : e.1 ∈ p'.parts.map (·.1) := List.mem_map_of_mem he
    obtain ⟨e', he', heq⟩ := List.mem_map.mp (hkeys ▸ hmem)
    rw [haxes, ← heq]
    exact h.fit e' he'
  · unfold InOrder
    rw [hkeys]
    exact h.inOrder

end Partition

namespace Space

variable {s s' t : Space}

/-- What holds of a space after any calls from the empty one. -/
structure Valid (s : Space) : Prop where
  wellFounded : s.WellFounded
  sound : ∀ p ∈ s.partitions, p.Sound

theorem valid_empty : empty.Valid := ⟨wellFounded_empty, fun _ hp => absurd hp List.not_mem_nil⟩

/-- Validity shows in the cuts of a space and in its parts. -/
theorem Valid.of_sameCuts (h : s.Valid) (hcuts : SameCuts s s') : s'.Valid := by
  refine ⟨h.wellFounded.of_frame hcuts.frame, fun p' hp' => ?_⟩
  obtain ⟨k, hk⟩ := List.mem_iff_getElem?.mp hp'
  rcases hcuts.partition? k with ⟨-, hnone⟩ | ⟨p, q, hp, hq, hcut, hcosts⟩
  · cases hnone.symm.trans hk
  · obtain rfl : p' = q := Option.some.inj (hk.symm.trans hq)
    exact (h.sound p (List.mem_of_getElem? hp)).of_costs (congrArg (·.2.2.2) hcut) hcosts

/-- What the ranks and parts of a space stand for stays. -/
structure Persists (s s' : Space) : Prop where
  dimension : ∀ (k : Nat) (d : Dimension), s.dimensions[k]? = some d →
    ∃ d', s'.dimensions[k]? = some d' ∧ d'.className = d.className ∧ d'.origin = d.origin
  partition : ∀ (k : Nat) (p : Partition), s.partitions[k]? = some p →
    ∃ p', s'.partitions[k]? = some p' ∧ p'.cut = p.cut ∧ p.costs ⊆ p'.costs

namespace Persists

protected theorem refl (s : Space) : Persists s s :=
  ⟨fun _ d hd => ⟨d, hd, rfl, rfl⟩, fun _ p hp => ⟨p, hp, rfl, List.Subset.refl _⟩⟩

protected theorem trans (h : Persists s s') (h' : Persists s' t) : Persists s t where
  dimension := by
    intro k d hd
    obtain ⟨d', hd', hC, ho⟩ := h.dimension k d hd
    obtain ⟨d'', hd'', hC', ho'⟩ := h'.dimension k d' hd'
    exact ⟨d'', hd'', hC'.trans hC, ho'.trans ho⟩
  partition := by
    intro k p hp
    obtain ⟨p', hp', hcut, hcosts⟩ := h.partition k p hp
    obtain ⟨p'', hp'', hcut', hcosts'⟩ := h'.partition k p' hp'
    exact ⟨p'', hp'', hcut'.trans hcut, List.Subset.trans hcosts hcosts'⟩

theorem of_sameCuts (h : SameCuts s s') : Persists s s' := by
  refine ⟨fun k d hd => dimension_of_frame h.frame hd, fun k p hp => ?_⟩
  rcases h.partition? k with ⟨hnone, -⟩ | ⟨p₀, q, hp₀, hq, hcut, hcosts⟩
  · cases hnone.symm.trans hp
  · obtain rfl : p = p₀ := Option.some.inj (hp.symm.trans hp₀)
    exact ⟨q, hq, hcut, hcosts ▸ List.Subset.refl _⟩

/-- More dimensions and partitions behind those there are. -/
theorem of_append (s : Space) (dimensions : List Dimension) (partitions : List Partition) :
    Persists s ⟨s.dimensions ++ dimensions, s.partitions ++ partitions⟩ where
  dimension := fun k d hd => ⟨d, by
    rw [List.getElem?_append_left (List.getElem?_eq_some_iff.mp hd).1, hd], rfl, rfl⟩
  partition := fun k p hp => ⟨p, by
    rw [List.getElem?_append_left (List.getElem?_eq_some_iff.mp hp).1, hp], rfl,
    List.Subset.refl _⟩

/-- A part that is there stays at its cost. -/
theorem part? (h : Persists s t) (ht : t.Valid) {part : Part} {e : PartEntry}
    (he : s.part? part = some e) : ∃ e', t.part? part = some e' ∧ e'.cost = e.cost := by
  obtain ⟨p, hp, hlookup⟩ := Option.bind_eq_some_iff.mp he
  obtain ⟨p', hp', -, hcosts⟩ := h.partition _ p hp
  have hmem : (part.indexes, e.cost) ∈ p'.costs :=
    hcosts (List.mem_map_of_mem (f := fun e => (e.1, e.2.cost)) (mem_of_lookup hlookup))
  obtain ⟨⟨indexes, e'⟩, he', heq⟩ := List.mem_map.mp hmem
  obtain ⟨rfl, hcost⟩ := Prod.mk.inj heq
  have hnodup := (ht.sound p' (List.mem_of_getElem? hp')).inOrder.nodup
  exact ⟨e', Option.bind_eq_some_iff.mpr ⟨p', hp', lookup_of_mem hnodup he'⟩, hcost⟩

end Persists

/-! ## Calls -/

/-- A call on a space. -/
inductive Operation where
  | fieldDimension (className field : String) (type : FieldType)
  | ruleDimension (rule : Rule)
  | partition (parentClass table : String) (type : FieldType) (axes : List Axis)
  | part (rank : Nat) (indexes : List Nat) (cost : Float)
  | usePart (part : Part)
  | resetUses
  | clearLevels
  | clearLinks

/-- What a call answers. -/
inductive Answer where
  | rank (k : Nat)
  | part (part : Part)
  | done

namespace Operation

/-- The answer of a call, with the space after it. -/
def apply (s : Space) : Operation → Except BuildError (Answer × Space)
  | fieldDimension className field type =>
    (s.addFieldDimension className field type).map fun (k, s') => (.rank k, s')
  | ruleDimension rule => (s.addRuleDimension rule).map fun (k, s') => (.rank k, s')
  | partition parentClass table type axes =>
    (s.addPartition parentClass table type axes).map fun (k, s') => (.rank k, s')
  | part rank indexes cost => (s.addPart rank indexes cost).map fun (q, s') => (.part q, s')
  | usePart q => .ok (.done, Space.usePart s.depth s q)
  | resetUses => .ok (.done, s.resetUses)
  | clearLevels => .ok (.done, s.clearLevels)
  | clearLinks => .ok (.done, s.clearLinks)

/-- The calls that register something. -/
def registers : Operation → Bool
  | fieldDimension .. | ruleDimension _ | partition .. | part .. => true
  | usePart _ | resetUses | clearLevels | clearLinks => false

/-- The rule of a new dimension only names parts of partitions that are registered. -/
def Allowed (s : Space) : Operation → Prop
  | ruleDimension rule => rule.PartsIn fun q => s.Registered q.partition
  | _ => True

end Operation

/-- The one entry of an image is found, if no image repeats. -/
theorem findIdx?_of_nodup {α β : Type} {f : α → β} {l : List α} {same : α → Bool} {key : β}
    (h : (l.map f).Nodup) (hsame : ∀ y, same y = true ↔ f y = key) {k : Nat} {x : α}
    (hx : l[k]? = some x) (hkey : f x = key) : l.findIdx? same = some k := by
  obtain ⟨hlt, rfl⟩ := List.getElem?_eq_some_iff.mp hx
  refine List.findIdx?_eq_some_iff_getElem.mpr ⟨hlt, (hsame _).mpr hkey, fun j hj hs => ?_⟩
  have hjk := rank_eq_of_nodup h (List.getElem?_eq_getElem (hj.trans hlt)) hx
    (((hsame _).mp hs).trans hkey.symm)
  exact hj.ne hjk

/-! ### Dimensions -/

section Dimensions

variable {same : Dimension → Bool} {C : String} {o : DimensionOrigin} {k : Nat}

theorem addFieldDimension_eq (s : Space) (C field : String) (type : FieldType) :
    s.addFieldDimension C field type = (checkDimension field type).map fun _ =>
      s.intern (isField C field) C (.field field type) := by
  unfold addFieldDimension
  cases checkDimension field type <;> rfl

/-- The check of a rule that is to be a dimension. -/
def checkRule (rule : Rule) : Except BuildError Unit := do
  checkDimension rule.name (← rule.resultType)

theorem addRuleDimension_eq (s : Space) (rule : Rule) :
    s.addRuleDimension rule = (checkRule rule).map fun _ =>
      s.intern (isRule rule) rule.className (.rule rule) := by
  unfold addRuleDimension checkRule
  cases rule.resultType with
  | error e => rfl
  | ok type =>
    simp only [bind, Except.bind]
    cases checkDimension rule.name type <;> rfl

theorem persists_intern (h : s.intern same C o = (k, s')) : Persists s s' := by
  unfold intern at h
  split at h
  · cases h
    exact .refl s
  · cases h
    exact (Persists.of_append s [⟨C, o, 0, none, none⟩] []).trans
      (.of_sameCuts ⟨by simp [frame], by simp⟩)

/-- The rank that is answered is that of a dimension which is alike. -/
theorem dimension_of_intern (hnew : same ⟨C, o, 0, none, none⟩ = true)
    (h : s.intern same C o = (k, s')) : ∃ d, s'.dimensions[k]? = some d ∧ same d = true := by
  unfold intern at h
  cases hfind : s.dimensions.findIdx? same with
  | some i =>
    rw [hfind] at h
    cases h
    obtain ⟨hlt, hsame, -⟩ := List.findIdx?_eq_some_iff_getElem.mp hfind
    exact ⟨_, List.getElem?_eq_getElem hlt, hsame⟩
  | none =>
    rw [hfind] at h
    cases h
    exact ⟨_, List.getElem?_concat_length, hnew⟩

/-- Where dimensions are told apart, one that is alike is found at its rank. -/
theorem intern_of_alike (hw : s.WellFounded)
    (hsame : ∀ d, same d = true ↔ d.identity = (⟨C, o, 0, none, none⟩ : Dimension).identity)
    {d : Dimension} (hd : s.dimensions[k]? = some d) (halike : same d = true) :
    s.intern same C o = (k, s) := by
  rw [intern, findIdx?_of_nodup hw.dimensions_nodup hsame hd ((hsame d).mp halike)]

end Dimensions

/-! ### Partitions -/

section Partitions

variable {parent table C : String} {type : FieldType} {axes : List Axis} {k : Nat}

/-- The class of the records of a table that is to be cut along axes. -/
def checkPartition (s : Space) (parent table : String) (type : FieldType) (axes : List Axis) :
    Except BuildError String :=
  match type with
  | .objectArray C =>
    if axes = [] then breach (.partition parent .noDimension)
    else
      match axes.findSome? (s.axisFault? C) with
      | some fault => breach (.partition parent fault)
      | none => .ok C
  | _ => breach (.partition parent (.notTable table))

/-- A partition without parts. -/
def freshPartition (C parent table : String) (axes : List Axis) : Partition :=
  { className := C, parentClass := parent, table, axes, parts := [], uses := 0,
    descriptorField := none, tableBlock := none, cells := axes.map fun _ => .none }

/-- The rank of the partition of a table along axes, registered as a new one if there is none. -/
def internPartition (s : Space) (C parent table : String) (axes : List Axis) : Nat × Space :=
  match s.partitions.findIdx? (isPartition parent table axes) with
  | some rank => (rank, s)
  | none =>
    (s.partitions.length,
      { s with partitions := s.partitions ++ [freshPartition C parent table axes] })

theorem addPartition_eq (s : Space) (parent table : String) (type : FieldType) (axes : List Axis) :
    s.addPartition parent table type axes = (s.checkPartition parent table type axes).map fun C =>
      s.internPartition C parent table axes := by
  unfold addPartition checkPartition internPartition
  cases type with
  | objectArray C =>
    dsimp only
    by_cases hne : axes = []
    · rw [if_pos hne, if_pos hne]
      rfl
    · rw [if_neg hne, if_neg hne]
      cases axes.findSome? (s.axisFault? C) with
      | some fault => rfl
      | none => cases s.partitions.findIdx? (isPartition parent table axes) <;> rfl
  | _ => rfl

theorem checkPartition_eq_ok : s.checkPartition parent table type axes = .ok C ↔
    type = .objectArray C ∧ axes ≠ [] ∧ ∀ a ∈ axes, s.axisFault? C a = none := by
  cases type with
  | objectArray D =>
    unfold checkPartition
    by_cases hne : axes = []
    · simp [hne, breach]
    · cases hfault : axes.findSome? (s.axisFault? D) with
      | some fault =>
        obtain ⟨a, ha, hsome⟩ := List.exists_of_findSome?_eq_some hfault
        simp only [if_neg hne, hfault, breach]
        constructor
        · intro h
          cases h
        · rintro ⟨hD, -, hnone⟩
          cases hD
          cases hsome.symm.trans (hnone a ha)
      | none =>
        have hnone := List.findSome?_eq_none_iff.mp hfault
        simp only [if_neg hne, hfault, Except.ok.injEq, FieldType.objectArray.injEq]
        exact ⟨fun h => ⟨h, hne, h ▸ hnone⟩, fun h => h.1⟩
  | _ => simp [checkPartition, breach]

/-- An axis without a fault cuts along a dimension of the class, at a power of two. -/
theorem axisFault?_eq_none {a : Axis} : s.axisFault? C a = none ↔
    (∃ d, s.dimensions[a.dimension]? = some d ∧ d.className = C) ∧
      2 ≤ a.granularity ∧ isPowerOfTwo a.granularity = true := by
  unfold axisFault?
  cases s.dimensions[a.dimension]? with
  | none => simp
  | some d =>
    simp only [Option.some.injEq, exists_eq_left', ← Nat.not_lt]
    by_cases hC : d.className = C <;> by_cases hlow : a.granularity < 2 <;>
      cases hpower : isPowerOfTwo a.granularity <;> simp [hC, hlow]

theorem axisFault?_of_persists (h : Persists s t) {a : Axis} (hfault : s.axisFault? C a = none) :
    t.axisFault? C a = none := by
  obtain ⟨⟨d, hd, hC⟩, hgranularity⟩ := axisFault?_eq_none.mp hfault
  obtain ⟨d', hd', hC', -⟩ := h.dimension _ d hd
  exact axisFault?_eq_none.mpr ⟨⟨d', hd', hC'.trans hC⟩, hgranularity⟩

theorem persists_internPartition (h : s.internPartition C parent table axes = (k, s')) :
    Persists s s' := by
  unfold internPartition at h
  split at h
  · cases h
    exact .refl s
  · cases h
    exact (Persists.of_append s [] [freshPartition C parent table axes]).trans
      (.of_sameCuts ⟨by simp [frame], by simp⟩)

theorem partition_of_intern (h : s.internPartition C parent table axes = (k, s')) :
    ∃ p, s'.partitions[k]? = some p ∧ isPartition parent table axes p = true := by
  unfold internPartition at h
  cases hfind : s.partitions.findIdx? (isPartition parent table axes) with
  | some i =>
    rw [hfind] at h
    cases h
    obtain ⟨hlt, hsame, -⟩ := List.findIdx?_eq_some_iff_getElem.mp hfind
    exact ⟨_, List.getElem?_eq_getElem hlt, hsame⟩
  | none =>
    rw [hfind] at h
    cases h
    exact ⟨_, List.getElem?_concat_length,
      (@isPartition_iff _ (freshPartition C parent table axes)).mpr rfl⟩

/-- Where partitions are told apart, one that is alike is found at its rank. -/
theorem internPartition_of_alike (hw : s.WellFounded) {p : Partition}
    (hp : s.partitions[k]? = some p) (halike : isPartition parent table axes p = true) :
    s.internPartition C parent table axes = (k, s) := by
  have hsame : ∀ q, isPartition parent table axes q = true ↔
      q.identity = (freshPartition C parent table axes).identity :=
    fun q => @isPartition_iff q (freshPartition C parent table axes)
  rw [internPartition, findIdx?_of_nodup hw.partitions_nodup hsame hp ((hsame p).mp halike)]

/-- The new partition is sound. -/
theorem sound_freshPartition (h : s.checkPartition parent table type axes = .ok C) :
    (freshPartition C parent table axes).Sound where
  cut := (checkPartition_eq_ok.mp h).2.1
  granularity := fun a ha => (axisFault?_eq_none.mp ((checkPartition_eq_ok.mp h).2.2 a ha)).2
  fit := fun _ he => absurd he List.not_mem_nil
  inOrder := List.Pairwise.nil

end Partitions

/-! ### Parts -/

section Parts

variable {rank : Nat} {indexes : List Nat} {cost : Float} {part : Part}

theorem addPart_eq_ok_iff : s.addPart rank indexes cost = .ok (part, s') ↔
    ∃ p, s.partitions[rank]? = some p ∧ fits p.axes indexes = true ∧ part = ⟨rank, indexes⟩ ∧
      s' = s.modifyPartition rank fun p =>
        { p with parts := Partition.insertPart indexes cost p.parts } := by
  unfold addPart
  cases s.partitions[rank]? with
  | none => simp [breach]
  | some p =>
    cases hfits : fits p.axes indexes with
    | false => simp [breach, hfits]
    | true =>
      simp only [hfits, if_true, Except.ok.injEq, Prod.mk.injEq, Option.some.injEq]
      constructor
      · rintro ⟨rfl, rfl⟩
        exact ⟨p, rfl, hfits, rfl, rfl⟩
      · rintro ⟨q, -, -, rfl, rfl⟩
        exact ⟨rfl, rfl⟩

theorem getElem?_modifyPartition (s : Space) (rank k : Nat) (change : Partition → Partition) :
    (s.modifyPartition rank change).partitions[k]? =
      if rank = k then s.partitions[k]?.map change else s.partitions[k]? := by
  rw [modifyPartition, List.getElem?_modify]
  split
  · rfl
  · exact Option.map_id'

theorem persists_addPart (h : s.addPart rank indexes cost = .ok (part, s')) : Persists s s' := by
  obtain ⟨-, -, -, -, rfl⟩ := addPart_eq_ok_iff.mp h
  refine ⟨fun k d hd => ⟨d, hd, rfl, rfl⟩, fun k p hp => ?_⟩
  rw [getElem?_modifyPartition, hp]
  by_cases hk : rank = k
  · rw [if_pos hk]
    exact ⟨_, rfl, rfl, List.map_subset _ fun e he => Partition.mem_insertPart_of_mem he⟩
  · rw [if_neg hk]
    exact ⟨p, rfl, rfl, List.Subset.refl _⟩

theorem sound_addPart (hs : ∀ p ∈ s.partitions, p.Sound)
    (h : s.addPart rank indexes cost = .ok (part, s')) : ∀ p ∈ s'.partitions, p.Sound := by
  obtain ⟨p₀, hp₀, hfits, -, rfl⟩ := addPart_eq_ok_iff.mp h
  intro p hp
  obtain ⟨k, hk⟩ := List.mem_iff_getElem?.mp hp
  rw [getElem?_modifyPartition] at hk
  split at hk
  · rename_i hrank
    subst hrank
    rw [hp₀] at hk
    cases hk
    have hsound := hs p₀ (List.mem_of_getElem? hp₀)
    refine ⟨hsound.cut, hsound.granularity, fun e he => ?_, hsound.inOrder.insertPart⟩
    rcases mem_insertPart he with he | he
    · exact hsound.fit e he
    · exact he ▸ hfits
  · exact hs p (List.mem_of_getElem? hk)

end Parts

/-! ## Any call -/

theorem sameCuts_clearLevels (s : Space) : SameCuts s s.clearLevels :=
  ⟨by simp [frame, clearLevels, Function.comp_def], rfl⟩

namespace Operation

variable {op : Operation} {x : Answer}

theorem exists_of_map_eq_ok {α β : Type} {m : Except BuildError α} {f : α → β} {y : β}
    (h : m.map f = .ok y) : ∃ a, m = .ok a ∧ f a = y := by
  cases m with
  | ok a => exact ⟨a, rfl, Except.ok.inj h⟩
  | error e => cases h

/-- A call keeps what ranks and parts stand for. -/
theorem persists (h : op.apply s = .ok (x, s')) : Persists s s' := by
  cases op with
  | fieldDimension C field type =>
    obtain ⟨⟨k, s₁⟩, h, heq⟩ := exists_of_map_eq_ok h
    cases heq
    exact persists_intern (addFieldDimension_eq_ok h)
  | ruleDimension rule =>
    obtain ⟨⟨k, s₁⟩, h, heq⟩ := exists_of_map_eq_ok h
    cases heq
    exact persists_intern (addRuleDimension_eq_ok h)
  | partition parent table type axes =>
    obtain ⟨⟨k, s₁⟩, h, heq⟩ := exists_of_map_eq_ok h
    cases heq
    rw [addPartition_eq] at h
    obtain ⟨C, -, h⟩ := exists_of_map_eq_ok h
    exact persists_internPartition h
  | part rank indexes cost =>
    obtain ⟨⟨q, s₁⟩, h, heq⟩ := exists_of_map_eq_ok h
    cases heq
    exact persists_addPart h
  | usePart q =>
    cases h
    exact .of_sameCuts (sameCuts_of_reset (resetUses_usePart _ _ _))
  | resetUses =>
    cases h
    exact .of_sameCuts (sameCuts_of_reset (resetUses_resetUses s))
  | clearLevels =>
    cases h
    exact .of_sameCuts (sameCuts_clearLevels s)
  | clearLinks =>
    cases h
    exact .of_sameCuts (sameCuts_clearLinks s)

/-- A call keeps a space valid. -/
theorem valid (hs : s.Valid) (hallowed : op.Allowed s) (h : op.apply s = .ok (x, s')) :
    s'.Valid := by
  cases op with
  | fieldDimension C field type =>
    obtain ⟨⟨k, s₁⟩, h, heq⟩ := exists_of_map_eq_ok h
    cases heq
    exact ⟨hs.wellFounded.addFieldDimension h,
      partitions_intern (addFieldDimension_eq_ok h) ▸ hs.sound⟩
  | ruleDimension rule =>
    obtain ⟨⟨k, s₁⟩, h, heq⟩ := exists_of_map_eq_ok h
    cases heq
    exact ⟨hs.wellFounded.addRuleDimension
      (fun part hpart => lt_of_registered (hallowed part hpart)) h,
      partitions_intern (addRuleDimension_eq_ok h) ▸ hs.sound⟩
  | partition parent table type axes =>
    obtain ⟨⟨k, s₁⟩, h, heq⟩ := exists_of_map_eq_ok h
    cases heq
    refine ⟨hs.wellFounded.addPartition h, ?_⟩
    rw [addPartition_eq] at h
    obtain ⟨C, hcheck, h⟩ := exists_of_map_eq_ok h
    unfold internPartition at h
    split at h
    · cases h
      exact hs.sound
    · cases h
      intro p hp
      rcases List.mem_append.mp hp with hp | hp
      · exact hs.sound p hp
      · rw [List.mem_singleton.mp hp]
        exact sound_freshPartition hcheck
  | part rank indexes cost =>
    obtain ⟨⟨q, s₁⟩, h, heq⟩ := exists_of_map_eq_ok h
    cases heq
    exact ⟨hs.wellFounded.addPart h, sound_addPart hs.sound h⟩
  | usePart q =>
    cases h
    exact hs.of_sameCuts (sameCuts_of_reset (resetUses_usePart _ _ _))
  | resetUses =>
    cases h
    exact hs.of_sameCuts (sameCuts_of_reset (resetUses_resetUses s))
  | clearLevels =>
    cases h
    exact hs.of_sameCuts (sameCuts_clearLevels s)
  | clearLinks =>
    cases h
    exact hs.of_sameCuts (sameCuts_clearLinks s)

/-! ### The same call again -/

/-- What is to be registered is there already, under the answer. -/
def Answered (s : Space) : Operation → Answer → Prop
  | fieldDimension C field type, .rank k =>
    checkDimension field type = .ok () ∧ ∃ d, s.dimensions[k]? = some d ∧ isField C field d = true
  | ruleDimension rule, .rank k =>
    checkRule rule = .ok () ∧ ∃ d, s.dimensions[k]? = some d ∧ isRule rule d = true
  | partition parent table type axes, .rank k =>
    (∃ C, s.checkPartition parent table type axes = .ok C) ∧
      ∃ p, s.partitions[k]? = some p ∧ isPartition parent table axes p = true
  | part rank indexes _, .part q =>
    q = ⟨rank, indexes⟩ ∧ ∃ p, s.partitions[rank]? = some p ∧ fits p.axes indexes = true ∧
      indexes ∈ p.parts.map (·.1)
  | _, _ => False

theorem answered (hregisters : op.registers = true) (h : op.apply s = .ok (x, s')) :
    op.Answered s' x := by
  cases op with
  | fieldDimension C field type =>
    obtain ⟨⟨k, s₁⟩, h, heq⟩ := exists_of_map_eq_ok h
    cases heq
    rw [addFieldDimension_eq] at h
    obtain ⟨⟨⟩, hcheck, h⟩ := exists_of_map_eq_ok h
    exact ⟨hcheck, dimension_of_intern ((isField_iff rfl rfl).mpr rfl) h⟩
  | ruleDimension rule =>
    obtain ⟨⟨k, s₁⟩, h, heq⟩ := exists_of_map_eq_ok h
    cases heq
    rw [addRuleDimension_eq] at h
    obtain ⟨⟨⟩, hcheck, h⟩ := exists_of_map_eq_ok h
    exact ⟨hcheck, dimension_of_intern ((isRule_iff rfl rfl).mpr rfl) h⟩
  | partition parent table type axes =>
    obtain ⟨⟨k, s₁⟩, h, heq⟩ := exists_of_map_eq_ok h
    cases heq
    rw [addPartition_eq] at h
    obtain ⟨C, hcheck, h⟩ := exists_of_map_eq_ok h
    obtain ⟨htype, hne, hfault⟩ := checkPartition_eq_ok.mp hcheck
    refine ⟨⟨C, checkPartition_eq_ok.mpr ⟨htype, hne, fun a ha => ?_⟩⟩, partition_of_intern h⟩
    exact axisFault?_of_persists (persists_internPartition h) (hfault a ha)
  | part rank indexes cost =>
    obtain ⟨⟨q, s₁⟩, h, heq⟩ := exists_of_map_eq_ok h
    cases heq
    obtain ⟨p, hp, hfits, rfl, rfl⟩ := addPart_eq_ok_iff.mp h
    refine ⟨rfl, { p with parts := Partition.insertPart indexes cost p.parts }, ?_, hfits,
      Partition.mem_keys_insertPart indexes cost p.parts⟩
    rw [modifyPartition, List.getElem?_modify_eq, hp]
    rfl
  | usePart | resetUses | clearLevels | clearLinks => cases hregisters

theorem Answered.of_persists (hst : Persists s t) (h : op.Answered s x) : op.Answered t x := by
  have hdimension : ∀ {k : Nat} {same : Dimension → Bool} {id : String × (String ⊕ Signature)},
      (∀ d : Dimension, same d = true ↔ d.identity = id) →
      (∃ d, s.dimensions[k]? = some d ∧ same d = true) →
        ∃ d, t.dimensions[k]? = some d ∧ same d = true := by
    rintro k same id hsame ⟨d, hd, halike⟩
    obtain ⟨d', hd', hC, ho⟩ := hst.dimension k d hd
    refine ⟨d', hd', (hsame d').mpr (Eq.trans ?_ ((hsame d).mp halike))⟩
    rw [Dimension.identity, Dimension.identity, hC, ho]
  cases op with
  | fieldDimension C field type =>
    cases x with
    | rank k =>
      exact ⟨h.1, hdimension (fun d => isField_iff
        (show (⟨C, .field field type, 0, none, none⟩ : Dimension).className = C from rfl) rfl) h.2⟩
    | part | done => cases h
  | ruleDimension rule =>
    cases x with
    | rank k =>
      exact ⟨h.1, hdimension (fun d => isRule_iff
        (show (⟨rule.className, .rule rule, 0, none, none⟩ : Dimension).className = _ from rfl)
        rfl) h.2⟩
    | part | done => cases h
  | partition parent table type axes =>
    cases x with
    | rank k =>
      obtain ⟨⟨C, hcheck⟩, p, hp, halike⟩ := h
      obtain ⟨htype, hne, hfault⟩ := checkPartition_eq_ok.mp hcheck
      obtain ⟨p', hp', hcut, -⟩ := hst.partition k p hp
      refine ⟨⟨C, checkPartition_eq_ok.mpr ⟨htype, hne, fun a ha =>
        axisFault?_of_persists hst (hfault a ha)⟩⟩, p', hp', ?_⟩
      simp only [Partition.cut, Prod.mk.injEq] at hcut
      unfold isPartition at halike ⊢
      rw [hcut.2.1, hcut.2.2.1, hcut.2.2.2, halike]
    | part | done => cases h
  | part rank indexes cost =>
    cases x with
    | part q =>
      obtain ⟨rfl, p, hp, hfits, hmem⟩ := h
      obtain ⟨p', hp', hcut, hcosts⟩ := hst.partition rank p hp
      have haxes : p'.axes = p.axes := congrArg (·.2.2.2) hcut
      obtain ⟨e, he, rfl⟩ := List.mem_map.mp hmem
      have hmem' := hcosts (List.mem_map_of_mem (f := fun e => (e.1, e.2.cost)) he)
      obtain ⟨e', he', heq⟩ := List.mem_map.mp hmem'
      refine ⟨rfl, p', hp', haxes ▸ hfits, ?_⟩
      exact congrArg Prod.fst heq ▸ List.mem_map_of_mem (f := (·.1)) he'
    | rank | done => cases h
  | usePart | resetUses | clearLevels | clearLinks => cases h

/-- A call whose answer is there finds it and changes nothing. -/
theorem apply_of_answered (hs : s.Valid) (h : op.Answered s x) : op.apply s = .ok (x, s) := by
  cases op with
  | fieldDimension C field type =>
    cases x with
    | rank k =>
      obtain ⟨hcheck, d, hd, halike⟩ := h
      rw [apply, addFieldDimension_eq, hcheck]
      simp only [Except.map]
      rw [intern_of_alike hs.wellFounded (fun d => isField_iff rfl rfl) hd halike]
    | part | done => cases h
  | ruleDimension rule =>
    cases x with
    | rank k =>
      obtain ⟨hcheck, d, hd, halike⟩ := h
      rw [apply, addRuleDimension_eq, hcheck]
      simp only [Except.map]
      rw [intern_of_alike hs.wellFounded (fun d => isRule_iff rfl rfl) hd halike]
    | part | done => cases h
  | partition parent table type axes =>
    cases x with
    | rank k =>
      obtain ⟨⟨C, hcheck⟩, p, hp, halike⟩ := h
      rw [apply, addPartition_eq, hcheck]
      simp only [Except.map]
      rw [internPartition_of_alike hs.wellFounded hp halike]
    | part | done => cases h
  | part rank indexes cost =>
    cases x with
    | part q =>
      obtain ⟨rfl, p, hp, hfits, hmem⟩ := h
      have hsame : s.modifyPartition rank (fun p =>
          { p with parts := Partition.insertPart indexes cost p.parts }) = s := by
        have hinsert : Partition.insertPart indexes cost p.parts = p.parts :=
          Partition.insertPart_of_mem (hs.sound p (List.mem_of_getElem? hp)).inOrder hmem
        refine congrArg (Space.mk s.dimensions) (List.ext_getElem? fun k => ?_)
        refine (getElem?_modifyPartition s rank k _).trans ?_
        split
        · rename_i hk
          subst hk
          rw [hp, Option.map_some, hinsert]
        · rfl
      rw [apply, addPart_eq_ok_iff.mpr ⟨p, hp, hfits, rfl, rfl⟩, hsame]
      rfl
    | rank | done => cases h
  | usePart | resetUses | clearLevels | clearLinks => cases h

/-- A call that registered something answers the same in every valid space where that persists, and
changes nothing. -/
theorem again (hregisters : op.registers = true) (h : op.apply s = .ok (x, s'))
    (hst : Persists s' t) (ht : t.Valid) : op.apply t = .ok (x, t) :=
  apply_of_answered ht ((answered hregisters h).of_persists hst)

end Operation

end Space

end FeatureSynth
