/-
# Well-founded spaces

The rule of a dimension only selects on partitions registered before it, so every
way from a rule through its parts to the rules of dimensions, and on, ends.
Registration keeps that, and it keeps dimensions and partitions apart: equal ranks
are equal structures.

Most of a space is not registered but learnt later: use counts, levels and links
to a schema in work.  The *frame* of a space is what registration fixed of its
dimensions and partitions; spaces of one frame are well founded together.
-/
import Mathlib.Data.List.Nodup
import FeatureSynth.Proofs.Rule.Signature

namespace FeatureSynth

/-! ## Identity -/

/-- What tells dimensions apart: the class, and the name of the field or the signature of the
rule. -/
def Dimension.identity (d : Dimension) : String × (String ⊕ Signature) :=
  (d.className,
    match d.origin with
    | .field name _ => .inl name
    | .rule r => .inr r.signature)

/-- What tells partitions apart. -/
def Partition.identity (p : Partition) : String × String × List Axis :=
  (p.parentClass, p.table, p.axes)

namespace Space

theorem isField_iff {C name : String} {type : FieldType} {d new : Dimension}
    (hC : new.className = C) (ho : new.origin = .field name type) :
    isField C name d = true ↔ d.identity = new.identity := by
  obtain ⟨D, origin, _, _, _⟩ := d
  cases origin with
  | field n t => simp [isField, Dimension.identity, hC, ho]
  | rule r => simp [isField, Dimension.identity, ho]

theorem isRule_iff {rule : Rule} {d new : Dimension} (hC : new.className = rule.className)
    (ho : new.origin = .rule rule) : isRule rule d = true ↔ d.identity = new.identity := by
  obtain ⟨D, origin, _, _, _⟩ := d
  cases origin with
  | field n t => simp [isRule, Dimension.identity, ho]
  | rule r => simp [isRule, Dimension.identity, hC, ho, Signature.compare_eq_iff]

theorem isPartition_iff {p new : Partition} :
    isPartition new.parentClass new.table new.axes p = true ↔ p.identity = new.identity := by
  simp [isPartition, Partition.identity, and_assoc]

/-! ## Well-foundedness -/

/-- Dimensions and partitions are told apart, partitions cut along dimensions of their class, and
the rule of a dimension selects on dimensions registered before it. -/
structure WellFounded (s : Space) : Prop where
  dimensions_nodup : (s.dimensions.map Dimension.identity).Nodup
  partitions_nodup : (s.partitions.map Partition.identity).Nodup
  axis_dimension : ∀ p ∈ s.partitions, ∀ a ∈ p.axes,
    ∃ d, s.dimensions[a.dimension]? = some d ∧ d.className = p.className
  earlier : ∀ (k : Nat) (d : Dimension) (r : Rule), s.dimensions[k]? = some d →
    d.origin = .rule r → ∀ part ∈ r.parts,
      ∃ p, s.partitions[part.partition]? = some p ∧ ∀ a ∈ p.axes, a.dimension < k

/-- A partition cuts along dimensions registered before a bound. -/
def Below (s : Space) (bound rank : Nat) : Prop :=
  ∀ p, s.partitions[rank]? = some p → ∀ a ∈ p.axes, a.dimension < bound

/-- Entries with one image are at one position, if no image repeats. -/
theorem rank_eq_of_nodup {α β : Type} {f : α → β} {l : List α} (h : (l.map f).Nodup) {i j : Nat}
    {x y : α} (hx : l[i]? = some x) (hy : l[j]? = some y) (hxy : f x = f y) : i = j := by
  have hi : i < (l.map f).length := by
    rw [List.length_map]
    exact (List.getElem?_eq_some_iff.mp hx).1
  refine (List.getElem?_inj hi h).mp ?_
  rw [List.getElem?_map, List.getElem?_map, hx, hy, Option.map_some, Option.map_some, hxy]

namespace WellFounded

variable {s s' : Space}

theorem dimension_unique (h : s.WellFounded) {i j : Nat} {d e : Dimension}
    (hd : s.dimensions[i]? = some d) (he : s.dimensions[j]? = some e)
    (hde : d.identity = e.identity) : i = j :=
  rank_eq_of_nodup h.dimensions_nodup hd he hde

theorem partition_unique (h : s.WellFounded) {i j : Nat} {p q : Partition}
    (hp : s.partitions[i]? = some p) (hq : s.partitions[j]? = some q)
    (hpq : p.identity = q.identity) : i = j :=
  rank_eq_of_nodup h.partitions_nodup hp hq hpq

theorem axis_lt (h : s.WellFounded) {p : Partition} (hp : p ∈ s.partitions) {a : Axis}
    (ha : a ∈ p.axes) : a.dimension < s.dimensions.length := by
  obtain ⟨d, hd, -⟩ := h.axis_dimension p hp a ha
  exact (List.getElem?_eq_some_iff.mp hd).1

theorem below_length (h : s.WellFounded) (rank : Nat) : s.Below s.dimensions.length rank :=
  fun _ hp _ ha => h.axis_lt (List.mem_of_getElem? hp) ha

theorem below_depth (h : s.WellFounded) (rank : Nat) : s.Below s.depth rank :=
  fun p hp a ha => Nat.lt_succ_of_lt (h.below_length rank p hp a ha)

/-- The rule of a dimension within a bound selects below it. -/
theorem below_of_earlier (h : s.WellFounded) {k bound : Nat} {d : Dimension} {r : Rule}
    {part : Part} (hk : k < bound + 1) (hd : s.dimensions[k]? = some d) (ho : d.origin = .rule r)
    (hpart : part ∈ r.parts) : s.Below bound part.partition := by
  intro p hp a ha
  obtain ⟨q, hq, hlt⟩ := h.earlier k d r hd ho part hpart
  obtain rfl : p = q := Option.some.inj (hp.symm.trans hq)
  have := hlt a ha
  omega

end WellFounded

/-! ## Registration -/

theorem wellFounded_empty : empty.WellFounded where
  dimensions_nodup := List.nodup_nil
  partitions_nodup := List.nodup_nil
  axis_dimension := by simp [empty]
  earlier := by simp [empty]

namespace WellFounded

variable {s s' : Space} {rank : Nat}

/-- An entry that none before is like can be appended to entries that are told apart. -/
theorem nodup_append_of_findIdx? {α β : Type} {f : α → β} {l : List α} {x : α} {same : α → Bool}
    (h : (l.map f).Nodup) (hsame : ∀ y, same y = true ↔ f y = f x)
    (hnone : l.findIdx? same = none) : ((l ++ [x]).map f).Nodup := by
  rw [List.map_append, List.map_singleton, List.nodup_append]
  refine ⟨h, by simp, ?_⟩
  intro _ himage _ hx heq
  obtain ⟨y, hy, rfl⟩ := List.mem_map.mp himage
  rw [List.mem_singleton.mp hx] at heq
  exact Bool.false_ne_true ((List.findIdx?_eq_none_iff.mp hnone y hy).symm.trans
    ((hsame y).mpr heq))

/-- A dimension that its `same` tells from all others, and whose rule selects on what is
registered. -/
theorem intern (h : s.WellFounded) {same : Dimension → Bool} {C : String} {o : DimensionOrigin}
    (hsame : ∀ d, same d = true ↔ d.identity = (⟨C, o, 0, none, none⟩ : Dimension).identity)
    (hparts : ∀ r, o = .rule r → ∀ part ∈ r.parts, part.partition < s.partitions.length) :
    (s.intern same C o).2.WellFounded := by
  unfold Space.intern
  cases hfind : s.dimensions.findIdx? same with
  | some i => exact h
  | none =>
    have hold : ∀ {k : Nat} {d : Dimension}, s.dimensions[k]? = some d →
        (s.dimensions ++ [⟨C, o, 0, none, none⟩])[k]? = some d := by
      intro k d hd
      rw [List.getElem?_append_left (List.getElem?_eq_some_iff.mp hd).1, hd]
    refine ⟨nodup_append_of_findIdx? h.dimensions_nodup hsame hfind, h.partitions_nodup, ?_, ?_⟩
    · intro p hp a ha
      obtain ⟨d, hd, hC⟩ := h.axis_dimension p hp a ha
      exact ⟨d, hold hd, hC⟩
    · intro k d r hd ho part hpart
      rcases Nat.lt_or_ge k s.dimensions.length with hk | hk
      · rw [List.getElem?_append_left hk] at hd
        exact h.earlier k d r hd ho part hpart
      · rw [List.getElem?_append_right hk, List.getElem?_singleton] at hd
        split at hd
        · cases hd
          have hlt := hparts r ho part hpart
          refine ⟨s.partitions[part.partition], List.getElem?_eq_getElem hlt, fun a ha => ?_⟩
          have := h.axis_lt (List.getElem_mem hlt) ha
          omega
        · cases hd

theorem addFieldDimension (h : s.WellFounded) {C field : String} {type : FieldType}
    (hadd : s.addFieldDimension C field type = .ok (rank, s')) : s'.WellFounded := by
  unfold Space.addFieldDimension at hadd
  cases hcheck : checkDimension field type with
  | error e => rw [hcheck] at hadd; cases hadd
  | ok u =>
    rw [hcheck] at hadd
    obtain rfl : (s.intern (isField C field) C (.field field type)).2 = s' :=
      congrArg Prod.snd (Except.ok.inj hadd)
    exact h.intern (fun d => isField_iff rfl rfl) (fun r ho => by cases ho)

/-- The rule of a new dimension may only select on partitions that are registered. -/
theorem addRuleDimension (h : s.WellFounded) {rule : Rule}
    (hparts : ∀ part ∈ rule.parts, part.partition < s.partitions.length)
    (hadd : s.addRuleDimension rule = .ok (rank, s')) : s'.WellFounded := by
  unfold Space.addRuleDimension at hadd
  cases htype : rule.resultType with
  | error e => rw [htype] at hadd; cases hadd
  | ok type =>
    rw [htype] at hadd
    cases hcheck : checkDimension rule.name type with
    | error e =>
      simp only [hcheck, bind, Except.bind] at hadd
      cases hadd
    | ok u =>
      simp only [hcheck, bind, Except.bind] at hadd
      obtain rfl : (s.intern (isRule rule) rule.className (.rule rule)).2 = s' :=
        congrArg Prod.snd (Except.ok.inj hadd)
      exact h.intern (fun d => isRule_iff rfl rfl) (fun r ho => by cases ho; exact hparts)

theorem addPartition (h : s.WellFounded) {C table : String} {type : FieldType} {axes : List Axis}
    (hadd : s.addPartition C table type axes = .ok (rank, s')) : s'.WellFounded := by
  unfold Space.addPartition at hadd
  split at hadd
  · rename_i className
    split at hadd
    · cases hadd
    · split at hadd
      · cases hadd
      · rename_i hfault
        split at hadd
        · cases hadd
          exact h
        · rename_i hfind
          cases hadd
          refine ⟨h.dimensions_nodup, nodup_append_of_findIdx? h.partitions_nodup
            (fun p => isPartition_iff) hfind, ?_, ?_⟩
          · intro p hp a ha
            rcases List.mem_append.mp hp with hp | hp
            · exact h.axis_dimension p hp a ha
            · rw [List.mem_singleton.mp hp] at ha ⊢
              have hax := List.findSome?_eq_none_iff.mp hfault a ha
              unfold axisFault? at hax
              split at hax
              · cases hax
              · rename_i d hd
                split at hax
                · cases hax
                · rename_i hC
                  exact ⟨d, hd, not_not.mp hC⟩
          · intro k d r hd ho part hpart
            obtain ⟨p, hp, hlt⟩ := h.earlier k d r hd ho part hpart
            refine ⟨p, ?_, hlt⟩
            rw [List.getElem?_append_left (List.getElem?_eq_some_iff.mp hp).1, hp]
  · cases hadd

end WellFounded

/-! ## Frames -/

/-- What registration fixed of the dimensions and partitions. -/
def frame (s : Space) :
    List (String × DimensionOrigin) × List (String × String × String × List Axis) :=
  (s.dimensions.map fun d => (d.className, d.origin),
    s.partitions.map fun p => (p.className, p.parentClass, p.table, p.axes))

section Frame

variable {s s' : Space}

theorem dimension_of_frame (h : s'.frame = s.frame) {k : Nat} {d : Dimension}
    (hd : s.dimensions[k]? = some d) :
    ∃ d', s'.dimensions[k]? = some d' ∧ d'.className = d.className ∧ d'.origin = d.origin := by
  have hk := congrArg (·[k]?) (congrArg Prod.fst h)
  simp only [frame, List.getElem?_map, hd, Option.map_some, Option.map_eq_some_iff] at hk
  obtain ⟨d', hd', heq⟩ := hk
  exact ⟨d', hd', congrArg Prod.fst heq, congrArg Prod.snd heq⟩

theorem partition_of_frame (h : s'.frame = s.frame) {k : Nat} {p : Partition}
    (hp : s.partitions[k]? = some p) :
    ∃ p', s'.partitions[k]? = some p' ∧ p'.className = p.className ∧
      p'.axes = p.axes := by
  have hk := congrArg (·[k]?) (congrArg Prod.snd h)
  simp only [frame, List.getElem?_map, hp, Option.map_some, Option.map_eq_some_iff] at hk
  obtain ⟨p', hp', heq⟩ := hk
  exact ⟨p', hp', congrArg Prod.fst heq, congrArg (·.2.2.2) heq⟩

theorem dimension_identities_of_frame (h : s'.frame = s.frame) :
    s'.dimensions.map Dimension.identity = s.dimensions.map Dimension.identity := by
  have hids := congrArg (List.map fun x : String × DimensionOrigin =>
    (⟨x.1, x.2, 0, none, none⟩ : Dimension).identity) (congrArg Prod.fst h)
  rwa [frame, frame, List.map_map, List.map_map] at hids

theorem partition_identities_of_frame (h : s'.frame = s.frame) :
    s'.partitions.map Partition.identity = s.partitions.map Partition.identity := by
  have hids := congrArg (List.map Prod.snd) (congrArg Prod.snd h)
  rwa [frame, frame, List.map_map, List.map_map] at hids

/-- Spaces of one frame are well founded together. -/
theorem WellFounded.of_frame (hw : s.WellFounded) (h : s'.frame = s.frame) : s'.WellFounded where
  dimensions_nodup := dimension_identities_of_frame h ▸ hw.dimensions_nodup
  partitions_nodup := partition_identities_of_frame h ▸ hw.partitions_nodup
  axis_dimension := by
    intro p' hp' a ha
    obtain ⟨i, hi⟩ := List.mem_iff_getElem?.mp hp'
    obtain ⟨p, hp, hC, haxes⟩ := partition_of_frame h.symm hi
    obtain ⟨d, hd, hdC⟩ := hw.axis_dimension p (List.mem_of_getElem? hp) a (haxes ▸ ha)
    obtain ⟨d', hd', hC', -⟩ := dimension_of_frame h hd
    exact ⟨d', hd', (hC'.trans hdC).trans hC⟩
  earlier := by
    intro k d' r hd' ho part hpart
    obtain ⟨d, hd, -, ho'⟩ := dimension_of_frame h.symm hd'
    obtain ⟨p, hp, hlt⟩ := hw.earlier k d r hd (ho'.trans ho) part hpart
    obtain ⟨p', hp', -, haxes⟩ := partition_of_frame h hp
    exact ⟨p', hp', haxes ▸ hlt⟩

theorem map_modify_of_comp {α β : Type} {g : α → β} {f : α → α} (h : ∀ x, g (f x) = g x) :
    ∀ (l : List α) (i : Nat), (l.modify i f).map g = l.map g
  | [], i => by simp
  | x :: l, 0 => by simp [h]
  | x :: l, i + 1 => by simp [map_modify_of_comp h l i]

theorem frame_modifyDimension {change : Dimension → Dimension} (s : Space) (k : Nat)
    (h : ∀ d, (change d).className = d.className ∧ (change d).origin = d.origin) :
    (s.modifyDimension k change).frame = s.frame := by
  have := map_modify_of_comp (g := fun d : Dimension => (d.className, d.origin))
    (fun d => Prod.ext (h d).1 (h d).2) s.dimensions k
  simp [frame, modifyDimension, this]

theorem frame_modifyPartition {change : Partition → Partition} (s : Space) (k : Nat)
    (h : ∀ p, (change p).className = p.className ∧ (change p).identity = p.identity) :
    (s.modifyPartition k change).frame = s.frame := by
  have := map_modify_of_comp
    (g := fun p : Partition => (p.className, p.parentClass, p.table, p.axes))
    (fun p => Prod.ext (h p).1 (h p).2) s.partitions k
  simp [frame, modifyPartition, this]

theorem frame_clearLinks (s : Space) : s.clearLinks.frame = s.frame := by
  simp [frame, clearLinks, Function.comp_def]

/-- Parts come to a partition later on, too. -/
theorem WellFounded.addPart (hw : s.WellFounded) {rank : Nat} {indexes : List Nat} {cost : Float}
    {part : Part} (hadd : s.addPart rank indexes cost = .ok (part, s')) : s'.WellFounded := by
  unfold Space.addPart at hadd
  split at hadd
  · cases hadd
  · split at hadd
    · cases hadd
      exact hw.of_frame (frame_modifyPartition s rank fun p => ⟨rfl, rfl⟩)
    · cases hadd

end Frame

end Space

end FeatureSynth
