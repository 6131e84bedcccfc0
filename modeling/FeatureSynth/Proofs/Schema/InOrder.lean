/-
# Entities in order

`Entity.fault?` looks for the first fault of an entity.  What it means that there is none
is said here as a structure, `Entity.InOrder`, and every edit that a build makes is shown
to keep it.

The delicate part is that the members of a block stand together.  It is a statement about
the answers, field by field, to the question whether a field is a member: these never go
yes, no, yes.  An edit changes the answers in few ways.  It drops some, adds a *no* at the
tail, or doubles one in place.
-/
import FeatureSynth.Proofs.Schema.Core
import FeatureSynth.Proofs.Schema.FreeName

namespace FeatureSynth

/-! ## Standing together -/

section Together

variable {α : Type} {p : α → Bool} {l l₁ l₂ : List α} {x y : α}

theorem any_iff_sublist (p : α → Bool) (l : List α) :
    l.any p = true ↔ [true].Sublist (l.map p) := by
  rw [List.singleton_sublist, List.any_eq_true, List.mem_map]

/-- An answer that does not open a pattern can be dropped in front. -/
theorem sublist_cons_of_ne {a b : Bool} {s t : List Bool} (h : a ≠ b) :
    (a :: s).Sublist (b :: t) ↔ (a :: s).Sublist t := by
  refine ⟨fun hsub => ?_, fun hsub => hsub.cons b⟩
  rcases List.sublist_cons_iff.mp hsub with hsub | ⟨r, hr, -⟩
  · exact hsub
  · exact absurd (List.cons.inj hr).1 h

theorem any_dropWhile_iff (p : α → Bool) : ∀ l : List α,
    (l.dropWhile p).any p = true ↔ [false, true].Sublist (l.map p)
  | [] => by simp
  | x :: xs => by
      rw [List.map_cons]
      cases hx : p x with
      | true =>
        rw [List.dropWhile_cons_of_pos hx, any_dropWhile_iff p xs, sublist_cons_of_ne (by decide)]
      | false =>
        rw [List.dropWhile_cons_of_neg (by simp [hx]), List.cons_sublist_cons, ← any_iff_sublist,
          List.any_cons, hx, Bool.false_or]

theorem any_dropWhile_dropWhile_iff (p : α → Bool) (l : List α) :
    ((l.dropWhile (!p ·)).dropWhile p).any p = true ↔ [true, false, true].Sublist (l.map p) := by
  induction l with
  | nil => simp
  | cons x xs ih =>
    rw [List.map_cons]
    cases hx : p x with
    | true =>
      rw [List.dropWhile_cons_of_neg (by simp [hx]), List.dropWhile_cons_of_pos hx,
        any_dropWhile_iff, List.cons_sublist_cons]
    | false =>
      rw [List.dropWhile_cons_of_pos (by simp [hx]), ih, sublist_cons_of_ne (by decide)]

theorem positions_eq_nil_iff (p : α → Bool) (l : List α) (start : ℕ) :
    positions p start l = [] ↔ ¬ [true].Sublist (l.map p) := by
  induction l generalizing start with
  | nil => simp [positions]
  | cons x xs ih =>
    rw [positions, List.map_cons]
    cases hx : p x with
    | true => simp
    | false => rw [if_neg Bool.false_ne_true, ih, sublist_cons_of_ne (by decide)]

/-- The last position is not before the place that the number of positions leads to. -/
theorem le_getLastD_positions (p : α → Bool) (l : List α) (start default : ℕ)
    (h : positions p start l ≠ []) :
    start + (positions p start l).length ≤ (positions p start l).getLastD default + 1 := by
  induction l generalizing start default with
  | nil => exact absurd rfl h
  | cons x xs ih =>
    rw [positions] at h ⊢
    cases hx : p x with
    | false =>
      rw [hx, if_neg Bool.false_ne_true] at h
      have hrest := ih (start + 1) default h
      rw [if_neg Bool.false_ne_true]
      omega
    | true =>
      rw [if_pos rfl, List.getLastD_cons, List.length_cons]
      by_cases hnil : positions p (start + 1) xs = []
      · rw [hnil]
        exact le_rfl
      · have hrest := ih (start + 1) start hnil
        omega

/-- Behind an element at `start` there are only others like it, and then none, if the last position
is where their number leads to. -/
theorem getLastD_positions_iff (p : α → Bool) (l : List α) (start : ℕ) :
    (positions p (start + 1) l).getLastD start = start + (positions p (start + 1) l).length ↔
      ¬ [false, true].Sublist (l.map p) := by
  induction l generalizing start with
  | nil => simp [positions]
  | cons x xs ih =>
    rw [positions, List.map_cons]
    cases hx : p x with
    | true =>
      rw [if_pos rfl, List.getLastD_cons, List.length_cons, sublist_cons_of_ne (by decide),
        ← ih (start + 1)]
      omega
    | false =>
      rw [if_neg Bool.false_ne_true, List.cons_sublist_cons,
        ← positions_eq_nil_iff p xs (start + 1 + 1)]
      constructor
      · intro h
        by_contra hne
        have hlast := le_getLastD_positions p xs (start + 1 + 1) start hne
        omega
      · intro h
        rw [h]
        rfl

/-- Elements stand together if no other stands between two of them. -/
theorem standTogether_iff (p : α → Bool) (l : List α) :
    standTogether p l = true ↔ ¬ [true, false, true].Sublist (l.map p) := by
  -- the positions of a shorter list are counted from a later start
  have hfrom : ∀ start, consecutive (positions p start l) = true ↔
      ¬ [true, false, true].Sublist (l.map p) := by
    induction l with
    | nil => simp [positions, consecutive]
    | cons x xs ih =>
      intro start
      rw [positions, List.map_cons]
      cases hx : p x with
      | true =>
        rw [if_pos rfl, List.cons_sublist_cons, ← getLastD_positions_iff p xs start]
        simp only [consecutive, beq_iff_eq]
        by_cases hnil : positions p (start + 1) xs = []
        · simp [hnil]
        · have hlast := le_getLastD_positions p xs (start + 1) start hnil
          omega
      | false =>
        rw [if_neg Bool.false_ne_true, sublist_cons_of_ne (by decide)]
        exact ih (start + 1)
  exact hfrom 0

/-- They do if behind the first of them, and those that follow it at once, there is none. -/
theorem standTogether_eq_dropWhile (p : α → Bool) (l : List α) :
    standTogether p l = !((l.dropWhile (!p ·)).dropWhile p).any p := by
  rw [Bool.eq_iff_iff, standTogether_iff, ← any_dropWhile_dropWhile_iff, Bool.not_eq_true',
    Bool.not_eq_true]

theorem standTogether_of_map_eq (h : l₂.map p = l₁.map p) (ht : standTogether p l₁ = true) :
    standTogether p l₂ = true := by
  rw [standTogether_iff] at ht ⊢
  rwa [h]

theorem standTogether_of_sublist (h : l₂.Sublist l₁) (ht : standTogether p l₁ = true) :
    standTogether p l₂ = true := by
  rw [standTogether_iff] at ht ⊢
  exact fun hsub => ht (hsub.trans (h.map p))

/-- Others may follow. -/
theorem standTogether_append (ht : standTogether p l₁ = true) (h : ∀ x ∈ l₂, p x = false) :
    standTogether p (l₁ ++ l₂) = true := by
  rw [standTogether_iff] at ht ⊢
  rw [List.map_append]
  intro hsub
  obtain ⟨s, t, hst, hs, hsub⟩ := List.sublist_append_iff.mp hsub
  match t, hst with
  | [], hst => exact ht (by rwa [hst, List.append_nil])
  | u :: us, hst =>
    -- the last answer of the pattern is a *yes*, and is none of those that follow
    have hlast : true ∈ u :: us := by
      have := congrArg List.getLast? hst
      rw [List.getLast?_append_of_ne_nil _ (List.cons_ne_nil u us)] at this
      exact List.mem_of_getLast? this.symm
    obtain ⟨x, hx, hpx⟩ := List.mem_map.mp (hsub.subset hlast)
    rw [h x hx] at hpx
    cases hpx

theorem standTogether_of_last (h : ∀ x ∈ l₁, p x = false) (hl : ∀ x ∈ l₂, p x = true) :
    standTogether p (l₁ ++ l₂) = true := by
  have hdrop : (l₁ ++ l₂).dropWhile (!p ·) = l₂.dropWhile (!p ·) := by
    rw [List.dropWhile_append, List.dropWhile_eq_nil_iff.mpr fun x hx => by simp [h x hx]]
    rfl
  have hnil : (l₂.dropWhile (!p ·)).dropWhile p = [] :=
    List.dropWhile_eq_nil_iff.mpr fun x hx => hl x ((List.dropWhile_sublist _).subset hx)
  rw [standTogether_eq_dropWhile, hdrop, hnil]
  rfl

/-- Doubling an answer makes no pattern of which neighbours differ. -/
theorem sublist_of_doubled {u : Bool} {t : List Bool} : ∀ {a s : List Bool}, s.IsChain (· ≠ ·) →
    s.Sublist (a ++ u :: u :: t) → s.Sublist (a ++ u :: t)
  | [], _, hs, h => by
      rcases List.sublist_cons_iff.mp h with htail | ⟨r, rfl, htail⟩
      · exact htail
      · rcases List.sublist_cons_iff.mp htail with hrest | ⟨r', rfl, -⟩
        · exact hrest.cons_cons u
        · exact absurd rfl (List.isChain_cons_cons.mp hs).1
  | b :: a, _, hs, h => by
      rcases List.sublist_cons_iff.mp h with htail | ⟨r, rfl, htail⟩
      · exact (sublist_of_doubled hs htail).cons b
      · exact (sublist_of_doubled hs.tail htail).cons_cons b

/-- A new element behind one that is alike does not separate others. -/
theorem standTogether_insert (hxy : p y = p x) (ht : standTogether p (l₁ ++ x :: l₂) = true) :
    standTogether p (l₁ ++ x :: y :: l₂) = true := by
  rw [standTogether_iff] at ht ⊢
  rw [List.map_append, List.map_cons, List.map_cons, hxy]
  intro hsub
  refine ht ?_
  rw [List.map_append, List.map_cons]
  exact sublist_of_doubled (by decide) hsub

end Together

/-! ## Repeated elements -/

theorem firstRepeat_of_nodup {α : Type} [DecidableEq α] : ∀ {before xs : List α}, xs.Nodup →
    (∀ x ∈ xs, x ∉ before) → firstRepeat before xs = none
  | _, [], _, _ => rfl
  | before, x :: xs, h, hbefore => by
      obtain ⟨hx, hxs⟩ := List.nodup_cons.mp h
      rw [firstRepeat, if_neg (hbefore x List.mem_cons_self)]
      refine firstRepeat_of_nodup hxs fun y hy hmem => ?_
      rcases List.mem_cons.mp hmem with rfl | hmem
      · exact hx hy
      · exact hbefore y (List.mem_cons_of_mem _ hy) hmem

theorem firstRepeat_eq_none_iff {α : Type} [DecidableEq α] {xs : List α} :
    firstRepeat [] xs = none ↔ xs.Nodup :=
  ⟨fun h => (firstRepeat_eq_none h).1, fun h => firstRepeat_of_nodup h (by simp)⟩

namespace Entity

/-! ## Order -/

/-- The members of a block, of which there is one at least, stand together under different keys. -/
structure BlockInOrder (fields : List Field) (B : String) : Prop where
  inhabited : fields.any (·.isIn B) = true
  together : standTogether (·.isIn B) fields = true
  keys : ((fields.filter (·.isIn B)).filterMap (·.key)).Nodup

/-- An entity without faults. -/
structure InOrder (classes : List String) (e : Entity) : Prop where
  names : e.names.Nodup
  relations : ∀ f ∈ e.fields, ∀ c, f.type.class? = some c → c ∈ classes
  keyed : ∀ f ∈ e.fields, f.block.isSome = true → f.key.isSome = true
  blocks : ∀ b ∈ e.blocks, BlockInOrder e.fields b.name
  declared : ∀ f ∈ e.fields, ∀ B, f.block = some B → B ∈ e.blocks.map (·.name)

variable {classes : List String} {e e' : Entity} {f : Field} {B : String}

theorem fieldFault?_eq_none : fieldFault? classes f = none ↔
    (∀ c, f.type.class? = some c → c ∈ classes) ∧
      (f.block.isSome = true → f.key.isSome = true) := by
  unfold fieldFault?
  cases hc : f.type.class? with
  | none => cases f.block <;> cases f.key <;> simp
  | some c => by_cases hmem : c ∈ classes <;> cases f.block <;> cases f.key <;> simp [hmem]

theorem blockFault?_eq_none {b : Block} :
    e.blockFault? b = none ↔ BlockInOrder e.fields b.name := by
  have hany : e.members b.name = [] ↔ ¬ e.fields.any (·.isIn b.name) = true := by
    rw [members, List.filter_eq_nil_iff, List.any_eq_true, not_exists]
    exact forall_congr' fun _ => not_and.symm
  unfold blockFault?
  split
  · rename_i hnone
    exact ⟨nofun, fun h => absurd h.inhabited (hany.mp hnone)⟩
  · rename_i hsome
    split
    · rename_i happart
      exact ⟨nofun, fun h => absurd h.together (by simpa using happart)⟩
    · rename_i htogether
      rw [Option.map_eq_none_iff, firstRepeat_eq_none_iff]
      exact ⟨fun h => ⟨not_not.mp (mt hany.mpr hsome), by simpa using htogether, h⟩,
        fun h => h.keys⟩

theorem block?_isSome : (e.block? B).isSome = true ↔ B ∈ e.blocks.map (·.name) := by
  rw [block?, List.find?_isSome, List.mem_map]
  exact exists_congr fun b => and_congr_right fun _ => by rw [beq_iff_eq]

theorem memberFault?_eq_none :
    e.memberFault? f = none ↔ ∀ B, f.block = some B → B ∈ e.blocks.map (·.name) := by
  unfold memberFault?
  cases f.block with
  | none => simp
  | some B =>
    have hall : (∀ B', some B = some B' → B' ∈ e.blocks.map (·.name)) ↔
        B ∈ e.blocks.map (·.name) := by simp
    rw [hall, ← block?_isSome]
    cases hsome : (e.block? B).isSome <;> simp [hsome]

/-- The entities in order are those that no fault is found with. -/
theorem fault?_eq_none : e.fault? classes = none ↔ e.InOrder classes := by
  simp only [fault?, Option.or_eq_none_iff, Option.map_eq_none_iff, List.findSome?_eq_none_iff,
    firstRepeat_eq_none_iff, fieldFault?_eq_none, blockFault?_eq_none, memberFault?_eq_none]
  constructor
  · rintro ⟨hnames, hfields, hblocks, hmembers⟩
    exact ⟨hnames, fun f hf => (hfields f hf).1, fun f hf => (hfields f hf).2, hblocks, hmembers⟩
  · intro h
    exact ⟨h.names, fun f hf => ⟨h.relations f hf, h.keyed f hf⟩, h.blocks, h.declared⟩

/-- Marks and costs of fields do not matter. -/
theorem InOrder.of_core (h : e.InOrder classes) (hcore : e'.core = e.core) :
    e'.InOrder classes := by
  rw [← fault?_eq_none, ← fault?_core, hcore, fault?_core]
  exact fault?_eq_none.mpr h

theorem InOrder.block?_eq_none (h : e.InOrder classes) (hB : B ∉ e.names) :
    ∀ f ∈ e.fields, f.isIn B = false := by
  refine fun f hf => beq_eq_false_iff_ne.mpr fun hblock => hB ?_
  exact List.mem_append_right _ (h.declared f hf B hblock)

/-! ## Moves -/

/-- Fields and blocks may change places as long as the members of each block stay together. -/
theorem InOrder.of_perm (h : e.InOrder classes) (hfields : e'.fields.Perm e.fields)
    (hblocks : e'.blocks.Perm e.blocks)
    (htogether : ∀ b ∈ e.blocks, standTogether (·.isIn b.name) e'.fields = true) :
    e'.InOrder classes where
  names := ((hfields.map _).append (hblocks.map _)).nodup_iff.mpr h.names
  relations f hf := h.relations f (hfields.mem_iff.mp hf)
  keyed f hf := h.keyed f (hfields.mem_iff.mp hf)
  blocks b hb := by
    have hb := hblocks.mem_iff.mp hb
    obtain ⟨f, hf, hin⟩ := List.any_eq_true.mp (h.blocks b hb).inhabited
    refine ⟨List.any_eq_true.mpr ⟨f, hfields.mem_iff.mpr hf, hin⟩, htogether b hb, ?_⟩
    exact ((hfields.filter _).filterMap _).nodup_iff.mpr (h.blocks b hb).keys
  declared f hf B hB :=
    (hblocks.map _).mem_iff.mpr (h.declared f (hfields.mem_iff.mp hf) B hB)

theorem firstToTail_eq {α : Type} (p : α → Bool) : ∀ l : List α,
    (∀ x ∈ l, p x = false) ∧ firstToTail p l = l ∨
      ∃ l₁ x l₂, l = l₁ ++ x :: l₂ ∧ l.find? p = some x ∧ firstToTail p l = l₁ ++ l₂ ++ [x]
  | [] => .inl ⟨by simp, rfl⟩
  | x :: xs => by
      cases hx : p x with
      | true =>
        exact .inr ⟨[], x, xs, rfl, List.find?_cons_of_pos hx, by rw [firstToTail, if_pos hx]; rfl⟩
      | false =>
        have htail : firstToTail p (x :: xs) = x :: firstToTail p xs := by simp [firstToTail, hx]
        rw [htail, List.find?_cons_of_neg (by simp [hx])]
        rcases firstToTail_eq p xs with ⟨hnone, heq⟩ | ⟨l₁, y, l₂, rfl, hfind, heq⟩
        · refine .inl ⟨fun y hy => ?_, by rw [heq]⟩
          rcases List.mem_cons.mp hy with rfl | hy
          · exact hx
          · exact hnone y hy
        · exact .inr ⟨x :: l₁, y, l₂, rfl, hfind, by rw [heq]; rfl⟩

/-- A field that is no member may go to the tail. -/
theorem InOrder.moveFieldToTail (h : e.InOrder classes) {name : String}
    (hplain : ∀ f, e.field? name = some f → f.block = none) :
    (e.moveFieldToTail name).InOrder classes := by
  refine h.of_perm (moveFieldToTail_perm e name) (.refl _) fun b hb => ?_
  show standTogether _ (firstToTail _ e.fields) = true
  rcases firstToTail_eq (·.name == name) e.fields with ⟨-, heq⟩ | ⟨l₁, f, l₂, hl, hfind, heq⟩
  · rw [heq]
    exact (h.blocks b hb).together
  · rw [heq]
    refine standTogether_append (standTogether_of_sublist ?_ (h.blocks b hb).together)
      fun g hg => ?_
    · rw [hl]
      exact (List.Sublist.refl _).append (List.sublist_cons_self f l₂)
    · rw [List.mem_singleton.mp hg, Field.isIn, hplain f hfind]
      rfl

theorem isIn_ne {B B' : String} (hne : B ≠ B') (hf : f.isIn B = true) : f.isIn B' = false := by
  rw [Field.isIn, beq_iff_eq] at hf
  rw [Field.isIn, hf]
  exact beq_eq_false_iff_ne.mpr fun h => hne (Option.some.inj h)

/-- A block may go to the tail as a whole. -/
theorem InOrder.moveBlockToTail (h : e.InOrder classes) (B : String) :
    (e.moveBlockToTail B).InOrder classes := by
  refine h.of_perm (moveBlockToTail_fields_perm e B) (moveBlockToTail_blocks_perm e B)
    fun b hb => ?_
  show standTogether _ (e.fields.filter (!·.isIn B) ++ e.fields.filter (·.isIn B)) = true
  by_cases hB : b.name = B
  · rw [hB]
    exact standTogether_of_last (fun f hf => by simpa using (List.mem_filter.mp hf).2)
      fun f hf => (List.mem_filter.mp hf).2
  · refine standTogether_append (standTogether_of_sublist List.filter_sublist
      (h.blocks b hb).together) fun f hf => ?_
    exact isIn_ne (Ne.symm hB) (List.mem_filter.mp hf).2

/-- Refilling places with members of one block leaves the places of every block as they are. -/
theorem map_refill {p q : Field → Bool} (hpq : ∀ f g, p f = true → p g = true → q f = q g) :
    ∀ {l ms : List Field}, (∀ f ∈ ms, p f = true) → (refill p l ms).map q = l.map q
  | [], _, _ => rfl
  | _ :: _, [], _ => rfl
  | x :: xs, m :: ms, hms => by
      unfold refill
      cases hx : p x with
      | true =>
        rw [if_pos rfl, List.map_cons, List.map_cons,
          map_refill hpq fun f hf => hms f (List.mem_cons_of_mem _ hf),
          hpq m x (hms m List.mem_cons_self) hx]
      | false => rw [if_neg Bool.false_ne_true, List.map_cons, List.map_cons, map_refill hpq hms]

/-- Members may change places among themselves. -/
theorem InOrder.sortBlock (h : e.InOrder classes) (B : String) :
    (e.sortBlock B).InOrder classes := by
  refine h.of_perm (sortBlock_perm e B) (.refl _) fun b hb => ?_
  refine standTogether_of_map_eq (map_refill (fun f g hf hg => ?_) fun f hf => ?_)
    (h.blocks b hb).together
  · by_cases hB : B = b.name
    · subst hB
      exact hf.trans hg.symm
    · rw [isIn_ne hB hf, isIn_ne hB hg]
  · exact (List.mem_filter.mp ((List.mergeSort_perm _ _).mem_iff.mp hf)).2

/-! ## Insertions -/

/-- A field under a new name that is no member may be added. -/
theorem InOrder.insertField (h : e.InOrder classes) (hname : f.name ∉ e.names)
    (hblock : f.block = none) (hclass : ∀ c, f.type.class? = some c → c ∈ classes) :
    (e.insertField f).InOrder classes where
  names := by
    have hperm : (e.insertField f).names.Perm (f.name :: e.names) := by
      show (List.map _ (e.fields ++ [f]) ++ _).Perm _
      rw [List.map_append, List.append_assoc]
      exact List.perm_middle
    exact hperm.nodup_iff.mpr (List.nodup_cons.mpr ⟨hname, h.names⟩)
  relations g hg := by
    rcases List.mem_append.mp hg with hg | hg
    · exact h.relations g hg
    · rw [List.mem_singleton.mp hg]
      exact hclass
  keyed g hg hsome := by
    rcases List.mem_append.mp hg with hg | hg
    · exact h.keyed g hg hsome
    · rw [List.mem_singleton.mp hg, hblock] at hsome
      cases hsome
  blocks b hb := by
    have hout : f.isIn b.name = false := by rw [Field.isIn, hblock]; rfl
    refine ⟨?_, standTogether_append (h.blocks b hb).together fun g hg => ?_, ?_⟩
    · show (e.fields ++ [f]).any _ = true
      rw [List.any_append, (h.blocks b hb).inhabited, Bool.true_or]
    · rw [List.mem_singleton.mp hg, hout]
    · show (((e.fields ++ [f]).filter _).filterMap _).Nodup
      rw [List.filter_append, List.filter_cons_of_neg (by simp [hout]), List.filter_nil,
        List.append_nil]
      exact (h.blocks b hb).keys
  declared g hg B hB := by
    rcases List.mem_append.mp hg with hg | hg
    · exact h.declared g hg B hB
    · rw [List.mem_singleton.mp hg, hblock] at hB
      cases hB

@[simp] theorem asMember_isIn (f : Field) (B B' : String) :
    (asMember f B).isIn B' = (B == B') := by
  rw [Field.isIn, asMember]
  exact Option.some_beq_some

/-- A new block comes with its first member. -/
theorem InOrder.addBlock (h : e.InOrder classes) {b : Block} (hname : f.name ∉ e.names)
    (hb : b.name ∉ e.names) (hne : f.name ≠ b.name) {key : Nat} (hkey : f.key = some key)
    (hclass : ∀ c, f.type.class? = some c → c ∈ classes) : (e.addBlock b f).InOrder classes where
  names := by
    have hperm : (e.addBlock b f).names.Perm (f.name :: b.name :: e.names) := by
      show (List.map _ (e.fields ++ [asMember f b.name]) ++ List.map _ (e.blocks ++ [b])).Perm _
      rw [List.map_append, List.map_append, List.append_assoc]
      refine List.perm_middle.trans (.cons _ ?_)
      show (_ ++ (_ ++ [b.name])).Perm _
      rw [← List.append_assoc]
      exact List.perm_append_singleton _ _
    refine hperm.nodup_iff.mpr (List.nodup_cons.mpr ⟨?_, List.nodup_cons.mpr ⟨hb, h.names⟩⟩)
    exact fun hmem => (List.mem_cons.mp hmem).elim hne hname
  relations g hg := by
    rcases List.mem_append.mp hg with hg | hg
    · exact h.relations g hg
    · rw [List.mem_singleton.mp hg]
      exact hclass
  keyed g hg hsome := by
    rcases List.mem_append.mp hg with hg | hg
    · exact h.keyed g hg hsome
    · rw [List.mem_singleton.mp hg, asMember, hkey]
      rfl
  blocks b' hb' := by
    rcases List.mem_append.mp hb' with hb' | hb'
    · have hout : (asMember f b.name).isIn b'.name = false := by
        rw [asMember_isIn]
        exact beq_eq_false_iff_ne.mpr fun heq => hb (List.mem_append_right _
          (heq ▸ List.mem_map_of_mem hb'))
      refine ⟨?_, standTogether_append (h.blocks b' hb').together fun g hg => ?_, ?_⟩
      · show (e.fields ++ [asMember f b.name]).any _ = true
        rw [List.any_append, (h.blocks b' hb').inhabited, Bool.true_or]
      · rw [List.mem_singleton.mp hg, hout]
      · show (((e.fields ++ [asMember f b.name]).filter _).filterMap _).Nodup
        rw [List.filter_append, List.filter_cons_of_neg (by simp [hout]), List.filter_nil,
          List.append_nil]
        exact (h.blocks b' hb').keys
    · -- the member is the only one
      obtain rfl := List.mem_singleton.mp hb'
      have hin : (asMember f b'.name).isIn b'.name = true := by simp
      have hnone := h.block?_eq_none hb
      refine ⟨?_, standTogether_of_last hnone fun g hg => ?_, ?_⟩
      · show (e.fields ++ [asMember f b'.name]).any _ = true
        simp [hin]
      · rw [List.mem_singleton.mp hg, hin]
      · show (((e.fields ++ [asMember f b'.name]).filter _).filterMap _).Nodup
        rw [List.filter_append, List.filter_eq_nil_iff.mpr fun g hg => by simp [hnone g hg],
          List.filter_cons_of_pos hin, List.filter_nil, List.nil_append, asMember]
        simp [hkey]
  declared g hg B hB := by
    show B ∈ (e.blocks ++ [b]).map _
    rw [List.map_append, List.mem_append]
    rcases List.mem_append.mp hg with hg | hg
    · exact .inl (h.declared g hg B hB)
    · rw [List.mem_singleton.mp hg, asMember] at hB
      exact .inr (by simpa using (Option.some.inj hB).symm)

theorem insertBehind_eq (p : Field → Bool) (f : Field) : ∀ {l : List Field}, l.any p = true →
    ∃ l₁ x l₂, l = l₁ ++ x :: l₂ ∧ p x = true ∧ insertBehind p f l = l₁ ++ x :: f :: l₂
  | x :: xs, h => by
      unfold insertBehind
      split
      · rename_i hx
        rw [Bool.and_eq_true] at hx
        exact ⟨[], x, xs, rfl, hx.1, rfl⟩
      · rename_i hx
        have hxs : xs.any p = true := by
          cases hany : xs.any p with
          | true => rfl
          | false => simp [hany] at h hx; rw [hx] at h; exact absurd h (by simp)
        obtain ⟨l₁, y, l₂, rfl, hy, heq⟩ := insertBehind_eq p f hxs
        exact ⟨x :: l₁, y, l₂, rfl, hy, by rw [heq]; rfl⟩

/-- A block that has members may get another, under a new name and a new key. -/
theorem InOrder.insertMember (h : e.InOrder classes) (hrun : e.insertMember B f = .ok e')
    (hname : f.name ∉ e.names) {key : Nat} (hkey : f.key = some key)
    (hnew : ∀ g ∈ e.fields, g.block = some B → g.key ≠ some key)
    (hclass : ∀ c, f.type.class? = some c → c ∈ classes) : e'.InOrder classes := by
  have ⟨_, hblocks, hperm, hany⟩ := insertMember_eq_ok hrun
  have hperm : e'.fields.Perm (asMember f B :: e.fields) :=
    hperm.trans (List.perm_append_singleton _ _)
  have hmem : ∀ {g}, g ∈ e'.fields → g = asMember f B ∨ g ∈ e.fields := fun hg =>
    List.mem_cons.mp (hperm.mem_iff.mp hg)
  have hB : B ∈ e.blocks.map (·.name) := by
    obtain ⟨g, hg, hin⟩ := List.any_eq_true.mp hany
    exact h.declared g hg B (beq_iff_eq.mp hin)
  constructor
  · have hnames : e'.names.Perm (f.name :: e.names) := by
      rw [Entity.names, hblocks]
      exact (hperm.map _).append_right _
    exact hnames.nodup_iff.mpr (List.nodup_cons.mpr ⟨hname, h.names⟩)
  · intro g hg
    rcases hmem hg with rfl | hg
    · exact hclass
    · exact h.relations g hg
  · intro g hg hsome
    rcases hmem hg with rfl | hg
    · rw [asMember, hkey]
      rfl
    · exact h.keyed g hg hsome
  · intro b hb
    rw [hblocks] at hb
    have horder := h.blocks b hb
    refine ⟨?_, ?_, ?_⟩
    · rw [hperm.any_eq, List.any_cons, horder.inhabited, Bool.or_true]
    · rw [Entity.insertMember, if_pos hany] at hrun
      cases hrun
      obtain ⟨l₁, x, l₂, hl, hx, heq⟩ := insertBehind_eq (·.isIn B) (asMember f B) hany
      show standTogether _ (insertBehind _ _ _) = true
      rw [heq]
      refine standTogether_insert ?_ (hl ▸ horder.together)
      rw [Field.isIn, beq_iff_eq] at hx
      rw [asMember_isIn, Field.isIn, hx]
      exact Option.some_beq_some.symm
    · refine ((hperm.filter _).filterMap _).nodup_iff.mpr ?_
      by_cases hBb : B = b.name
      · subst hBb
        have hmember : (asMember f b.name).key = some key := hkey
        rw [List.filter_cons_of_pos (by simp), List.filterMap_cons_some hmember]
        refine List.nodup_cons.mpr ⟨fun hmem => ?_, horder.keys⟩
        obtain ⟨g, hg, hkey'⟩ := List.mem_filterMap.mp hmem
        exact hnew g (List.mem_filter.mp hg).1 (beq_iff_eq.mp (List.mem_filter.mp hg).2) hkey'
      · rw [List.filter_cons_of_neg (by simpa using hBb)]
        exact horder.keys
  · intro g hg B' hB'
    rw [hblocks]
    rcases hmem hg with rfl | hg
    · rw [asMember] at hB'
      exact Option.some.inj hB' ▸ hB
    · exact h.declared g hg B' hB'

end Entity

namespace Schema

variable {s : Schema} {C : String} {e e' : Entity}

/-- A schema compiles if the names of its entities differ and every one is in order. -/
theorem compile_eq_ok : s.compile = .ok () ↔
    (s.entities.map (·.name)).Nodup ∧ ∀ e ∈ s.entities, e.InOrder (s.entities.map (·.name)) := by
  have hfault : s.compile = .ok () ↔ s.fault? = none := by
    rw [compile]
    split <;> simp_all
  rw [hfault]
  simp only [fault?, Option.or_eq_none_iff, Option.map_eq_none_iff, firstRepeat_eq_none_iff,
    List.findSome?_eq_none_iff, Entity.fault?_eq_none]

theorem inOrder_of_compile (h : s.compile = .ok ()) (he : s.entity? C = some e) :
    e.InOrder (s.entities.map (·.name)) :=
  (compile_eq_ok.mp h).2 e (mem_of_entity? he)

theorem mem_replaceFirst {α : Type} {p : α → Bool} {x y : α} {l : List α}
    (h : y ∈ replaceFirst p (fun _ => x) l) : y = x ∨ y ∈ l := by
  rcases of_mem_replaceFirst h with h | ⟨_, -, rfl⟩
  · exact .inr h
  · exact .inl rfl

/-- An edit of one entity that leaves it in order leaves the schema well formed. -/
theorem compile_setEntity (h : s.compile = .ok ()) (he : s.entity? C = some e)
    (hname : e'.name = e.name) (horder : e'.InOrder (s.entities.map (·.name))) :
    (s.setEntity C e').compile = .ok () := by
  obtain ⟨hnames, hentities⟩ := compile_eq_ok.mp h
  have hset := names_setEntity he hname
  refine compile_eq_ok.mpr ⟨hset ▸ hnames, fun x hx => ?_⟩
  rw [hset]
  rw [setEntity_eq] at hx
  rcases mem_replaceFirst hx with rfl | hx
  · exact horder
  · exact hentities x hx

end Schema

end FeatureSynth
