/-
# Rows of moves

Where blocks were built, fields and blocks are moved to the tail one after the other, and a
block is sorted where it ends up.  Whatever the row of moves, it has moved some fields back:
they stand behind all others, and these are in the order they were in.  Rows that follow one
another make layers, and a field is in the layer of the last row that moved it.

Within the layers the members of a block go together, and so a block that was moved once
stays sorted.
-/
import FeatureSynth.Proofs.Schema.Edits
import FeatureSynth.Proofs.Schema.Tail

namespace FeatureSynth

/-- The elements that `p` holds of stand behind all others, which are in the order they were in. -/
def MovedBack {α : Type} (p : α → Bool) (l l' : List α) : Prop :=
  ∃ moved, l' = l.filter (!p ·) ++ moved ∧ moved.Perm (l.filter p)

namespace MovedBack

variable {α β : Type} {p q r : α → Bool} {l l' l'' l₁ l₂ : List α}

protected theorem refl (l : List α) : MovedBack (fun _ => false) l l :=
  ⟨[], by simp, by simp⟩

theorem perm (h : MovedBack p l l') : l'.Perm l := by
  obtain ⟨moved, rfl, hmoved⟩ := h
  exact (hmoved.append_left _).trans (List.perm_append_comm.trans (List.filter_append_perm p l))

/-- If no element is lost, those behind the others are the ones that `p` holds of. -/
theorem of_perm (moved : List α) (h : l'.Perm l) (heq : l' = l.filter (!p ·) ++ moved) :
    MovedBack p l l' := by
  refine ⟨moved, heq, ?_⟩
  rw [heq] at h
  have hsplit : (l.filter (!p ·) ++ l.filter p).Perm l :=
    List.perm_append_comm.trans (List.filter_append_perm p l)
  exact (List.perm_append_left_iff _).mp (h.trans hsplit.symm)

theorem congr (h : MovedBack p l l') (hpq : ∀ x ∈ l, q x = p x) : MovedBack q l l' := by
  obtain ⟨moved, rfl, hmoved⟩ := id h
  refine of_perm moved h.perm ?_
  congr 1
  exact List.filter_congr fun x hx => by rw [hpq x hx]

/-- What is moved in one of two rows is moved in both together. -/
protected theorem trans (h : MovedBack p l l') (h' : MovedBack q l' l'') :
    MovedBack (fun x => p x || q x) l l'' := by
  have hperm := h'.perm.trans h.perm
  obtain ⟨moved, rfl, -⟩ := h
  obtain ⟨again, rfl, -⟩ := h'
  refine of_perm (moved.filter (!q ·) ++ again) hperm ?_
  rw [List.filter_append, List.filter_filter, List.append_assoc]
  congr 1
  refine List.filter_congr fun x _ => ?_
  cases p x <;> simp

/-- Elements that are not moved are in the order they were in. -/
theorem filter_eq (h : MovedBack p l l') (hr : ∀ x ∈ l, r x = true → p x = false) :
    l'.filter r = l.filter r := by
  obtain ⟨moved, rfl, hmoved⟩ := h
  have hnone : moved.filter r = [] := by
    refine List.filter_eq_nil_iff.mpr fun x hx hrx => ?_
    have hmem := hmoved.mem_iff.mp hx
    have hp := (List.mem_filter.mp hmem).2
    rw [hr x (List.mem_filter.mp hmem).1 hrx] at hp
    cases hp
  rw [List.filter_append, hnone, List.append_nil, List.filter_filter]
  refine List.filter_congr fun x hx => ?_
  cases hrx : r x with
  | false => rfl
  | true => simp [hr x hx hrx]

/-- Elements that are looked at through a function are moved with it. -/
theorem map {f : α → β} {p : β → Bool} (h : MovedBack (fun x => p (f x)) l l') :
    MovedBack p (l.map f) (l'.map f) := by
  obtain ⟨moved, rfl, hmoved⟩ := h
  refine ⟨moved.map f, ?_, ?_⟩
  · rw [List.map_append, List.filter_map]
    rfl
  · rw [List.filter_map]
    exact hmoved.map f

/-- Where nothing of the front is moved it stays in front. -/
theorem of_append (h : MovedBack p (l₁ ++ l₂) l') (hfront : ∀ x ∈ l₁, p x = false) :
    ∃ l₂', l' = l₁ ++ l₂' ∧ MovedBack p l₂ l₂' := by
  obtain ⟨moved, rfl, hmoved⟩ := h
  have hkept : l₁.filter (!p ·) = l₁ := List.filter_eq_self.mpr fun x hx => by simp [hfront x hx]
  have hnone : l₁.filter p = [] := List.filter_eq_nil_iff.mpr fun x hx => by simp [hfront x hx]
  rw [List.filter_append, hnone, List.nil_append] at hmoved
  exact ⟨l₂.filter (!p ·) ++ moved, by rw [List.filter_append, hkept, List.append_assoc], moved,
    rfl, hmoved⟩

/-- Three rows make layers: what none of them moved, and what was moved in each of them last. -/
theorem layers {p₁ p₂ p₃ : α → Bool} {l₃ : List α} (h₁ : MovedBack p₁ l l₁)
    (h₂ : MovedBack p₂ l₁ l₂) (h₃ : MovedBack p₃ l₂ l₃) : ∃ first second third,
      l₃ = l.filter (fun x => !p₁ x && !p₂ x && !p₃ x) ++ first ++ second ++ third ∧
      (∀ x ∈ first, p₁ x = true ∧ p₂ x = false ∧ p₃ x = false) ∧
      (∀ x ∈ second, p₂ x = true ∧ p₃ x = false) ∧ ∀ x ∈ third, p₃ x = true := by
  obtain ⟨moved₁, rfl, hmoved₁⟩ := h₁
  obtain ⟨moved₂, rfl, hmoved₂⟩ := h₂
  obtain ⟨moved₃, rfl, hmoved₃⟩ := h₃
  refine ⟨(moved₁.filter (!p₂ ·)).filter (!p₃ ·), moved₂.filter (!p₃ ·), moved₃, ?_, ?_, ?_, ?_⟩
  · simp only [List.filter_append, List.filter_filter, List.append_assoc]
    congr 1
    refine List.filter_congr fun x _ => ?_
    cases p₁ x <;> cases p₂ x <;> cases p₃ x <;> rfl
  · intro x hx
    obtain ⟨hx, h₃⟩ := List.mem_filter.mp hx
    obtain ⟨hx, h₂⟩ := List.mem_filter.mp hx
    have h₁ := (List.mem_filter.mp (hmoved₁.mem_iff.mp hx)).2
    exact ⟨h₁, by simpa using h₂, by simpa using h₃⟩
  · intro x hx
    obtain ⟨hx, h₃⟩ := List.mem_filter.mp hx
    exact ⟨(List.mem_filter.mp (hmoved₂.mem_iff.mp hx)).2, by simpa using h₃⟩
  · exact fun x hx => (List.mem_filter.mp (hmoved₃.mem_iff.mp hx)).2

/-- Behind a front of which nothing is moved they make the same layers. -/
theorem layers_behind {p₁ p₂ p₃ : α → Bool} {l₀ l₃ : List α} (h₁ : MovedBack p₁ (l₀ ++ l) l₁)
    (h₂ : MovedBack p₂ l₁ l₂) (h₃ : MovedBack p₃ l₂ l₃)
    (hfront : ∀ x ∈ l₀, p₁ x = false ∧ p₂ x = false ∧ p₃ x = false) :
    ∃ rest first second third, l₃ = l₀ ++ (rest ++ first ++ second ++ third) ∧
      (rest ++ first ++ second ++ third).Perm l ∧
      (∀ x ∈ rest, p₁ x = false ∧ p₂ x = false ∧ p₃ x = false) ∧
      (∀ x ∈ first, p₁ x = true ∧ p₂ x = false ∧ p₃ x = false) ∧
      (∀ x ∈ second, p₂ x = true ∧ p₃ x = false) ∧ ∀ x ∈ third, p₃ x = true := by
  obtain ⟨t₁, rfl, ht₁⟩ := h₁.of_append fun x hx => (hfront x hx).1
  obtain ⟨t₂, rfl, ht₂⟩ := h₂.of_append fun x hx => (hfront x hx).2.1
  obtain ⟨t₃, rfl, ht₃⟩ := h₃.of_append fun x hx => (hfront x hx).2.2
  have hperm := ht₃.perm.trans (ht₂.perm.trans ht₁.perm)
  obtain ⟨first, second, third, rfl, hfirst, hsecond, hthird⟩ := layers ht₁ ht₂ ht₃
  refine ⟨_, first, second, third, rfl, hperm, fun x hx => ?_, hfirst, hsecond, hthird⟩
  simpa [and_assoc] using (List.mem_filter.mp hx).2

end MovedBack

/-! ## Rows of steps -/

section Rows

variable {α β : Type} {I P : α → Prop} {step : α → β → α} {x : β}

theorem foldl_keeps {xs : List β} {a : α} (ha : P a)
    (hkeep : ∀ a, ∀ y ∈ xs, P a → P (step a y)) : P (xs.foldl step a) :=
  List.foldlRecOn xs step ha fun a ha y hy => hkeep a y hy ha

/-- What one step of a row makes, and the others keep, holds after the row. -/
theorem foldl_reaches : ∀ {xs : List β} {a : α}, x ∈ xs → I a →
    (∀ a, ∀ y ∈ xs, I a → I (step a y)) →
    (∀ a, I a → P (step a x)) → (∀ a, ∀ y ∈ xs, I a → P a → P (step a y)) → P (xs.foldl step a)
  | y :: xs, a, hx, ha, hI, hmake, hkeep => by
      rw [List.foldl_cons]
      have hrest : ∀ a, ∀ z ∈ xs, I a → I (step a z) := fun a z hz =>
        hI a z (List.mem_cons_of_mem _ hz)
      have hkeep' : ∀ a, ∀ z ∈ xs, I a ∧ P a → I (step a z) ∧ P (step a z) := fun a z hz ha =>
        ⟨hrest a z hz ha.1, hkeep a z (List.mem_cons_of_mem _ hz) ha.1 ha.2⟩
      have hy := hI a y List.mem_cons_self ha
      rcases List.mem_cons.mp hx with rfl | hx
      · exact (foldl_keeps (P := fun a => I a ∧ P a) ⟨hy, hmake a ha⟩ hkeep').2
      · exact foldl_reaches hx hy hrest hmake fun a z hz => hkeep a z (List.mem_cons_of_mem _ hz)

end Rows

namespace Entity

variable {e : Entity} {B : String} {n : String}

/-- A row of moves moves back what one of its moves does. -/
theorem movedBack_foldl {α : Type} {move : Entity → α → Entity} {q : α → Field → Bool} :
    ∀ {xs : List α} {e : Entity},
      (∀ d : Entity, d.fields.Perm e.fields → ∀ x ∈ xs,
        MovedBack (q x) d.fields (move d x).fields) →
      MovedBack (fun f => xs.any (q · f)) e.fields (xs.foldl move e).fields
  | [], e, _ => .refl e.fields
  | x :: xs, e, h => by
      have hone := h e (.refl _) x List.mem_cons_self
      have hrest := @movedBack_foldl α move q xs (move e x) fun d hd y hy =>
        h d (hd.trans hone.perm) y (List.mem_cons_of_mem _ hy)
      exact hone.trans hrest

/-! ## One move -/

theorem refill_append {p : Field → Bool} : ∀ {l₁ l₂ ms : List Field}, (∀ f ∈ l₁, p f = false) →
    (∀ f ∈ l₂, p f = true) → ms.length = l₂.length → refill p (l₁ ++ l₂) ms = l₁ ++ ms
  | [], [], ms, _, _, hlength => by rw [List.length_eq_zero_iff.mp hlength]; rfl
  | [], f :: l₂, [], _, _, hlength => by cases hlength
  | [], f :: l₂, m :: ms, h₁, h₂, hlength => by
      have ih : refill p ([] ++ l₂) ms = [] ++ ms := refill_append h₁
        (fun g hg => h₂ g (List.mem_cons_of_mem _ hg)) (Nat.succ.inj hlength)
      rw [List.nil_append, refill, if_pos (h₂ f List.mem_cons_self)]
      exact congrArg (m :: ·) ih
  | f :: l₁, l₂, [], _, _, hlength => by
      rw [List.length_eq_zero_iff.mp hlength.symm, List.cons_append, refill]
  | f :: l₁, l₂, m :: ms, h₁, h₂, hlength => by
      rw [List.cons_append, refill, if_neg (by simp [h₁ f List.mem_cons_self]),
        refill_append (fun g hg => h₁ g (List.mem_cons_of_mem _ hg)) h₂ hlength, List.cons_append]

/-- The entity with a block moved to the tail and sorted there. -/
def blockBack (e : Entity) (B : String) : Entity := (e.moveBlockToTail B).sortBlock B

theorem members_moveBlockToTail (e : Entity) (B : String) :
    (e.moveBlockToTail B).members B = e.members B := by
  simp [members, moveBlockToTail, List.filter_filter]

/-- A block that is moved ends up behind all other fields, sorted. -/
theorem fields_blockBack (e : Entity) (B : String) :
    (e.blockBack B).fields = e.fields.filter (!·.isIn B) ++ (e.members B).mergeSort keyLE := by
  rw [blockBack, sortBlock, members_moveBlockToTail]
  refine refill_append (fun f hf => by simpa using (List.mem_filter.mp hf).2)
    (fun f hf => (List.mem_filter.mp hf).2) (List.length_mergeSort _)

theorem movedBack_blockBack (e : Entity) (B : String) :
    MovedBack (·.isIn B) e.fields (e.blockBack B).fields :=
  ⟨_, fields_blockBack e B, List.mergeSort_perm _ _⟩

theorem movedBack_moveFieldToTail (hnodup : (e.fields.map (·.name)).Nodup) (n : String) :
    MovedBack (·.name == n) e.fields (e.moveFieldToTail n).fields :=
  ⟨_, fields_moveFieldToTail hnodup n, .refl _⟩

theorem movedBack_moveAll {names : List String} (hnodup : (e.fields.map (·.name)).Nodup)
    (hnames : names.Nodup) :
    MovedBack (fun f => decide (f.name ∈ names)) e.fields (e.moveAll names).fields := by
  refine .of_perm _ (e.moveAll_perm names) ((fields_moveAll hnodup hnames).trans
    (congrArg (· ++ names.flatMap fun n => e.fields.filter (·.name == n)) ?_))
  exact List.filter_congr fun f _ => by simp

/-! ## Members in order -/

/-- The members of a block are in order of their keys. -/
def IsSorted (e : Entity) (B : String) : Prop := (e.members B).Pairwise (keyLE · ·)

theorem isSorted_of_members {e' : Entity} (h : e.IsSorted B)
    (hmembers : e'.members B = e.members B) : e'.IsSorted B := by
  rw [IsSorted, hmembers]
  exact h

theorem isSorted_blockBack (e : Entity) (B : String) : (e.blockBack B).IsSorted B := by
  rw [IsSorted, blockBack, members_sortBlock]
  exact pairwise_keyLE _

/-- Another block that is moved leaves a block sorted. -/
theorem IsSorted.blockBack {B' : String} (h : e.IsSorted B) : (e.blockBack B').IsSorted B := by
  by_cases hB : B' = B
  · exact hB ▸ isSorted_blockBack e B'
  · refine isSorted_of_members h ((movedBack_blockBack e B').filter_eq fun f _ hf => ?_)
    exact isIn_ne (fun heq => hB heq.symm) hf

/-- A field that is moved leaves a block sorted, if it is no member. -/
theorem IsSorted.moveFieldToTail (h : e.IsSorted B)
    (hplain : ∀ f ∈ e.fields, f.name = n → f.block = none) : (e.moveFieldToTail n).IsSorted B := by
  refine isSorted_of_members h (filter_firstToTail fun f hf hn => ?_)
  simp [Field.isIn, hplain f hf (by simpa using hn)]

end Entity

end FeatureSynth
