/-
# What a ledger holds

A search that succeeds ends at an entry the order finds equal to the rule sought,
whatever the order is; so much is true before anything is known of how the entries
are sorted.  It is enough to tell what a note of a name changes: the entries that
have a name keep one, and a name that is new stands with a rule that the order does
not tell apart from the one it was noted for.

The entries are made for the rules met in the candidates.  Such a rule has every
property that the candidates and the rules of dimensions have and pass on to their
operands.
-/
import Mathlib.Data.List.InsertIdx
import FeatureSynth.Ledger
import FeatureSynth.Proofs.Bisect

namespace FeatureSynth

/-! ## Searches -/

namespace Ledger

variable {order : Rule → Rule → Ordering} {l : Ledger} {r x : Rule} {name n : String}

/-- Names have no part in a search. -/
theorem search_congr {l' : Ledger} (h : l'.entries.map (·.1) = l.entries.map (·.1)) :
    l'.search order r = l.search order r := by
  have hrules : ∀ l : Ledger, l.search order r = bisectList (l.entries.map (·.1)) (order · r) := by
    intro l
    simp [search, bisectList, Function.comp_def]
  rw [hrules, hrules, h]

theorem of_search_found {i : Nat} (h : l.search order r = .found i) :
    ∃ entry, l.entries[i]? = some entry ∧ order entry.1 r = .eq :=
  of_bisectList_found h

theorem of_search_vacant {i : Nat} (h : l.search order r = .vacant i) : i ≤ l.entries.length := by
  unfold search bisectList at h
  exact of_bisect_vacant h

/-- A rule has a name of the order's equal. -/
theorem of_name? (h : l.name? order r = some n) :
    ∃ x, (x, some n) ∈ l.entries ∧ order x r = .eq := by
  unfold name? get? at h
  cases hsearch : l.search order r with
  | found i =>
    obtain ⟨entry, hi, heq⟩ := of_search_found hsearch
    simp only [hsearch, Spot.found?, Option.bind_some, hi, Option.map_some, Option.join_some] at h
    refine ⟨entry.1, ?_, heq⟩
    rw [← h]
    exact List.mem_of_getElem? hi
  | vacant i =>
    rw [hsearch] at h
    cases h

/-! ## Entries -/

/-- The rules of the entries. -/
def rules (l : Ledger) : List Rule := l.entries.map (·.1)

theorem rules_modify (l : Ledger) (i : Nat) (name : String) :
    (l.entries.modify i fun entry => (entry.1, some name)).map (·.1) = l.entries.map (·.1) := by
  refine List.ext_getElem? fun j => ?_
  rw [List.getElem?_map, List.getElem?_map, List.getElem?_modify]
  split <;> cases l.entries[j]? <;> rfl

/-- To name the rule of an entry enters no other. -/
theorem rules_update (l : Ledger) (order : Rule → Rule → Ordering) (r : Rule) (name : String) :
    (l.update order r name).entries.map (·.1) = l.entries.map (·.1) := by
  unfold update
  split
  · exact rules_modify l _ name
  · rfl

theorem rules_record_of_found {i : Nat} (h : l.search order r = .found i) :
    (l.record order r name).rules = l.rules := by
  unfold record
  rw [h]
  exact rules_modify l i name

theorem mem_rules_insertIdx {i : Nat} {v : Option String} (hi : i ≤ l.entries.length) :
    x ∈ (⟨l.entries.insertIdx i (r, v)⟩ : Ledger).rules ↔ x = r ∨ x ∈ l.rules := by
  rw [rules, List.mem_map]
  simp only [List.mem_insertIdx hi]
  constructor
  · rintro ⟨entry, rfl | hentry, rfl⟩
    · exact .inl rfl
    · exact .inr (List.mem_map_of_mem hentry)
  · rintro (rfl | hx)
    · exact ⟨(x, v), .inl rfl, rfl⟩
    · obtain ⟨entry, hentry, rfl⟩ := List.mem_map.mp hx
      exact ⟨entry, .inr hentry, rfl⟩

/-- To enter a rule, or to note a name for it, adds no other rule. -/
theorem mem_rules_enter (h : x ∈ (l.enter order r).rules) : x = r ∨ x ∈ l.rules := by
  unfold enter at h
  split at h
  · exact .inr h
  · exact (mem_rules_insertIdx (of_search_vacant ‹_›)).mp h

theorem mem_rules_record (h : x ∈ (l.record order r name).rules) : x = r ∨ x ∈ l.rules := by
  cases hsearch : l.search order r with
  | found i => exact .inr (rules_record_of_found hsearch ▸ h)
  | vacant i =>
    rw [record, hsearch] at h
    exact (mem_rules_insertIdx (of_search_vacant hsearch)).mp h

/-- The rules of a ledger into which rules were entered are those it had and those entered. -/
theorem rule_of_mem_foldl_enter {entry : Rule × Option String} :
    ∀ (rules : List Rule) (l : Ledger), entry ∈ (rules.foldl (·.enter order ·) l).entries →
      entry ∈ l.entries ∨ entry.1 ∈ rules
  | [], _, h => .inl h
  | r :: rules, l, h => by
      rcases rule_of_mem_foldl_enter rules (l.enter order r) h with h | h
      · unfold enter at h
        split at h
        · exact .inl h
        · rename_i i hsearch
          rcases (List.mem_insertIdx (of_search_vacant hsearch)).mp h with rfl | h
          · exact .inr List.mem_cons_self
          · exact .inl h
      · exact .inr (List.mem_cons_of_mem _ h)

/-- To enter a rule names nothing. -/
theorem mem_enter : (x, some n) ∈ (l.enter order r).entries ↔ (x, some n) ∈ l.entries := by
  unfold enter
  cases hsearch : l.search order r with
  | found i => rfl
  | vacant i =>
    show _ ∈ l.entries.insertIdx i (r, none) ↔ _
    rw [List.mem_insertIdx (of_search_vacant hsearch)]
    simp

theorem mem_foldl_enter : ∀ (rules : List Rule) (l : Ledger),
    (x, some n) ∈ (rules.foldl (·.enter order ·) l).entries ↔ (x, some n) ∈ l.entries
  | [], _ => Iff.rfl
  | r :: rules, l => (mem_foldl_enter rules (l.enter order r)).trans mem_enter

/-- A rule is entered in a ledger with its names left out as in one that has them. -/
theorem enter_nameless {l' : Ledger} (h : l'.entries = l.entries.map fun entry => (entry.1, none)) :
    (l'.enter order r).entries = (l.enter order r).entries.map fun entry => (entry.1, none) := by
  have hrules : l'.entries.map (·.1) = l.entries.map (·.1) := by
    rw [h, List.map_map]
    rfl
  unfold enter
  rw [search_congr hrules]
  cases l.search order r with
  | found i => exact h
  | vacant i =>
    dsimp only
    rw [h, List.map_insertIdx]

theorem foldl_enter_nameless : ∀ (rules : List Rule) (l l' : Ledger),
    l'.entries = l.entries.map (fun entry => (entry.1, none)) →
      (rules.foldl (·.enter order ·) l').entries =
        (rules.foldl (·.enter order ·) l).entries.map fun entry => (entry.1, none)
  | [], _, _, h => h
  | r :: rules, l, l', h => foldl_enter_nameless rules (l.enter order r) (l'.enter order r)
      (enter_nameless h)

/-- A name that is there after a note was there before, or is the one noted, for a rule that the
order does not tell apart. -/
theorem mem_record (h : (x, some n) ∈ (l.record order r name).entries) :
    (x, some n) ∈ l.entries ∨ (n = name ∧ (order x r = .eq ∨ x = r)) := by
  unfold record at h
  cases hsearch : l.search order r with
  | found i =>
    rw [hsearch] at h
    obtain ⟨entry, hi, heq⟩ := of_search_found hsearch
    obtain ⟨j, hj⟩ := List.mem_iff_getElem?.mp h
    by_cases hij : i = j
    · subst hij
      rw [List.getElem?_modify_eq, hi] at hj
      cases hj
      exact .inr ⟨rfl, .inl heq⟩
    · rw [List.getElem?_modify_ne _ _ hij] at hj
      exact .inl (List.mem_of_getElem? hj)
  | vacant i =>
    rw [hsearch] at h
    rcases (List.mem_insertIdx (of_search_vacant hsearch)).mp h with heq | hmem
    · cases heq
      exact .inr ⟨rfl, .inr rfl⟩
    · exact .inl hmem

/-- A name that is there after an update was there before, or is the new one, for a rule that the
order does not tell apart. -/
theorem mem_update (h : (x, some n) ∈ (l.update order r name).entries) :
    (x, some n) ∈ l.entries ∨ (n = name ∧ order x r = .eq) := by
  unfold update at h
  cases hsearch : l.search order r with
  | found i =>
    rw [hsearch] at h
    obtain ⟨entry, hi, heq⟩ := of_search_found hsearch
    obtain ⟨j, hj⟩ := List.mem_iff_getElem?.mp h
    by_cases hij : i = j
    · subst hij
      rw [List.getElem?_modify_eq, hi] at hj
      cases hj
      exact .inr ⟨rfl, heq⟩
    · rw [List.getElem?_modify_ne _ _ hij] at hj
      exact .inl (List.mem_of_getElem? hj)
  | vacant i =>
    rw [hsearch] at h
    exact .inl h

/-- A name stays, or it gives way to the new one, for a rule that the order does not tell apart. -/
theorem update_keeps (h : (x, some n) ∈ l.entries) :
    (x, some n) ∈ (l.update order r name).entries ∨
      ((x, some name) ∈ (l.update order r name).entries ∧ order x r = .eq) := by
  unfold update
  cases hsearch : l.search order r with
  | found i =>
    obtain ⟨entry, hi, heq⟩ := of_search_found hsearch
    obtain ⟨j, hj⟩ := List.mem_iff_getElem?.mp h
    by_cases hij : i = j
    · subst hij
      obtain rfl : entry = (x, some n) := Option.some.inj (hi.symm.trans hj)
      refine .inr ⟨List.mem_of_getElem? (i := i) ?_, heq⟩
      rw [List.getElem?_modify_eq, hj]
      rfl
    · exact .inl (List.mem_of_getElem? ((List.getElem?_modify_ne _ _ hij).trans hj))
  | vacant i => exact .inl h

/-- A rule that has an entry gets the new name, or one that the order does not tell apart. -/
theorem update_names (h : l.contains order r = true) :
    ∃ x, (x, some name) ∈ (l.update order r name).entries ∧ order x r = .eq := by
  unfold contains at h
  unfold update
  cases hsearch : l.search order r with
  | found i =>
    obtain ⟨entry, hi, heq⟩ := of_search_found hsearch
    refine ⟨entry.1, List.mem_of_getElem? (i := i) ?_, heq⟩
    rw [List.getElem?_modify_eq, hi]
    rfl
  | vacant i =>
    rw [hsearch] at h
    cases h

/-- Rules with a name keep one. -/
theorem record_keeps (h : (x, some n) ∈ l.entries) :
    ∃ m, (x, some m) ∈ (l.record order r name).entries := by
  unfold record
  cases hsearch : l.search order r with
  | found i =>
    obtain ⟨j, hj⟩ := List.mem_iff_getElem?.mp h
    by_cases hij : i = j
    · subst hij
      refine ⟨name, List.mem_of_getElem? (i := i) ?_⟩
      rw [List.getElem?_modify_eq, hj]
      rfl
    · refine ⟨n, List.mem_of_getElem? (i := j) ?_⟩
      rw [List.getElem?_modify_ne _ _ hij, hj]
  | vacant i => exact ⟨n, (List.mem_insertIdx (of_search_vacant hsearch)).mpr (.inr h)⟩

/-- A note for a rule without a name takes no name away. -/
theorem record_keeps_name
    (hnone : ∀ y m, (y, some m) ∈ l.entries → order y r ≠ .eq) (hx : (x, some n) ∈ l.entries) :
    (x, some n) ∈ (l.record order r name).entries := by
  unfold record
  cases hsearch : l.search order r with
  | found i =>
    obtain ⟨entry, hi, heq⟩ := of_search_found hsearch
    obtain ⟨j, hj⟩ := List.mem_iff_getElem?.mp hx
    by_cases hij : i = j
    · subst hij
      obtain rfl : entry = (x, some n) := Option.some.inj (hi.symm.trans hj)
      exact absurd heq (hnone x n hx)
    · exact List.mem_of_getElem? ((List.getElem?_modify_ne _ _ hij).trans hj)
  | vacant i => exact (List.mem_insertIdx (of_search_vacant hsearch)).mpr (.inr hx)

/-- The rule noted, or one that the order does not tell apart, has the name. -/
theorem record_names (order : Rule → Rule → Ordering) (l : Ledger) (r : Rule) (name : String) :
    ∃ x, (x, some name) ∈ (l.record order r name).entries ∧ (order x r = .eq ∨ x = r) := by
  unfold record
  cases hsearch : l.search order r with
  | found i =>
    obtain ⟨entry, hi, heq⟩ := of_search_found hsearch
    refine ⟨entry.1, List.mem_of_getElem? (i := i) ?_, .inl heq⟩
    rw [List.getElem?_modify_eq, hi]
    rfl
  | vacant i => exact ⟨r, (List.mem_insertIdx (of_search_vacant hsearch)).mpr (.inl rfl), .inr rfl⟩

end Ledger

/-! ## What is collected -/

namespace Rule

/-- A property that the rule operands of a rule have with it. -/
def Hereditary (Q : Rule → Prop) : Prop := ∀ r inner, Q r → .rule inner ∈ r.operands → Q inner

section Collected

variable {Q : Rule → Prop} {parts : Part → List Rule}

mutual

/-- What a rule has, and hands on to its operands and to what is met in its parts, all rules met in
it have. -/
theorem of_mem_subrulesWith (hQ : Hereditary Q)
    (hparts : ∀ r p, Q r → .part p ∈ r.operands → ∀ x ∈ parts p, Q x) :
    ∀ r, Q r → ∀ x ∈ subrulesWith parts r, Q x
  | ⟨template, className, operands, cost, tieBreak⟩, hr, x, hx => by
      rw [subrulesWith] at hx
      rcases List.mem_append.mp hx with hx | hx
      · exact of_mem_subrulesIn hQ hparts operands (fun inner => hQ _ inner hr)
          (fun p => hparts _ p hr) x hx
      · exact List.mem_singleton.mp hx ▸ hr

theorem of_mem_subrulesIn (hQ : Hereditary Q)
    (hparts : ∀ r p, Q r → .part p ∈ r.operands → ∀ x ∈ parts p, Q x) :
    ∀ xs : List (RuleOperand Rule), (∀ inner, .rule inner ∈ xs → Q inner) →
      (∀ p, .part p ∈ xs → ∀ x ∈ parts p, Q x) → ∀ x ∈ subrulesIn parts xs, Q x
  | [], _, _, x, hx => by cases hx
  | y :: rest, h, h', x, hx => by
      have hrest : x ∈ subrulesIn parts rest → Q x := of_mem_subrulesIn hQ hparts rest
        (fun inner hinner => h inner (List.mem_cons_of_mem _ hinner))
        (fun p hp => h' p (List.mem_cons_of_mem _ hp)) x
      cases y with
      | field name type => exact hrest hx
      | rule inner =>
        rw [subrulesIn] at hx
        rcases List.mem_append.mp hx with hx | hx
        · exact of_mem_subrulesWith hQ hparts inner (h inner List.mem_cons_self) x hx
        · exact hrest hx
      | part p =>
        rw [subrulesIn] at hx
        rcases List.mem_append.mp hx with hx | hx
        · exact h' p List.mem_cons_self x hx
        · exact hrest hx

end

end Collected

/-! ## What a rule is built from -/

/-- The rules a rule is built from: its operands, their operands, and so on. -/
def ingredients (r : Rule) : List Rule := subrulesIn (fun _ => []) r.operands

theorem subrulesWith_eq (r : Rule) : r.subrulesWith (fun _ => []) = r.ingredients ++ [r] := by
  obtain ⟨template, className, operands, cost, tieBreak⟩ := r
  rw [subrulesWith, ingredients]

theorem mem_subrulesIn {parts : Part → List Rule} {x inner : Rule} :
    ∀ {xs : List (RuleOperand Rule)}, .rule inner ∈ xs → x ∈ subrulesWith parts inner →
      x ∈ subrulesIn parts xs
  | .rule y :: rest, h, hx => by
      rw [subrulesIn]
      rcases List.mem_cons.mp h with heq | h
      · cases heq
        exact List.mem_append_left _ hx
      · exact List.mem_append_right _ (mem_subrulesIn h hx)
  | .field .. :: rest, h, hx => by
      rw [subrulesIn]
      exact mem_subrulesIn ((List.mem_cons.mp h).resolve_left nofun) hx
  | .part part :: rest, h, hx => by
      rw [subrulesIn]
      exact List.mem_append_right _ (mem_subrulesIn ((List.mem_cons.mp h).resolve_left nofun) hx)

theorem mem_ingredients {r inner : Rule} (h : .rule inner ∈ r.operands) : inner ∈ r.ingredients :=
  mem_subrulesIn h (by rw [subrulesWith_eq]; simp)

mutual

theorem ingredients_of_mem_subrulesWith : ∀ r x inner : Rule, x ∈ r.subrulesWith (fun _ => []) →
    .rule inner ∈ x.operands → inner ∈ r.ingredients
  | ⟨template, className, operands, cost, tieBreak⟩, x, inner, hx, hinner => by
      rw [subrulesWith] at hx
      rcases List.mem_append.mp hx with hx | hx
      · exact subrulesIn_of_mem_subrulesIn operands x inner hx hinner
      · rw [List.mem_singleton] at hx
        subst hx
        exact mem_ingredients hinner

theorem subrulesIn_of_mem_subrulesIn : ∀ (xs : List (RuleOperand Rule)) (x inner : Rule),
    x ∈ subrulesIn (fun _ => []) xs → .rule inner ∈ x.operands → inner ∈ subrulesIn (fun _ => []) xs
  | [], x, _, hx, _ => by cases hx
  | .field .. :: rest, x, inner, hx, hinner => by
      rw [subrulesIn] at hx ⊢
      exact subrulesIn_of_mem_subrulesIn rest x inner hx hinner
  | .rule y :: rest, x, inner, hx, hinner => by
      rw [subrulesIn] at hx ⊢
      rcases List.mem_append.mp hx with hx | hx
      · refine List.mem_append_left _ ?_
        rw [subrulesWith_eq]
        exact List.mem_append_left _ (ingredients_of_mem_subrulesWith y x inner hx hinner)
      · exact List.mem_append_right _ (subrulesIn_of_mem_subrulesIn rest x inner hx hinner)
  | .part part :: rest, x, inner, hx, hinner => by
      rw [subrulesIn, List.nil_append] at hx ⊢
      exact subrulesIn_of_mem_subrulesIn rest x inner hx hinner

end

/-- What an ingredient is built from is an ingredient. -/
theorem hereditary_ingredients (r : Rule) : Hereditary (· ∈ r.ingredients) := fun x inner hx hinner =>
  ingredients_of_mem_subrulesWith r x inner (by rw [subrulesWith_eq]; exact List.mem_append_left _ hx)
    hinner

/-- Some rules, and all they are built from. -/
def Within (rules : List Rule) (x : Rule) : Prop := ∃ r ∈ rules, x = r ∨ x ∈ r.ingredients

theorem hereditary_within (rules : List Rule) : Hereditary (Within rules) := by
  rintro x inner ⟨r, hr, rfl | hx⟩ hinner
  · exact ⟨x, hr, .inr (mem_ingredients hinner)⟩
  · exact ⟨r, hr, .inr (hereditary_ingredients r x inner hx hinner)⟩

theorem of_mem_ingredients {Q : Rule → Prop} (hQ : Hereditary Q) {r : Rule} (hr : Q r) :
    ∀ x ∈ r.ingredients, Q x :=
  of_mem_subrulesIn hQ (fun _ _ _ _ _ h => absurd h List.not_mem_nil) r.operands
    (fun inner => hQ r inner hr) fun _ _ _ h => absurd h List.not_mem_nil

/-- What some rules have and pass on, all within them have. -/
theorem of_within {Q : Rule → Prop} (hQ : Hereditary Q) {rules : List Rule} (h : ∀ r ∈ rules, Q r) :
    ∀ x, Within rules x → Q x := by
  rintro x ⟨r, hr, rfl | hx⟩
  · exact h x hr
  · exact of_mem_ingredients hQ (h r hr) x hx

end Rule

namespace Space

variable {Q : Rule → Prop} {s : Space}

theorem exists_of_mem_dimensionRules {part : Part} {r : Rule} (h : r ∈ s.dimensionRules part) :
    ∃ d ∈ s.dimensions, d.origin = .rule r := by
  unfold dimensionRules at h
  split at h
  · obtain ⟨d, hd, hr⟩ := List.mem_filterMap.mp h
    obtain ⟨a, -, ha⟩ := List.mem_filterMap.mp hd
    refine ⟨d, List.mem_of_getElem? ha, ?_⟩
    unfold Dimension.rule? at hr
    split at hr
    · cases hr
    · cases hr
      assumption
  · cases h

/-- What the rules of dimensions have, and a rule with all it is built from, every rule met in it
has. -/
theorem of_mem_subrules (hQ : Rule.Hereditary Q)
    (hdims : ∀ d ∈ s.dimensions, ∀ r, d.origin = .rule r → Q r) {r : Rule} (hr : Q r) :
    ∀ x ∈ s.subrules r, Q x := by
  have hparts : ∀ fuel p, ∀ x ∈ s.partSubrules fuel p, Q x := by
    intro fuel
    induction fuel with
    | zero => simp [partSubrules]
    | succ fuel ih =>
      intro p x hx
      obtain ⟨y, hy, hx⟩ := List.mem_flatMap.mp hx
      obtain ⟨d, hd, hr⟩ := exists_of_mem_dimensionRules hy
      exact Rule.of_mem_subrulesWith hQ (fun _ p _ _ => ih p) y (hdims d hd y hr) x hx
  exact Rule.of_mem_subrulesWith hQ (fun _ p _ _ => hparts s.depth p) r hr

end Space

end FeatureSynth
