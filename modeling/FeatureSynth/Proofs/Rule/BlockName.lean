/-
# Names of members and of their blocks

A new block gets its name while its first member has one but is not yet in place, so
nothing but the two names themselves keeps them apart.  Readable names do: the name of a
member says *where*, the name of its block says *per*, behind a common beginning.  So do
numbers, because each is given out once.  Either way what `Entity.freeName` adds at the end
does not bring them together again.
-/
import FeatureSynth.Proofs.Rule.FirstPart
import FeatureSynth.Proofs.Schema.FreeName
import FeatureSynth.Rule.Name

namespace FeatureSynth

/-! ## Texts that part -/

/-- Texts with different characters behind a common beginning. -/
def Fork (a b : List Char) : Prop :=
  ∃ l c x d y, a = l ++ c :: x ∧ b = l ++ d :: y ∧ c ≠ d

namespace Fork

variable {a b : List Char}

theorem of_ne {c d : Char} (h : c ≠ d) (x y : List Char) : Fork (c :: x) (d :: y) :=
  ⟨[], c, x, d, y, rfl, rfl, h⟩

theorem behind (h : Fork a b) (l : List Char) : Fork (l ++ a) (l ++ b) := by
  obtain ⟨l', c, x, d, y, rfl, rfl, hne⟩ := h
  exact ⟨l ++ l', c, x, d, y, by simp, by simp, hne⟩

theorem before (h : Fork a b) (x y : List Char) : Fork (a ++ x) (b ++ y) := by
  obtain ⟨l, c, x', d, y', rfl, rfl, hne⟩ := h
  exact ⟨l, c, x' ++ x, d, y' ++ y, by simp, by simp, hne⟩

theorem ne (h : Fork a b) : a ≠ b := by
  obtain ⟨l, c, x, d, y, rfl, rfl, hne⟩ := h
  exact fun heq => hne (List.cons.inj (List.append_cancel_left heq)).1

/-- A text with a blank behind it parts from the same text behind a word without blanks: either
the word differs from the beginning of the text, or it comes back, turned, behind the text. -/
theorem turn : ∀ (t w x y : List Char), w ≠ [] → ' ' ∉ w → Fork (t ++ ' ' :: x) (w ++ (t ++ y))
  | _, [], _, _, hw, _ => absurd rfl hw
  | [], c :: w, x, y, _, hblank => of_ne (fun h => hblank (by simp [← h])) _ _
  | c :: t, d :: w, x, y, _, hblank => by
      by_cases h : c = d
      · subst h
        have hturn := turn t (w ++ [c]) x y (by simp) (by simpa [and_comm] using hblank)
        have := hturn.behind [c]
        simpa using this
      · exact of_ne h _ _

end Fork

/-- Stems that are free under different names, wherever they are used. -/
def StemsApart (a b : String) : Prop := ∀ e e' : Entity, e.freeName a ≠ e'.freeName b

/-- A free name is the stem, or the stem with a number. -/
theorem freeName_eq (e : Entity) (stem : String) :
    e.freeName stem = stem ∨ ∃ k, e.freeName stem = Entity.numbered stem k := by
  by_cases hstem : stem ∈ e.names
  · obtain ⟨tried, hsearch⟩ := Entity.exists_search_freeName hstem
    obtain ⟨k, -, hfound, -⟩ := hsearch.ends
    exact .inr ⟨k, hfound⟩
  · exact .inl (Entity.freeName_eq_stem hstem)

theorem exists_toList_freeName (e : Entity) (stem : String) :
    ∃ x, (e.freeName stem).toList = stem.toList ++ x ∧ ∀ c ∈ x.head?, c.isDigit = false := by
  rcases freeName_eq e stem with h | ⟨k, h⟩
  · exact ⟨[], by rw [h, List.append_nil], by simp⟩
  · refine ⟨'_' :: (toString k).toList, ?_, by simp⟩
    rw [h, Entity.numbered, String.toList_append, String.toList_append, List.append_assoc]
    rfl

theorem Fork.stemsApart {a b : String} (h : Fork a.toList b.toList) : StemsApart a b := by
  intro e e' heq
  obtain ⟨x, hx, -⟩ := exists_toList_freeName e a
  obtain ⟨y, hy, -⟩ := exists_toList_freeName e' b
  exact (h.before x y).ne (hx ▸ hy ▸ congrArg String.toList heq)

/-- The digits of a number end where something else begins. -/
theorem takeWhile_digits (n : Nat) {x : List Char} (hx : ∀ c ∈ x.head?, c.isDigit = false) :
    ((Nat.toDigits 10 n) ++ x).takeWhile Char.isDigit = Nat.toDigits 10 n := by
  have hdigits : ∀ c ∈ Nat.toDigits 10 n, c.isDigit = true := fun c hc =>
    Nat.isDigit_of_mem_toDigits (b := 10) (by omega) (by omega) hc
  rw [List.takeWhile_append_of_pos hdigits]
  cases x with
  | nil => rw [List.takeWhile_nil, List.append_nil]
  | cons c x => rw [List.takeWhile_cons_of_neg (by simp [hx c rfl]), List.append_nil]

namespace NameSource

/-- Different numbers give stems apart. -/
theorem stemsApart_next {n m : NameSource} (h : n.last ≠ m.last) :
    StemsApart n.next.1 m.next.1 := by
  intro e e' heq
  obtain ⟨x, hx, hx'⟩ := exists_toList_freeName e n.next.1
  obtain ⟨y, hy, hy'⟩ := exists_toList_freeName e' m.next.1
  have htext : ∀ n : NameSource,
      n.next.1.toList = "ConstructedFeature".toList ++ Nat.toDigits 10 (n.last + 1) := by
    intro n
    have hrepr : (toString (n.last + 1)).toList = Nat.toDigits 10 (n.last + 1) := Nat.toList_repr
    exact String.toList_append.trans (by rw [hrepr])
  rw [htext, List.append_assoc] at hx hy
  have hdigits := List.append_cancel_left (hx.symm.trans ((congrArg String.toList heq).trans hy))
  have hnumber : Nat.toDigits 10 (n.last + 1) = Nat.toDigits 10 (m.last + 1) := by
    rw [← takeWhile_digits _ hx', hdigits, takeWhile_digits _ hy']
  have hrepr : (n.last + 1).repr = (m.last + 1).repr := by
    rw [← String.toList_inj, Nat.toList_repr, Nat.toList_repr, hnumber]
  exact h (Nat.succ.inj (Nat.repr_inj.mp hrepr))

variable {n n₁ n₂ : NameSource} {a b : String} {x y : Except BuildError String}

theorem choose_eq_ok (h : n.choose x = .ok (a, n₁)) :
    n.readable = true ∧ x = .ok a ∧ n₁ = n ∨
      n.readable = false ∧ a = n.next.1 ∧ n₁ = n.next.2 := by
  unfold choose at h
  split at h
  · rename_i hreadable
    cases x with
    | error => cases h
    | ok name => cases h; exact .inl ⟨hreadable, rfl, rfl⟩
  · rename_i hnumbers
    have heq := Except.ok.inj h
    exact .inr ⟨by simpa using hnumbers, by rw [heq], by rw [heq]⟩

/-- Stems taken one after the other are apart if they are where names are readable. -/
theorem stemsApart_choose (ha : n.choose x = .ok (a, n₁)) (hb : n₁.choose y = .ok (b, n₂))
    (hreadable : n.readable = true → x = .ok a → y = .ok b → StemsApart a b) : StemsApart a b := by
  rcases choose_eq_ok ha with ⟨hr, hx, rfl⟩ | ⟨hr, rfl, rfl⟩
  · rcases choose_eq_ok hb with ⟨-, hy, -⟩ | ⟨hr', -⟩
    · exact hreadable hr hx hy
    · rw [hr] at hr'
      cases hr'
  · have hnext : n.next.2.readable = false := hr
    rcases choose_eq_ok hb with ⟨hr', -⟩ | ⟨-, rfl, -⟩
    · rw [hnext] at hr'
      cases hr'
    · exact stemsApart_next (Nat.ne_of_lt (Nat.lt_succ_self _))

end NameSource

/-! ## Tables -/

/-- The block of the parts of a table is not named like one of them. -/
theorem stemsApart_part (n : NameSource) (s : Space) (part : Part) {n₁ n₂ : NameSource}
    {a b : String} (ha : n.ofPart s part = .ok (a, n₁))
    (hb : n₁.ofTableBlock s part.partition = .ok (b, n₂)) : StemsApart a b := by
  refine NameSource.stemsApart_choose ha hb fun _ hx hy => Fork.stemsApart ?_
  cases hpart : s.partName part with
  | error => rw [hpart] at hx; cases hx
  | ok values =>
    cases hpartition : s.partitionName part.partition with
    | error => rw [hpartition] at hy; cases hy
    | ok axes =>
      rw [hpart] at hx
      rw [hpartition] at hy
      cases hx
      cases hy
      have hturn := Fork.turn ((s.partitions[part.partition]?.map (·.table)).getD "").toList
        "TablePartition(".toList ("where ".toList ++ values.toList) (") per ".toList ++ axes.toList)
        (by decide) (by decide)
      have hwhere : " where ".toList = [' '] ++ "where ".toList := by decide
      simpa only [String.toList_append, List.append_assoc, hwhere, List.cons_append,
        List.nil_append] using hturn

/-! ## Rules -/

theorem bind_eq_ok {ε α β : Type} {x : Except ε α} {f : α → Except ε β} {b : β} :
    (x >>= f) = .ok b ↔ ∃ a, x = .ok a ∧ f a = .ok b := by
  cases x <;> simp [bind, Except.bind]

theorem map_eq_ok {ε α β : Type} {x : Except ε α} {f : α → β} {b : β} :
    x.map f = .ok b ↔ ∃ a, x = .ok a ∧ f a = b := by
  cases x <;> simp [Except.map]

namespace Rule

mutual

/-- Whether the name of the block of a rule tells it from the rule: somewhere in it stands *per* for
*where*. -/
def tellsBlock : Rule → Bool
  | ⟨template, className, operands, cost, tieBreak⟩ =>
    match template.family with
    | .date | .time | .timestamp | .timestampTZ => operandTellsBlock operands 0
    | .entity =>
      operandTellsBlock operands 0 || (operands.length != 1 && operandTellsBlock operands 1)
    | .table =>
      (selectionRule? ⟨template, className, operands, cost, tieBreak⟩).isSome ||
        (decide (1 < operands.length) && operandTellsBlock operands 1)

/-- The same of the operand at a position. -/
def operandTellsBlock : List (RuleOperand Rule) → (position : Nat) → Bool
  | .rule inner :: _, 0 => tellsBlock inner
  | _ :: rest, position + 1 => operandTellsBlock rest position
  | _, _ => false

end

variable {r : Rule} {names : SelectionNames} {asBlock : Bool} {n m : String}

/-- The value that a statistic is taken of, behind a dot; nothing where there is none. -/
def valueName (names : SelectionNames) (asBlock : Bool) (r : Rule) : Except BuildError String :=
  if 1 < r.operands.length then
    (operandNameWith names (asBlock && r.selectionRule?.isNone) r r.operands 1 1).map ("." ++ ·)
  else .ok ""

/-- The name of a selection. -/
theorem nameWith_selection (names : SelectionNames) (asBlock : Bool)
    (hfamily : r.template.family = .table) (hselects : r.template.selection = true) :
    r.nameWith names asBlock = (do
      let table ← r.tableName
      return table ++ (← r.selectionSuffix names asBlock)) := by
  obtain ⟨template, className, operands, cost, tieBreak⟩ := r
  dsimp only at hfamily hselects
  rw [nameWith, hfamily]
  simp only [hselects, if_true]

/-- The name of a statistic of a table. -/
theorem nameWith_statistic (names : SelectionNames) (asBlock : Bool)
    (hfamily : r.template.family = .table) (hselects : r.template.selection = false) :
    r.nameWith names asBlock = (do
      let table ← r.tableName
      let value ← r.valueName names asBlock
      let suffix ← r.selectionSuffix names asBlock
      return r.template.operatorName ++ "(" ++ table ++ value ++ ")" ++ suffix) := by
  obtain ⟨template, className, operands, cost, tieBreak⟩ := r
  dsimp only at hfamily hselects
  rw [nameWith, hfamily]
  simp only [hselects, Bool.false_eq_true, if_false, valueName]
  split <;> rfl

/-- What follows the name of a statistic of a selection: *where* or *per*. -/
theorem fork_selectionSuffix {selection : Rule} (hselection : r.selectionRule? = some selection)
    (hn : r.selectionSuffix names false = .ok n) (hm : r.selectionSuffix names true = .ok m) :
    Fork n.toList m.toList := by
  rw [selectionSuffix, hselection] at hn hm
  dsimp only at hn hm
  cases hpart : selection.partOperand? 1 with
  | none => rw [hpart] at hn; cases hn
  | some part =>
    rw [hpart] at hn hm
    dsimp only at hn hm
    rw [if_neg Bool.false_ne_true] at hn
    rw [if_pos rfl] at hm
    cases hvalues : names.part part with
    | error => rw [hvalues] at hn; cases hn
    | ok values =>
      cases haxes : names.partition part.partition with
      | error => rw [haxes] at hm; cases hm
      | ok axes =>
        rw [hvalues] at hn
        rw [haxes] at hm
        cases hn
        cases hm
        rw [String.toList_append, String.toList_append]
        exact (Fork.of_ne (by decide) _ _).behind [' '] |>.before values.toList axes.toList

/-- Of a rule that takes its table from no selection nothing follows. -/
theorem selectionSuffix_of_none (names : SelectionNames) (asBlock : Bool)
    (h : r.selectionRule? = none) : r.selectionSuffix names asBlock = .ok "" := by
  rw [selectionSuffix, h]

theorem selection_of_selectionRule? (h : r.selectionRule? = none) :
    r.template.selection = false := by
  cases hselects : r.template.selection with
  | false => rfl
  | true =>
    rw [selectionRule?, if_pos (show r.isSelection = true from hselects)] at h
    cases h

mutual

/-- Where it does not, they are one name. -/
theorem nameWith_congr : ∀ r : Rule, r.tellsBlock = false →
    r.nameWith names true = r.nameWith names false
  | ⟨template, className, operands, cost, tieBreak⟩, htells => by
      cases hfamily : template.family with
      | date | time | timestamp | timestampTZ =>
        simp only [tellsBlock, hfamily] at htells
        simp only [nameWith, hfamily, operandNameWith_congr operands 0 0 _ htells]
      | entity =>
        simp only [tellsBlock, hfamily, Bool.or_eq_false_iff, Bool.and_eq_false_iff, bne_eq_false_iff_eq]
          at htells
        simp only [nameWith, hfamily, operandNameWith_congr operands 0 0 _ htells.1]
        by_cases hone : operands.length = 1
        · simp only [if_pos hone]
        · simp only [if_neg hone, operandNameWith_congr operands 1 1 _ (htells.2.resolve_left hone)]
      | table =>
        simp only [tellsBlock, hfamily, Bool.or_eq_false_iff, Bool.and_eq_false_iff,
          decide_eq_false_iff_not] at htells
        have hselection := Option.isSome_eq_false_iff.mp htells.1
        rw [Option.isNone_iff_eq_none] at hselection
        have hselects := selection_of_selectionRule? hselection
        have hvalue : ∀ r : Rule, r.operands = operands → r.selectionRule? = none →
            r.valueName names true = r.valueName names false := by
          rintro r rfl hnone
          rw [valueName, valueName, hnone]
          split
          · rename_i hsecond
            exact congrArg _ (operandNameWith_congr r.operands 1 1 r
              (htells.2.resolve_left fun h => h hsecond))
          · rfl
        rw [nameWith_statistic names _ hfamily hselects, nameWith_statistic names _ hfamily hselects,
          hvalue _ rfl hselection, selectionSuffix_of_none names _ hselection,
          selectionSuffix_of_none names _ hselection]

theorem operandNameWith_congr : ∀ (xs : List (RuleOperand Rule)) (position index : Nat) (r : Rule),
    operandTellsBlock xs position = false →
      operandNameWith names true r xs position index = operandNameWith names false r xs position index
  | [], position, index, r, _ => by cases position <;> rfl
  | .field .. :: _, 0, _, _, _ => rfl
  | .part _ :: _, 0, _, _, _ => rfl
  | .rule inner :: rest, 0, index, r, h => by
      rw [operandNameWith, operandNameWith]
      exact nameWith_congr inner h
  | first :: rest, position + 1, index, r, h => by
      rw [operandTellsBlock] at h
      rw [operandNameWith, operandNameWith]
      exact operandNameWith_congr rest position index r h

end

/-- The two names of every operand that tells the block part. -/
def OperandsFork (names : SelectionNames) (r : Rule) : Prop :=
  ∀ (position index : Nat) (n m : String), operandTellsBlock r.operands position = true →
    operandNameWith names false r r.operands position index = .ok n →
    operandNameWith names true r r.operands position index = .ok m → Fork n.toList m.toList

/-- A value read off an entity is named by its first two operands. -/
theorem fork_entityName (hfork : r.OperandsFork names)
    (hfamily : r.template.family = .entity) (htells : r.tellsBlock = true)
    (hn : r.nameWith names false = .ok n) (hm : r.nameWith names true = .ok m) :
    Fork n.toList m.toList := by
  obtain ⟨template, className, operands, cost, tieBreak⟩ := r
  dsimp only at hfamily
  simp only [tellsBlock, hfamily, Bool.or_eq_true, Bool.and_eq_true, bne_iff_ne] at htells
  simp only [nameWith, hfamily, bind_eq_ok] at hn hm
  obtain ⟨a, ha, hn⟩ := hn
  obtain ⟨b, hb, hm⟩ := hm
  by_cases hone : operands.length = 1
  · rw [if_pos hone] at hn hm
    cases hn
    cases hm
    have hfirst := htells.resolve_right fun h => h.1 hone
    simp only [String.toList_append, List.append_assoc]
    exact ((hfork 0 0 a b hfirst ha hb).before _ _).behind _ |>.behind _
  · rw [if_neg hone, bind_eq_ok] at hn hm
    obtain ⟨a', ha', hn⟩ := hn
    obtain ⟨b', hb', hm⟩ := hm
    cases hn
    cases hm
    simp only [String.toList_append]
    cases hfirst : operandTellsBlock operands 0 with
    | true => exact ((hfork 0 0 a b hfirst ha hb).before _ _).before _ _
    | false =>
      rw [operandNameWith_congr operands 0 0 _ hfirst, ha] at hb
      cases hb
      have hsecond := (htells.resolve_left (by simp [hfirst])).2
      exact (hfork 1 1 a' b' hsecond ha' hb').behind _

/-- The name of a rule that takes its table from a selection parts behind it. -/
theorem fork_name_of_selection (hfamily : r.template.family = .table) {selection : Rule}
    (hselection : r.selectionRule? = some selection) (hn : r.nameWith names false = .ok n)
    (hm : r.nameWith names true = .ok m) : Fork n.toList m.toList := by
  cases hselects : r.template.selection with
  | true =>
    rw [nameWith_selection names _ hfamily hselects] at hn hm
    simp only [bind_eq_ok] at hn hm
    obtain ⟨table, htable, suffix, hsuffix, hn⟩ := hn
    obtain ⟨table', htable', suffix', hsuffix', hm⟩ := hm
    obtain rfl := Except.ok.inj (htable.symm.trans htable')
    cases hn
    cases hm
    simp only [String.toList_append]
    exact (fork_selectionSuffix hselection hsuffix hsuffix').behind _
  | false =>
    rw [nameWith_statistic names _ hfamily hselects] at hn hm
    simp only [bind_eq_ok] at hn hm
    obtain ⟨table, htable, value, hvalue, suffix, hsuffix, hn⟩ := hn
    obtain ⟨table', htable', value', hvalue', suffix', hsuffix', hm⟩ := hm
    obtain rfl := Except.ok.inj (htable.symm.trans htable')
    -- the value inside a selection is named alike
    rw [valueName, hselection, Option.isNone_some, Bool.and_false] at hvalue hvalue'
    obtain rfl := Except.ok.inj (hvalue.symm.trans hvalue')
    cases hn
    cases hm
    simp only [String.toList_append]
    exact (fork_selectionSuffix hselection hsuffix hsuffix').behind _

/-- A statistic of a whole table is named by the value that it is of. -/
theorem fork_name_of_value (hfork : r.OperandsFork names)
    (hfamily : r.template.family = .table) (hselection : r.selectionRule? = none)
    (htells : r.tellsBlock = true) (hn : r.nameWith names false = .ok n)
    (hm : r.nameWith names true = .ok m) : Fork n.toList m.toList := by
  have hselects := selection_of_selectionRule? hselection
  have hsecond : r.operands.length > 1 ∧ operandTellsBlock r.operands 1 = true := by
    obtain ⟨template, className, operands, cost, tieBreak⟩ := r
    dsimp only at hfamily
    simp only [tellsBlock, hfamily, Bool.or_eq_true, Bool.and_eq_true, decide_eq_true_eq] at htells
    exact htells.resolve_left (by simp [hselection])
  rw [nameWith_statistic names _ hfamily hselects] at hn hm
  simp only [bind_eq_ok] at hn hm
  obtain ⟨table, htable, value, hvalue, suffix, -, hn⟩ := hn
  obtain ⟨table', htable', value', hvalue', suffix', -, hm⟩ := hm
  obtain rfl := Except.ok.inj (htable.symm.trans htable')
  rw [valueName, hselection, if_pos hsecond.1, map_eq_ok] at hvalue hvalue'
  obtain ⟨a, ha, rfl⟩ := hvalue
  obtain ⟨b, hb, rfl⟩ := hvalue'
  cases hn
  cases hm
  simp only [String.toList_append, List.append_assoc]
  exact ((hfork 1 1 a b hsecond.2 ha hb).before _ _).behind _ |>.behind _ |>.behind _ |>.behind _

mutual

/-- Where it tells the block, the two names of a rule part. -/
theorem fork_nameWith : ∀ (r : Rule) (n m : String), r.tellsBlock = true →
    r.nameWith names false = .ok n → r.nameWith names true = .ok m → Fork n.toList m.toList
  | ⟨template, className, operands, cost, tieBreak⟩, n, m, htells, hn, hm => by
      have hfork : OperandsFork names ⟨template, className, operands, cost, tieBreak⟩ :=
        fun position index => fork_operandNameWith operands position index _
      cases hfamily : template.family with
      | date | time | timestamp | timestampTZ =>
        simp only [tellsBlock, hfamily] at htells
        simp only [nameWith, hfamily, bind_eq_ok] at hn hm
        obtain ⟨a, ha, hn⟩ := hn
        obtain ⟨b, hb, hm⟩ := hm
        cases hn
        cases hm
        simp only [String.toList_append]
        exact ((hfork 0 0 a b htells ha hb).before _ _).before _ _
      | entity => exact fork_entityName hfork hfamily htells hn hm
      | table =>
        cases hselection : selectionRule? ⟨template, className, operands, cost, tieBreak⟩ with
        | some selection => exact fork_name_of_selection hfamily hselection hn hm
        | none => exact fork_name_of_value hfork hfamily hselection htells hn hm

theorem fork_operandNameWith : ∀ (xs : List (RuleOperand Rule)) (position index : Nat) (r : Rule)
    (n m : String), operandTellsBlock xs position = true →
      operandNameWith names false r xs position index = .ok n →
      operandNameWith names true r xs position index = .ok m → Fork n.toList m.toList
  | [], position, _, _, _, _, h, _, _ => by cases position <;> cases h
  | .field .. :: _, 0, _, _, _, _, h, _, _ => by cases h
  | .part _ :: _, 0, _, _, _, _, h, _, _ => by cases h
  | .rule inner :: rest, 0, index, r, n, m, h, hn, hm => by
      rw [operandNameWith] at hn hm
      exact fork_nameWith inner n m h hn hm
  | first :: rest, position + 1, index, r, n, m, h, hn, hm => by
      rw [operandNameWith] at hn hm
      rw [operandTellsBlock] at h
      exact fork_operandNameWith rest position index r n m h hn hm

end

end Rule

/-- Statistics with a variant for blocks work on tables, and restrict none. -/
theorem Catalogue.family_of_statistic : ∀ t ∈ Catalogue.default,
    t.partitionStatistic.isSome = true → t.family = .table ∧ t.selection = false := by
  decide

/-- Over the default templates every block rule says so: behind the statistic stands the selection,
or in it the statistic it is taken of. -/
theorem Rule.tellsBlock_of_over : ∀ r : Rule, r.Over .default → r.isBlockRule = true →
    r.tellsBlock = true
  | ⟨template, className, operands, cost, tieBreak⟩, hover, hblock => by
      have hmem : template ∈ Catalogue.default := template_mem_of_over hover
      have hlaws := Catalogue.blocksOfTables_default template hmem
      rw [isBlockRule_eq, Bool.or_eq_true] at hblock
      have hstatistic : template.partitionStatistic.isSome = true := by
        rcases hblock with h | h
        · exact (Bool.and_eq_true_iff.mp h).1
        · exact (hlaws.value (Bool.and_eq_true_iff.mp h).1).1
      obtain ⟨hfamily, -⟩ := Catalogue.family_of_statistic template hmem hstatistic
      simp only [tellsBlock, hfamily, Bool.or_eq_true, Bool.and_eq_true, decide_eq_true_eq]
      rcases hblock with hpartition | hvalue
      · obtain ⟨selection, hselection, hselects⟩ :=
          (Option.any_eq_true _ _).mp (Bool.and_eq_true_iff.mp hpartition).2
        refine .inl ?_
        unfold selectionRule?
        split
        · rfl
        · rw [hselection, Option.filter_some, if_pos hselects]
          rfl
      · obtain ⟨second, hsecond, hinner⟩ :=
          (Option.any_eq_true _ _).mp (Bool.and_eq_true_iff.mp hvalue).2
        match operands, getElem?_of_ruleOperand? hsecond with
        | first :: .rule inner :: rest, heq =>
          obtain rfl : inner = second := by simpa using heq
          refine .inr ⟨by simp, ?_⟩
          cases first <;>
            exact tellsBlock_of_over inner (over_operand hover (by simp)) hinner

/-- The block of a rule is not named like one of its members, unless the names are readable and do
not say which is which. -/
theorem stemsApart_rule (n : NameSource) (s : Space) {r : Rule}
    (htells : n.readable = true → r.tellsBlock = true) {n₁ n₂ : NameSource} {a b : String}
    (ha : n.ofRule s r false = .ok (a, n₁)) (hb : n₁.ofRule s r true = .ok (b, n₂)) :
    StemsApart a b :=
  NameSource.stemsApart_choose ha hb fun hreadable hx hy =>
    (r.fork_nameWith a b (htells hreadable) hx hy).stemsApart

end FeatureSynth
