/-
# The end of a token

Between the operands of a printed formula stand commas and closing parentheses, and
behind an operator an opening one.  Each token ends there at the latest: an
identifier and a numeral because no character they go on with stands there, a quoted
name and a symbol because their own quotes are doubled or escaped.  So a printed
token is read off the front of whatever text follows.
-/
import Mathlib.Data.List.TakeWhile
import FeatureSynth.Formula.Lexer

namespace FeatureSynth

/-! ## Characters -/

namespace Text

/-- A character between operands. -/
def Separates (c : Char) : Prop := c = ',' ∨ c = ')'

variable {c : Char}

theorem isBlank_eq_false_of_isIdentStart (h : isIdentStart c = true) : isBlank c = false := by
  simp only [isIdentStart, Bool.or_eq_true, Bool.and_eq_true, decide_eq_true_eq, beq_iff_eq,
    Char.le_def, UInt32.le_iff_toNat_le] at h
  rcases h with (h | h) | rfl
  · have hlow : 0x61 ≤ c.toNat := h.1
    have hhigh : c.toNat ≤ 0x7a := h.2
    simp [isBlank]
    omega
  · have hlow : 0x41 ≤ c.toNat := h.1
    have hhigh : c.toNat ≤ 0x5a := h.2
    simp [isBlank]
    omega
  · rfl

theorem trimStart_cons (h : isBlank c = false) (s : List Char) : trimStart (c :: s) = c :: s := by
  simp [trimStart, h]

/-- What runs on while a property holds ends before a character without it. -/
theorem takeWhile_append_of_stop {p : Char → Bool} (hc : p c = false) (tail : List Char) :
    ∀ u : List Char, (u ++ c :: tail).takeWhile p = u.takeWhile p ∧
      (u ++ c :: tail).dropWhile p = u.dropWhile p ++ c :: tail
  | [] => by simp [hc]
  | d :: u => by
      obtain ⟨htake, hdrop⟩ := takeWhile_append_of_stop hc tail u
      cases hd : p d <;> simp [hd, htake, hdrop]

namespace Separates

theorem not_digit (h : Separates c) : isDigit c = false := by
  rcases h with rfl | rfl <;> decide

theorem not_blank (h : Separates c) : isBlank c = false := by
  rcases h with rfl | rfl <;> decide

theorem not_identRest (h : Separates c) : isIdentRest c = false := by
  rcases h with rfl | rfl <;> decide

end Separates

end Text

/-! ## Numerals -/

namespace Numeral

variable {c : Char} {tail : List Char}

theorem sign_cons (d : Char) (u : List Char) :
    sign (d :: u) =
      if d = '-' then (true, u) else if d = '+' then (false, u) else (false, d :: u) := by
  unfold sign
  split <;> simp_all

theorem sign_append (hc : Text.Separates c) : ∀ u : List Char,
    sign (u ++ c :: tail) = ((sign u).1, (sign u).2 ++ c :: tail)
  | [] => by rcases hc with rfl | rfl <;> rfl
  | d :: u => by
      rw [List.cons_append, sign_cons, sign_cons]
      split
      · rfl
      · split <;> rfl

theorem digitsPart_append (hc : Text.Separates c) (u : List Char) :
    digitsPart (u ++ c :: tail) = (digitsPart u).map fun (d, rest) => (d, rest ++ c :: tail) := by
  obtain ⟨htake, hdrop⟩ := Text.takeWhile_append_of_stop hc.not_digit tail u
  have hpoint : c ≠ '.' := by rcases hc with rfl | rfl <;> decide
  unfold digitsPart
  dsimp only
  rw [htake, hdrop]
  cases hrest : u.dropWhile Text.isDigit with
  | nil => cases u.takeWhile Text.isDigit <;> simp [hpoint]
  | cons e rest =>
    obtain ⟨htake', hdrop'⟩ := Text.takeWhile_append_of_stop hc.not_digit tail rest
    by_cases he : e = '.'
    · subst he
      cases u.takeWhile Text.isDigit with
      | nil =>
        simp only [List.cons_append, htake', hdrop']
        split <;> rfl
      | cons d whole => simp [htake', hdrop']
    · cases u.takeWhile Text.isDigit <;> simp [he]

theorem exponentPart_append (hc : Text.Separates c) : ∀ u : List Char,
    exponentPart (u ++ c :: tail) = ((exponentPart u).1, (exponentPart u).2 ++ c :: tail)
  | [] => by rcases hc with rfl | rfl <;> simp [exponentPart]
  | d :: u => by
      unfold exponentPart
      simp only [List.cons_append, sign_append hc]
      obtain ⟨htake, hdrop⟩ := Text.takeWhile_append_of_stop hc.not_digit tail (sign u).2
      rw [htake, hdrop]
      split <;> rfl

/-- A numeral ends where operands do. -/
theorem scan_append (hc : Text.Separates c) (u : List Char) :
    scan (u ++ c :: tail) = (scan u).map fun (n, rest) => (n, rest ++ c :: tail) := by
  unfold scan
  rw [sign_append hc]
  dsimp only
  rw [digitsPart_append hc]
  cases digitsPart (sign u).2 with
  | none => rfl
  | some found =>
    obtain ⟨⟨whole, fraction⟩, rest⟩ := found
    simp [exponentPart_append hc]

/-- The word of the missing value is no numeral. -/
theorem scan_hash (u : List Char) : scan ('#' :: u) = none := by
  have hhash : Text.isDigit '#' = false := by decide
  simp [scan, sign_cons, digitsPart, hhash]

end Numeral

/-! ## Tokens -/

namespace Token

variable {c : Char} {tail : List Char}

/-- The characters that say by themselves which token starts. -/
def marks : List Char := ['(', ')', ',', Text.backQuote, '"']

theorem scan_other (h : c ∉ marks) (u : List Char) :
    scan (c :: u) =
      if missingWord.isPrefixOf (c :: u) then
        some (.token .missing, (c :: u).drop missingWord.length)
      else if Text.isIdentStart c then
        some (.token (.ident (String.ofList (c :: u.takeWhile Text.isIdentRest))),
          u.dropWhile Text.isIdentRest)
      else (Numeral.scan (c :: u)).map fun (numeral, rest) => (.numeral numeral, rest) := by
  simp only [marks, List.mem_cons, List.not_mem_nil, or_false, not_or] at h
  obtain ⟨hopening, hclosing, hcomma, hquote, htext⟩ := h
  unfold scan
  split <;> simp_all [Text.backQuote]

theorem not_mem_marks (h : Text.isIdentStart c = true) : c ∉ marks := by
  intro hc
  simp only [marks, List.mem_cons, List.not_mem_nil, or_false] at hc
  rcases hc with rfl | rfl | rfl | rfl | rfl <;> exact absurd h (by decide)

theorem not_missing {d : Char} (h : '#' ≠ d) (u : List Char) :
    missingWord.isPrefixOf (d :: u) = false := by
  simp [missingWord, List.isPrefixOf, h]

theorem hash_ne {d : Char} (h : Text.isIdentStart d = true) : '#' ≠ d := by
  rintro rfl
  exact absurd h (by decide)

/-- An identifier ends before a character it cannot go on with. -/
theorem scan_ident {name : String} (h : Text.isIdent name.toList = true)
    (hc : Text.isIdentRest c = false) (tail : List Char) :
    scan (name.toList ++ c :: tail) = some (.token (.ident name), c :: tail) := by
  obtain ⟨name, rfl⟩ : ∃ chars, name = String.ofList chars := ⟨_, String.ofList_toList.symm⟩
  rw [String.toList_ofList] at h ⊢
  cases name with
  | nil => cases h
  | cons d name =>
    obtain ⟨hstart, hall⟩ := Bool.and_eq_true_iff.mp h
    obtain ⟨htake, hdrop⟩ := Text.takeWhile_append_of_stop hc tail name
    rw [List.cons_append, scan_other (not_mem_marks hstart), not_missing (hash_ne hstart),
      if_neg Bool.false_ne_true, if_pos hstart, htake, hdrop, List.takeWhile_eq_self_iff.mpr,
      List.dropWhile_eq_nil_iff.mpr, List.nil_append]
    · exact List.all_eq_true.mp hall
    · exact List.all_eq_true.mp hall

/-- A quoted name ends at the back quote that is not doubled. -/
theorem quotedBody_doubled (hc : c ≠ Text.backQuote) : ∀ name : List Char,
    quotedBody (Text.doubled name ++ Text.backQuote :: c :: tail) = some (name, c :: tail)
  | [] => by
      rw [Text.doubled, List.nil_append, Text.backQuote, quotedBody]
      exact fun _ heq => hc (List.cons.inj heq).1
  | d :: name => by
      have ih := quotedBody_doubled hc name
      rw [Text.doubled]
      split
      · rename_i hd
        subst hd
        rw [List.cons_append, List.cons_append, Text.backQuote, quotedBody]
        rw [Text.backQuote] at ih
        rw [ih]
        rfl
      · rename_i hd
        rw [List.cons_append, quotedBody, ih]
        · rfl
        · exact fun _ heq _ => hd heq
        · exact hd

/-- A symbol ends at the quote that is not escaped. -/
theorem textBody_escaped : ∀ symbol : List Char,
    textBody (Text.escaped symbol ++ '"' :: tail) = some (symbol, tail)
  | [] => by simp [Text.escaped, textBody]
  | d :: symbol => by
      have ih := textBody_escaped symbol
      rw [Text.escaped]
      split
      · rename_i hd
        have hline : d ≠ '\n' := by rcases hd with rfl | rfl <;> decide
        simp [textBody, ih, hline]
      · rename_i hd
        obtain ⟨hquote, hslash⟩ := not_or.mp hd
        rw [List.cons_append, textBody, ih]
        · rfl
        · exact hquote
        · exact fun heq _ => hslash heq
        · exact fun _ _ heq _ => hslash heq

theorem scan_quoted (name : String) (hc : c ≠ Text.backQuote) (tail : List Char) :
    scan (Text.backQuote :: (Text.doubled name.toList ++ Text.backQuote :: c :: tail)) =
      some (.token (.quoted name), c :: tail) := by
  rw [Text.backQuote, scan, ← Text.backQuote, quotedBody_doubled hc name.toList]
  simp only [Option.map_some, String.ofList_toList]

theorem scan_text (symbol : String) (tail : List Char) :
    scan ('"' :: (Text.escaped symbol.toList ++ '"' :: tail)) =
      some (.token (.text symbol), tail) := by
  rw [scan, textBody_escaped symbol.toList]
  simp only [Option.map_some, String.ofList_toList]

/-- The tokens of continuous constants. -/
def IsValue : Token → Prop
  | .missing | .number _ => True
  | _ => False

section Value

variable {u rest text : List Char} {l : Lexeme} {t : Token}

/-- What starts with a mark is no continuous constant. -/
theorem token_of_mark (hc : c ∈ marks) (h : scan (c :: u) = some (l, rest)) :
    ∃ t, l = .token t ∧ ¬ t.IsValue := by
  simp only [marks, List.mem_cons, List.not_mem_nil, or_false] at hc
  rcases hc with rfl | rfl | rfl | rfl | rfl
  · cases h
    exact ⟨.opening, rfl, id⟩
  · cases h
    exact ⟨.closing, rfl, id⟩
  · cases h
    exact ⟨.comma, rfl, id⟩
  · obtain ⟨found, -, hfound⟩ := Option.map_eq_some_iff.mp h
    exact ⟨_, (congrArg Prod.fst hfound).symm, id⟩
  · obtain ⟨found, -, hfound⟩ := Option.map_eq_some_iff.mp h
    exact ⟨_, (congrArg Prod.fst hfound).symm, id⟩

/-- What starts as an identifier is no continuous constant. -/
theorem token_of_identStart (hc : Text.isIdentStart c = true) (h : scan (c :: u) = some (l, rest)) :
    ∃ t, l = .token t ∧ ¬ t.IsValue := by
  rw [scan_other (not_mem_marks hc), not_missing (hash_ne hc), if_neg Bool.false_ne_true,
    if_pos hc] at h
  cases h
  exact ⟨_, rfl, id⟩

/-- No continuous constant starts with a mark or as an identifier. -/
theorem other_of_isValue (h : scan (c :: u) = some (l, rest)) (ht : l.token? text = .ok t)
    (hvalue : t.IsValue) : c ∉ marks ∧ Text.isIdentStart c = false := by
  have hnot : ¬ ∃ t', l = .token t' ∧ ¬ t'.IsValue := by
    rintro ⟨t', rfl, hno⟩
    cases ht
    exact hno hvalue
  exact ⟨fun hc => hnot (token_of_mark hc h),
    Bool.eq_false_iff.mpr fun hc => hnot (token_of_identStart hc h)⟩

/-- A continuous constant ends where operands do. -/
theorem scan_append (hc : Text.Separates c) (h : scan u = some (l, rest))
    (ht : l.token? text = .ok t) (hvalue : t.IsValue) :
    scan (u ++ c :: tail) = some (l, rest ++ c :: tail) := by
  cases u with
  | nil => cases h
  | cons d u =>
    obtain ⟨hmark, hstart⟩ := other_of_isValue h ht hvalue
    rw [scan_other hmark, hstart, if_neg Bool.false_ne_true] at h
    rw [List.cons_append, scan_other hmark, hstart, if_neg Bool.false_ne_true]
    split at h
    · rename_i hmissing
      cases h
      obtain ⟨more, hmore⟩ := List.isPrefixOf_iff_prefix.mp hmissing
      rw [← List.cons_append, ← hmore, List.append_assoc, if_pos, List.drop_left, List.drop_left]
      exact List.isPrefixOf_iff_prefix.mpr (List.prefix_append _ _)
    · rename_i hmissing
      -- a numeral does not become the word of the missing value by what follows it
      obtain ⟨⟨n, rest'⟩, hscan, heq⟩ := Option.map_eq_some_iff.mp h
      cases heq
      have hhash : '#' ≠ d := by
        rintro rfl
        rw [Numeral.scan_hash] at hscan
        cases hscan
      rw [not_missing hhash, if_neg Bool.false_ne_true, ← List.cons_append,
        Numeral.scan_append hc, hscan]
      rfl

end Value

/-! ## Texts of one token -/

/-- A lexeme that is a token is one whatever its text is. -/
theorem token?_eq {l : Lexeme} {t : Token} {text : List Char} (h : l.token? text = .ok t)
    (text' : List Char) : l.token? text' = .ok t := by
  cases l with
  | token t' => exact h
  | numeral n =>
    simp only [Lexeme.token?] at h ⊢
    split at h
    · exact h
    · cases h

/-- A lexeme is a piece of some bytes. -/
theorem byteCount_taken_pos {s rest : List Char} {l : Lexeme} (h : scan s = some (l, rest)) :
    0 < Text.byteCount (s.take (s.length - rest.length)) := by
  have hshorter := scan_shorter h
  cases s with
  | nil => exact absurd hshorter (Nat.not_lt_zero _)
  | cons c s =>
    obtain ⟨n, hn⟩ : ∃ n, (c :: s).length - rest.length = n + 1 :=
      ⟨_, (Nat.succ_pred_eq_of_pos (Nat.sub_pos_of_lt hshorter)).symm⟩
    rw [hn, List.take_succ_cons]
    exact Nat.lt_of_lt_of_le c.utf8Size_pos (Nat.le_add_right _ _)

/-- What the tokens of a text come from: there are none in blanks, and others are the first lexeme
and, behind it, the tokens of what is left. -/
theorem ofRest_eq_ok {s : List Char} {offset : Nat} {tokens : List Located}
    (h : ofRest offset s = .ok tokens) :
    (Text.trimStart s = [] ∧ tokens = []) ∨ ∃ l rest t start behind more,
      scan (Text.trimStart s) = some (l, rest) ∧ (∀ text, l.token? text = .ok t) ∧
        ofRest behind rest = .ok more ∧ tokens = ⟨start, t⟩ :: more ∧ offset ≤ start ∧
        start < behind := by
  unfold ofRest at h
  dsimp only at h
  split at h
  · rename_i htrim
    cases h
    exact .inl ⟨htrim, rfl⟩
  · split at h
    · cases h
    · rename_i l rest hscan
      split at h
      · cases h
      · rename_i t htoken
        split at h
        · cases h
        · rename_i more hrest
          cases h
          exact .inr ⟨l, rest, t, _, _, more, hscan, token?_eq htoken, hrest, rfl,
            Nat.le_add_right _ _, Nat.lt_add_of_pos_right (byteCount_taken_pos hscan)⟩

/-- A text of one token starts with it, and blanks may follow. -/
theorem scan_of_ofText {text : String} {offset : Nat} {t : Token}
    (h : ofText text = .ok [⟨offset, t⟩]) :
    ∃ l rest, scan (Text.trimStart text.toList) = some (l, rest) ∧ (∀ text, l.token? text = .ok t) ∧
      Text.trimStart rest = [] := by
  obtain ⟨-, hnone⟩ | ⟨l, rest, t', start, behind, more, hscan, htoken, hrest, heq, -⟩ :=
    ofRest_eq_ok h
  · cases hnone
  · cases heq
    obtain ⟨htrim, -⟩ | ⟨_, _, _, _, _, _, _, _, _, hmore, -⟩ := ofRest_eq_ok hrest
    · exact ⟨l, rest, hscan, htoken, htrim⟩
    · cases hmore

/-- Tokens stand in the order of their offsets. -/
theorem ofRest_offsets : ∀ {tokens : List Located} {s : List Char} {offset : Nat},
    ofRest offset s = .ok tokens →
      (∀ t ∈ tokens, offset ≤ t.offset) ∧ tokens.Pairwise (·.offset < ·.offset)
  | [], _, _, _ => ⟨nofun, .nil⟩
  | t :: tokens, s, offset, h => by
      obtain ⟨-, hnone⟩ | ⟨_, _, _, start, behind, more, _, _, hrest, heq, hstart, hbehind⟩ :=
        ofRest_eq_ok h
      · cases hnone
      · cases heq
        obtain ⟨hmore, hsorted⟩ := ofRest_offsets hrest
        have hlater : ∀ t ∈ tokens, start < t.offset := fun t ht => hbehind.trans_le (hmore t ht)
        refine ⟨?_, .cons hlater hsorted⟩
        intro t' ht'
        obtain rfl | ht' := List.mem_cons.mp ht'
        · exact hstart
        · exact hstart.trans (hlater t' ht').le

theorem ofRest_of_trimStart {s : List Char} (h : Text.trimStart s = []) (offset : Nat) :
    ofRest offset s = .ok [] := by
  unfold ofRest
  simp [h]

/-- Where a lexeme is a token, the tokens of a text go on with those of what is left. -/
theorem ofRest_of_scan {s rest : List Char} {l : Lexeme} {t : Token}
    (hscan : scan (Text.trimStart s) = some (l, rest)) (ht : ∀ text, l.token? text = .ok t)
    (offset : Nat) : ∃ start behind, ∀ tokens, ofRest behind rest = .ok tokens →
      ofRest offset s = .ok (⟨start, t⟩ :: tokens) := by
  have hne : Text.trimStart s ≠ [] := by
    intro hnil
    rw [hnil] at hscan
    cases hscan
  let start := offset + (Text.byteCount s - Text.byteCount (Text.trimStart s))
  let taken := (Text.trimStart s).take ((Text.trimStart s).length - rest.length)
  refine ⟨start, start + Text.byteCount taken, fun tokens hrest => ?_⟩
  unfold ofRest
  simp only [hne, if_false]
  split
  · rename_i hnone
    rw [hscan] at hnone
    cases hnone
  · rename_i l' rest' hsome
    obtain ⟨rfl, rfl⟩ : l = l' ∧ rest = rest' := by simpa using hscan.symm.trans hsome
    simp only [ht]
    rw [hrest]

end Token

end FeatureSynth
