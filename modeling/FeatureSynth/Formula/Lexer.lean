/-
# Reading a text as tokens

`Token.ofText` cuts a text into tokens: blanks, a token, blanks, a token, until
the text ends or a character starts no token.  Every scanner returns a strictly
shorter rest (`Token.scan_shorter`), which is why the loop ends.
-/
import FeatureSynth.Formula.Token

namespace FeatureSynth

theorem Numeral.sign_length_le (s : List Char) : (Numeral.sign s).2.length ≤ s.length := by
  unfold Numeral.sign
  split <;> simp

private theorem dropWhile_length_le (p : Char → Bool) (s : List Char) :
    (s.dropWhile p).length ≤ s.length :=
  (List.dropWhile_sublist p).length_le

theorem Numeral.exponentPart_length_le (s : List Char) :
    (Numeral.exponentPart s).2.length ≤ s.length := by
  unfold Numeral.exponentPart
  split
  · rename_i c rest
    dsimp only
    split
    · have h₁ := dropWhile_length_le Text.isDigit (Numeral.sign rest).2
      have h₂ := Numeral.sign_length_le rest
      simp only [List.length_cons]
      omega
    · simp
  · simp

theorem Numeral.digitsPart_shorter {s : List Char} {d : List Char × List Char} {rest : List Char}
    (h : Numeral.digitsPart s = some (d, rest)) : rest.length < s.length := by
  unfold Numeral.digitsPart at h
  dsimp only at h
  have hsplit : s.takeWhile Text.isDigit ++ s.dropWhile Text.isDigit = s :=
    List.takeWhile_append_dropWhile
  have hlen : (s.takeWhile Text.isDigit).length + (s.dropWhile Text.isDigit).length = s.length := by
    rw [← List.length_append, hsplit]
  split at h
  · rename_i tail heq hdrop
    split at h
    · simp at h
    · simp only [Option.some.injEq, Prod.mk.injEq] at h
      have := dropWhile_length_le Text.isDigit tail
      rw [hdrop] at hlen
      simp only [List.length_cons] at hlen
      rw [← h.2]
      omega
  · simp at h
  · rename_i tail hdrop _
    simp only [Option.some.injEq, Prod.mk.injEq] at h
    have := dropWhile_length_le Text.isDigit tail
    rw [hdrop] at hlen
    simp only [List.length_cons] at hlen
    rw [← h.2]
    omega
  · rename_i hne _ _
    simp only [Option.some.injEq, Prod.mk.injEq] at h
    have : 0 < (s.takeWhile Text.isDigit).length := by
      cases hw : s.takeWhile Text.isDigit with
      | nil => exact absurd hw hne
      | cons => simp
    rw [← h.2]
    omega

theorem Numeral.scan_shorter {s : List Char} {n : Numeral} {rest : List Char}
    (h : Numeral.scan s = some (n, rest)) : rest.length < s.length := by
  unfold Numeral.scan at h
  cases hd : Numeral.digitsPart (Numeral.sign s).2 with
  | none => simp [hd] at h
  | some p =>
    obtain ⟨⟨whole, fraction⟩, tail⟩ := p
    simp [hd] at h
    have h₁ := Numeral.digitsPart_shorter hd
    have h₂ := Numeral.sign_length_le s
    have h₃ := Numeral.exponentPart_length_le tail
    rw [← h.2]
    omega

theorem Token.quotedBody_length_le {s body rest : List Char}
    (h : Token.quotedBody s = some (body, rest)) : rest.length ≤ s.length := by
  fun_induction Token.quotedBody s generalizing body rest with
  | case1 => simp at h
  | case2 tail body' rest' heq ih =>
    simp only [Option.some.injEq, Prod.mk.injEq] at h
    have := ih heq
    simp only [List.length_cons, ← h.2]
    omega
  | case3 tail heq =>
    simp only [Option.some.injEq, Prod.mk.injEq] at h
    simp [← h.2]
  | case4 tail =>
    simp only [Option.some.injEq, Prod.mk.injEq] at h
    simp [← h.2]
  | case5 c tail _ _ ih =>
    obtain ⟨⟨b, r⟩, hq, he⟩ := Option.map_eq_some_iff.1 h
    simp only [Prod.mk.injEq] at he
    have := ih hq
    simp only [List.length_cons, ← he.2]
    omega

theorem Token.textBody_length_le {s body rest : List Char}
    (h : Token.textBody s = some (body, rest)) : rest.length ≤ s.length := by
  fun_induction Token.textBody s generalizing body rest with
  | case1 => simp at h
  | case2 tail =>
    simp only [Option.some.injEq, Prod.mk.injEq] at h
    simp [← h.2]
  | case3 => simp at h
  | case4 => simp at h
  | case5 c tail _ ih =>
    obtain ⟨⟨b, r⟩, hq, he⟩ := Option.map_eq_some_iff.1 h
    simp only [Prod.mk.injEq] at he
    have := ih hq
    simp only [List.length_cons, ← he.2]
    omega
  | case6 c tail _ _ _ ih =>
    obtain ⟨⟨b, r⟩, hq, he⟩ := Option.map_eq_some_iff.1 h
    simp only [Prod.mk.injEq] at he
    have := ih hq
    simp only [List.length_cons, ← he.2]
    omega

/-- A lexeme takes at least one character. -/
theorem Token.scan_shorter {s : List Char} {l : Token.Lexeme} {rest : List Char}
    (h : Token.scan s = some (l, rest)) : rest.length < s.length := by
  unfold Token.scan at h
  split at h
  · simp at h
  · simp only [Option.some.injEq, Prod.mk.injEq] at h
    simp [← h.2]
  · simp only [Option.some.injEq, Prod.mk.injEq] at h
    simp [← h.2]
  · simp only [Option.some.injEq, Prod.mk.injEq] at h
    simp [← h.2]
  · obtain ⟨⟨b, r⟩, hq, he⟩ := Option.map_eq_some_iff.1 h
    simp only [Prod.mk.injEq] at he
    have := Token.quotedBody_length_le hq
    simp only [List.length_cons, ← he.2]
    omega
  · obtain ⟨⟨b, r⟩, hq, he⟩ := Option.map_eq_some_iff.1 h
    simp only [Prod.mk.injEq] at he
    have := Token.textBody_length_le hq
    simp only [List.length_cons, ← he.2]
    omega
  · rename_i c tail _ _ _ _ _
    split at h
    · simp only [Option.some.injEq, Prod.mk.injEq] at h
      rw [← h.2]
      simp only [List.length_drop, List.length_cons, Token.missingWord]
      omega
    · split at h
      · simp only [Option.some.injEq, Prod.mk.injEq] at h
        have := dropWhile_length_le Text.isIdentRest tail
        simp only [List.length_cons, ← h.2]
        omega
      · obtain ⟨⟨b, r⟩, hq, he⟩ := Option.map_eq_some_iff.1 h
        simp only [Prod.mk.injEq] at he
        have := Numeral.scan_shorter hq
        rw [← he.2]
        exact this

namespace Token

/-- The tokens of the rest of a text that starts `offset` bytes into the whole. -/
def ofRest (offset : Nat) (s : List Char) : Except FormulaError (List Located) :=
  let trimmed := Text.trimStart s
  let start := offset + (Text.byteCount s - Text.byteCount trimmed)
  if trimmed = [] then .ok []
  else
    match h : scan trimmed with
    | none => .error (.unexpectedChar start)
    | some (lexeme, rest) =>
      let taken := trimmed.take (trimmed.length - rest.length)
      match lexeme.token? taken with
      | .error e => .error e
      | .ok token =>
        have : rest.length < s.length :=
          Nat.lt_of_lt_of_le (scan_shorter h) (Text.trimStart_length_le s)
        match ofRest (start + Text.byteCount taken) rest with
        | .error e => .error e
        | .ok tokens => .ok (⟨start, token⟩ :: tokens)
termination_by s.length

/-- The tokens of a text. -/
def ofText (text : String) : Except FormulaError (List Located) := ofRest 0 text.toList

end Token

end FeatureSynth
