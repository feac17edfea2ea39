import Federation.Json.Quoted
import Federation.Json.Number

/-!
# Spelling

What is spelled reads back: the digits of a number, a number literal with all its parts, and the
text between two quotes. A reader takes as many digits as there are, so what follows a number must
not go on with one.
-/

set_option autoImplicit false

namespace Federation

namespace Decimal

theorem head_digits_ne_zero {n : Nat} (h : 0 < n) : ∀ d ∈ (digits n).head?, d.val ≠ 0 := by
  fun_induction digits n with
  | case1 n hn =>
    intro d hd
    cases hd
    exact Nat.ne_of_gt h
  | case2 n hn ih =>
    rw [List.head?_append, List.head?_eq_some_head (digits_ne_nil _), Option.some_or,
      ← List.head?_eq_some_head]
    exact ih (by omega)

end Decimal

namespace Json.Number

open Decimal (digits value value_digits digits_ne_nil)

def Stops (cs : List Char) : Prop := ∀ c ∈ cs.head?, Digit.ofChar? c = none

theorem stops_nil : Stops [] := by simp [Stops]

theorem stops_cons {c : Char} (h : Digit.ofChar? c = none) (cs : List Char) : Stops (c :: cs) := by
  simpa [Stops] using h

theorem spanDigits_of_stops {cs : List Char} (h : Stops cs) : spanDigits cs = ([], cs) := by
  cases cs with
  | nil => rfl
  | cons c cs =>
    have hc : Digit.ofChar? c = none := h c rfl
    simp [spanDigits, hc]

theorem spanDigits_append (ds : List Digit) {rest : List Char} (h : Stops rest) :
    spanDigits (ds.map Digit.toChar ++ rest) = (ds, rest) := by
  induction ds with
  | nil => exact spanDigits_of_stops h
  | cons d ds ih => simp [spanDigits, Digit.ofChar?_toChar, ih]

theorem spanDigits_map (ds : List Digit) : spanDigits (ds.map Digit.toChar) = (ds, []) := by
  simpa using spanDigits_append ds stops_nil

theorem readWhole?_digits (n : Nat) {rest : List Char} (h : Stops rest) :
    readWhole? ((digits n).map Digit.toChar ++ rest) = some (n, rest) := by
  have hv := value_digits n
  unfold readWhole?
  rw [spanDigits_append _ h]
  cases hd : digits n with
  | nil => exact absurd hd (digits_ne_nil n)
  | cons d ds =>
    rw [hd] at hv
    cases ds with
    | nil => simpa [value] using hv
    | cons e ds =>
      have hn : 0 < n := by
        apply Nat.pos_of_ne_zero
        rintro rfl
        rw [digits] at hd
        simp at hd
      have hne := Decimal.head_digits_ne_zero hn d (by rw [hd]; rfl)
      simp [hne, hv]

theorem stops_exponentChars (e : Option Int) : Stops (exponentChars e) := by
  cases e with
  | none => exact stops_nil
  | some e => exact stops_cons (by decide) _

theorem readExponent?_exponentChars (e : Option Int) :
    readExponent? (exponentChars e) = some e := by
  cases e with
  | none => rfl
  | some e =>
    have hd := digits_ne_nil e.natAbs
    have hv := value_digits e.natAbs
    by_cases he : e < 0
    · have hs : readExponentSign ('-' :: (digits e.natAbs).map Digit.toChar)
          = (true, (digits e.natAbs).map Digit.toChar) := rfl
      simp only [exponentChars, he, if_true, readExponent?, true_or, hs, spanDigits_map]
      cases hc : digits e.natAbs with
      | nil => exact absurd hc hd
      | cons d ds =>
        simp only [← hc, hv, Option.some.injEq]
        omega
    · have hs : readExponentSign ('+' :: (digits e.natAbs).map Digit.toChar)
          = (false, (digits e.natAbs).map Digit.toChar) := rfl
      simp only [exponentChars, he, if_false, readExponent?, true_or, if_true, hs, spanDigits_map]
      cases hc : digits e.natAbs with
      | nil => exact absurd hc hd
      | cons d ds =>
        simp only [← hc, hv, Bool.false_eq_true, if_false, Option.some.injEq]
        omega

def fractionChars (fraction : List Digit) : List Char :=
  if fraction.isEmpty then [] else '.' :: fraction.map Digit.toChar

theorem stops_fractionChars (fraction : List Digit) (e : Option Int) :
    Stops (fractionChars fraction ++ exponentChars e) := by
  unfold fractionChars
  split
  · exact stops_exponentChars e
  · exact stops_cons (by decide) _

theorem readFraction?_fractionChars (fraction : List Digit) (e : Option Int) :
    readFraction? (fractionChars fraction ++ exponentChars e)
      = some (fraction, exponentChars e) := by
  cases fraction with
  | nil => cases e <;> rfl
  | cons d ds =>
    show readFraction? ('.' :: ((d :: ds).map Digit.toChar ++ exponentChars e)) = _
    rw [readFraction?, spanDigits_append _ (stops_exponentChars e)]

theorem readSign_toChar (d : Digit) (cs : List Char) :
    readSign (d.toChar :: cs) = (false, d.toChar :: cs) := by
  have hne : ∀ d : Digit, d.toChar ≠ '-' := by decide
  have hd := hne d
  unfold readSign
  split
  · rename_i h
    exact absurd (List.cons.inj h).1 hd
  · rfl

theorem ofChars?_toChars (n : Number) : ofChars? n.toChars = some n := by
  obtain ⟨negative, whole, fraction, exponent⟩ := n
  have hs : readSign (toChars ⟨negative, whole, fraction, exponent⟩)
      = (negative, (digits whole).map Digit.toChar
          ++ (fractionChars fraction ++ exponentChars exponent)) := by
    cases negative with
    | true => simp [toChars, readSign, fractionChars]
    | false =>
      cases hd : digits whole with
      | nil => exact absurd hd (digits_ne_nil whole)
      | cons d ds =>
        simp only [toChars, hd, Bool.false_eq_true, if_false, List.nil_append, List.map_cons,
          List.cons_append, List.append_assoc, readSign_toChar, fractionChars]
  unfold ofChars?
  simp only [hs, readWhole?_digits whole (stops_fractionChars fraction exponent),
    readFraction?_fractionChars, readExponent?_exponentChars, Option.bind_eq_bind,
    Option.bind_some, Option.pure_def]

end Json.Number

namespace Json.Quoted

theorem hexCode?_control :
    ∀ n < 32, hexCode? '0' '0' (hexDigit (n / 16)) (hexDigit (n % 16)) = some n := by decide

theorem ofCode_control {c : Char} (h : c.toNat < 32) : ofCode c.toNat = .char c := by
  have hh : isHalf c.toNat = false := by
    rw [isHalf, decide_eq_false_iff_not]
    omega
  rw [ofCode, hh, if_neg Bool.false_ne_true, Char.ofNat_toNat]

/-- A character is escaped by one letter, by its code, or not at all. -/
inductive Escaped (c : Char) : List Char → Prop where
  | letter (e : Char) (hu : e ≠ 'u') (h : unescape? e = some c) : Escaped c ['\\', e]
  | code (h : c.toNat < 32) :
    Escaped c ['\\', 'u', '0', '0', hexDigit (c.toNat / 16), hexDigit (c.toNat % 16)]
  | plain (hq : c ≠ '"') (hb : c ≠ '\\') (h : ¬c.toNat < 32) : Escaped c [c]

theorem escaped_of_code {k : Nat} {c e : Char} (hk : c.toNat = k) (hu : e ≠ 'u')
    (h : unescape? e = some (Char.ofNat k)) : Escaped c ['\\', e] := by
  rw [← hk, Char.ofNat_toNat] at h
  exact .letter e hu h

theorem escaped_escape (c : Char) : Escaped c (escape c) := by
  unfold escape
  split
  · rename_i hq
    exact .letter '"' (by decide) (by rw [hq]; rfl)
  split
  · rename_i hb
    exact .letter '\\' (by decide) (by rw [hb]; rfl)
  split
  · exact escaped_of_code ‹_› (by decide) rfl
  split
  · exact escaped_of_code ‹_› (by decide) rfl
  split
  · exact escaped_of_code ‹_› (by decide) rfl
  split
  · exact escaped_of_code ‹_› (by decide) rfl
  split
  · exact escaped_of_code ‹_› (by decide) rfl
  split
  · exact .code ‹_›
  · exact .plain ‹_› ‹_› ‹_›

theorem pieces?_escape (c : Char) (rest : List Char) :
    pieces? (escape c ++ rest) = (pieces? rest).map (.char c :: ·) := by
  have he := escaped_escape c
  generalize escape c = cs at he
  cases he with
  | letter e hu h =>
    rw [List.cons_append, List.cons_append, List.nil_append, pieces?]
    · cases pieces? rest <;> simp [h]
    · rintro _ _ _ _ _ rfl
      exact absurd rfl hu
  | code h =>
    have hx := hexCode?_control c.toNat h
    cases hr : pieces? rest <;> simp [pieces?, hx, ofCode_control h, hr]
  | plain hq hb h =>
    rw [List.cons_append, List.nil_append, pieces?]
    · simp [hb, h]
    all_goals simp [hb]

theorem pieces?_encode (cs : List Char) : pieces? (encode cs) = some (cs.map .char) := by
  induction cs with
  | nil => rfl
  | cons c cs ih => rw [encode, List.flatMap_cons, pieces?_escape, ← encode, ih]; rfl

theorem join?_chars (cs : List Char) : join? (cs.map .char) = some cs := by
  induction cs with
  | nil => rfl
  | cons c cs ih => rw [List.map_cons, join?, ih]; rfl

theorem decode?_encode (cs : List Char) : decode? (encode cs) = some (some cs) := by
  rw [decode?, pieces?_encode, Option.map_some, join?_chars]

end Json.Quoted

end Federation
