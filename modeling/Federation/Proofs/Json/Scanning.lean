import Federation.Json.Printer
import Federation.Json.Token
import Federation.Proofs.Json.Spelling

/-!
# Scanning

One pass over the characters yields the tokens. A blank yields nothing, a mark itself, and a word or
a text yields one token when it is followed by something that ends it. So what is scanned next does
not depend on what was scanned before.
-/

set_option autoImplicit false

namespace Federation.Json

namespace Token

def isWordChar (c : Char) : Bool := !isBlank c && c != '"' && (mark? c).isNone

theorem isWordChar_iff {c : Char} :
    isWordChar c = true ↔ isBlank c = false ∧ c ≠ '"' ∧ mark? c = none := by
  simp [isWordChar, and_assoc]

/-- A blank or a mark follows, or nothing does. -/
def Breaks (cs : List Char) : Prop := ∀ c ∈ cs.head?, isBlank c = true ∨ (mark? c).isSome = true

theorem breaks_nil : Breaks [] := by simp [Breaks]

theorem breaks_mark {c : Char} (h : (mark? c).isSome = true) (cs : List Char) :
    Breaks (c :: cs) := by
  simp [Breaks, h]

theorem breaks_blanks {blanks rest : List Char} (hb : ∀ c ∈ blanks, isBlank c = true)
    (hr : Breaks rest) : Breaks (blanks ++ rest) := by
  cases blanks with
  | nil => exact hr
  | cons c blanks => simp [Breaks, hb c (by simp)]

theorem mark_not_blank {c : Char} (h : (mark? c).isSome = true) :
    isBlank c = false ∧ c ≠ '"' := by
  have hm : c ∈ ['[', ']', '{', '}', ':', ','] := by
    unfold mark? at h
    grind
  have hall : ['[', ']', '{', '}', ':', ','].all (fun d => !isBlank d && d != '"') = true := by
    decide
  simpa using List.all_eq_true.mp hall c hm

section Pending

variable {pending : Pending} (hp : ∀ back escaped, pending ≠ .quoted back escaped)

include hp

theorem scan_blank {c : Char} (h : isBlank c = true) (rest : List Char) :
    scan pending (c :: rest) = (scan .gap rest).map (pending.flush ++ ·) := by
  rw [scan]
  · rw [if_pos h]
  all_goals exact fun _ h => hp _ _ h

theorem scan_mark {c : Char} {t : Token} (h : mark? c = some t) (rest : List Char) :
    scan pending (c :: rest) = (scan .gap rest).map (pending.flush ++ t :: ·) := by
  obtain ⟨hb, hq⟩ := mark_not_blank (Option.isSome_iff_exists.mpr ⟨t, h⟩)
  rw [scan]
  · simp only [hb, hq, h, Bool.false_eq_true, if_false]
  all_goals exact fun _ h => hp _ _ h

theorem scan_wordChar {c : Char} (h : isWordChar c = true) (rest : List Char) :
    scan pending (c :: rest) = scan (pending.extend c) rest := by
  obtain ⟨hb, hq, hm⟩ := isWordChar_iff.mp h
  rw [scan]
  · simp only [hb, hq, hm, Bool.false_eq_true, if_false]
  all_goals exact fun _ h => hp _ _ h

end Pending

theorem gap_open : ∀ back escaped, Pending.gap ≠ .quoted back escaped := by simp

theorem word_open (cs : List Char) : ∀ back escaped, Pending.word cs ≠ .quoted back escaped := by
  simp

theorem scan_blanks {blanks : List Char} (h : ∀ c ∈ blanks, isBlank c = true)
    (rest : List Char) : scan .gap (blanks ++ rest) = scan .gap rest := by
  induction blanks with
  | nil => rfl
  | cons c blanks ih =>
    rw [List.cons_append, scan_blank gap_open (h c (by simp)), ih fun d hd => h d (by simp [hd])]
    simp [Pending.flush]

theorem scan_word_break {back rest : List Char} (h : Breaks rest) :
    scan (.word back) rest = (scan .gap rest).map (.word back.reverse :: ·) := by
  cases rest with
  | nil => rfl
  | cons c rest =>
    rcases h c rfl with hb | hm
    · rw [scan_blank (word_open back) hb, scan_blank gap_open hb]
      simp [Pending.flush]
    · obtain ⟨t, ht⟩ := Option.isSome_iff_exists.mp hm
      rw [scan_mark (word_open back) ht, scan_mark gap_open ht]
      simp [Pending.flush, Function.comp_def]

theorem scan_wordChars {cs : List Char} (h : ∀ c ∈ cs, isWordChar c = true)
    (back rest : List Char) :
    scan (.word back) (cs ++ rest) = scan (.word (cs.reverse ++ back)) rest := by
  induction cs generalizing back with
  | nil => rfl
  | cons c cs ih =>
    rw [List.cons_append, scan_wordChar (word_open back) (h c (by simp)), Pending.extend,
      ih fun d hd => h d (by simp [hd])]
    simp

theorem scan_word {cs : List Char} (hne : cs ≠ []) (h : ∀ c ∈ cs, isWordChar c = true)
    {rest : List Char} (hr : Breaks rest) :
    scan .gap (cs ++ rest) = (scan .gap rest).map (.word cs :: ·) := by
  cases cs with
  | nil => exact absurd rfl hne
  | cons c cs =>
    have he : Pending.gap.extend c = .word [c] := rfl
    rw [List.cons_append, scan_wordChar gap_open (h c (by simp)), he,
      scan_wordChars (fun d hd => h d (by simp [hd])), scan_word_break hr]
    simp

theorem scan_escape (c : Char) (back rest : List Char) :
    scan (.quoted back false) (Quoted.escape c ++ rest)
      = scan (.quoted ((Quoted.escape c).reverse ++ back) false) rest := by
  have hx : ∀ n < 16, Quoted.hexDigit n ≠ '"' ∧ (Quoted.hexDigit n == '\\') = false := by
    decide
  have he := Quoted.escaped_escape c
  generalize Quoted.escape c = cs at he
  cases he with
  | letter e hu h => simp [scan]
  | code h =>
    obtain ⟨hq, hb⟩ := hx (c.toNat / 16) (by omega)
    obtain ⟨hq', hb'⟩ := hx (c.toNat % 16) (by omega)
    simp [scan, hq, hb, hq', hb']
  | plain hq hb h => simp [scan, hq, beq_eq_false_iff_ne.mpr hb]

theorem scan_encode (cs back rest : List Char) :
    scan (.quoted back false) (Quoted.encode cs ++ rest)
      = scan (.quoted ((Quoted.encode cs).reverse ++ back) false) rest := by
  induction cs generalizing back with
  | nil => rfl
  | cons c cs ih =>
    rw [Quoted.encode, List.flatMap_cons, List.append_assoc, scan_escape, ← Quoted.encode, ih]
    simp

theorem scan_quoted (s : String) (rest : List Char) :
    scan .gap (Value.quoted (some s) ++ rest) = (scan .gap rest).map (.text (some s) :: ·) := by
  have hl : literal? (Quoted.encode s.toList) = some (.text (some s)) := by
    rw [literal?, Quoted.decode?_encode]
    simp
  have hq : scan .gap (Value.quoted (some s) ++ rest)
      = scan (.quoted [] false) (Quoted.encode s.toList ++ '"' :: rest) := by
    rw [Value.quoted, List.cons_append, List.cons_append, List.append_assoc, scan]
    · simp [isBlank, Pending.flush]
    all_goals exact fun _ h => gap_open _ _ h
  rw [hq, scan_encode, scan]
  simp [hl]

end Token

end Federation.Json
