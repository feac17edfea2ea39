import Federation.Json.Parser
import Federation.Proofs.Json.Scanning

/-!
# Reading what was written

The tokens of a value are given by recursion on it. Whatever blanks a layout puts between them, a
written value scans to its tokens, and its tokens take the reading machine from waiting for a value
to having placed it. So every value whose texts are texts reads back from what is written for it.
-/

set_option autoImplicit false

namespace Federation.Json

open Token (scan Breaks breaks_mark breaks_blanks scan_blanks scan_mark scan_word scan_quoted
  gap_open isWordChar)

structure Layout.IsBlank (layout : Layout) : Prop where
  lineBreak : ∀ depth, ∀ c ∈ layout.lineBreak depth, Token.isBlank c = true
  space : ∀ c ∈ layout.space, Token.isBlank c = true

theorem Layout.compact_isBlank : Layout.compact.IsBlank := ⟨by simp [compact], by simp [compact]⟩

theorem Layout.pretty_isBlank : Layout.pretty.IsBlank := by
  constructor
  · intro depth c hc
    rcases List.mem_cons.mp hc with rfl | hc
    · rfl
    · rw [(List.mem_replicate.mp hc).2]
      rfl
  · intro c hc
    rw [List.mem_singleton.mp hc]
    rfl

namespace Value

mutual

def IsTextual : Value → Prop
  | .null | .bool _ | .number _ => True
  | .string t => t.isSome
  | .array items => ItemsTextual items
  | .object members => MembersTextual members

def ItemsTextual : List Value → Prop
  | [] => True
  | item :: items => IsTextual item ∧ ItemsTextual items

def MembersTextual : List (Text × Value) → Prop
  | [] => True
  | (name, v) :: members => name.isSome ∧ IsTextual v ∧ MembersTextual members

end

mutual

def tokens : Value → List Token
  | .null => [.word ['n', 'u', 'l', 'l']]
  | .bool true => [.word ['t', 'r', 'u', 'e']]
  | .bool false => [.word ['f', 'a', 'l', 's', 'e']]
  | .number n => [.word n.toChars]
  | .string t => [.text t]
  | .array [] => [.openArray, .closeArray]
  | .array (item :: items) => .openArray :: tokens item ++ itemTokens items ++ [.closeArray]
  | .object [] => [.openObject, .closeObject]
  | .object ((name, v) :: members) =>
    .openObject :: .text name :: .colon :: tokens v ++ memberTokens members ++ [.closeObject]

def itemTokens : List Value → List Token
  | [] => []
  | item :: items => .comma :: tokens item ++ itemTokens items

def memberTokens : List (Text × Value) → List Token
  | [] => []
  | (name, v) :: members => .comma :: .text name :: .colon :: tokens v ++ memberTokens members

end

theorem toChars_wordChars (n : Number) :
    n.toChars ≠ [] ∧ ∀ c ∈ n.toChars, isWordChar c = true := by
  have hd : ∀ ds : List Digit, ∀ c ∈ ds.map Digit.toChar, isWordChar c = true := by
    intro ds c hc
    obtain ⟨d, -, rfl⟩ := List.mem_map.mp hc
    have hall : ∀ d : Digit, isWordChar d.toChar = true := by decide
    exact hall d
  constructor
  · intro h
    have hw : (Decimal.digits n.whole).map Digit.toChar = [] := by
      simp only [Number.toChars, List.append_eq_nil_iff] at h
      exact h.1.1.2
    exact Decimal.digits_ne_nil _ (List.map_eq_nil_iff.mp hw)
  · intro c hc
    simp only [Number.toChars, List.mem_append] at hc
    rcases hc with ((hc | hc) | hc) | hc
    · split at hc
      · rw [List.mem_singleton.mp hc]
        rfl
      · cases hc
    · exact hd _ c hc
    · split at hc
      · cases hc
      · rcases List.mem_cons.mp hc with rfl | hc
        · rfl
        · exact hd _ c hc
    · cases he : n.exponent with
      | none =>
        rw [he] at hc
        cases hc
      | some e =>
        rw [he] at hc
        rcases List.mem_cons.mp hc with rfl | hc
        · rfl
        · rcases List.mem_cons.mp hc with rfl | hc
          · split <;> rfl
          · exact hd _ c hc

theorem breaks_writeItems (layout : Layout) (depth : Nat) (items : List Value)
    {rest : List Char} (h : Breaks rest) : Breaks (writeItems layout depth items ++ rest) := by
  cases items with
  | nil => exact h
  | cons item items => exact breaks_mark rfl _

theorem breaks_writeMembers (layout : Layout) (depth : Nat) (members : List (Text × Value))
    {rest : List Char} (h : Breaks rest) :
    Breaks (writeMembers layout depth members ++ rest) := by
  cases members with
  | nil => exact h
  | cons m members => exact breaks_mark rfl _

variable {layout : Layout}

theorem scan_name (hl : layout.IsBlank) {name : Text} (hn : name.isSome) (rest : List Char) :
    scan .gap (quoted name ++ ':' :: layout.space ++ rest)
      = (scan .gap rest).map ([.text name, .colon] ++ ·) := by
  obtain ⟨s, rfl⟩ := Option.isSome_iff_exists.mp hn
  rw [List.append_assoc, scan_quoted, List.cons_append,
    scan_mark gap_open (c := ':') (t := .colon) rfl,
    scan_blanks hl.space]
  simp [Token.Pending.flush, Function.comp_def]

mutual

theorem scan_write (hl : layout.IsBlank) (v : Value) (hv : v.IsTextual) (depth : Nat)
    {rest : List Char} (hr : Breaks rest) :
    scan .gap (v.write layout depth ++ rest) = (scan .gap rest).map (v.tokens ++ ·) := by
  cases v with
  | null =>
    show scan .gap (['n', 'u', 'l', 'l'] ++ rest) = _
    exact scan_word (by simp) (List.all_eq_true.mp (by decide)) hr
  | bool b =>
    cases b with
    | false =>
      show scan .gap (['f', 'a', 'l', 's', 'e'] ++ rest) = _
      exact scan_word (by simp) (List.all_eq_true.mp (by decide)) hr
    | true =>
      show scan .gap (['t', 'r', 'u', 'e'] ++ rest) = _
      exact scan_word (by simp) (List.all_eq_true.mp (by decide)) hr
  | number n =>
    obtain ⟨hne, hc⟩ := toChars_wordChars n
    exact scan_word hne hc hr
  | string t =>
    obtain ⟨s, rfl⟩ := Option.isSome_iff_exists.mp hv
    exact scan_quoted s rest
  | array items =>
    cases items with
    | nil =>
      simp only [write, tokens, List.cons_append, List.nil_append,
        scan_mark gap_open (c := '[') (t := .openArray) rfl,
        scan_mark gap_open (c := ']') (t := .closeArray) rfl]
      simp [Token.Pending.flush, Function.comp_def]
    | cons item items =>
      have hclose : Breaks (layout.lineBreak depth ++ (']' :: rest)) :=
        breaks_blanks (hl.lineBreak depth) (breaks_mark rfl _)
      simp only [write, tokens, List.cons_append, List.append_assoc, List.nil_append,
        scan_mark gap_open (c := '[') (t := .openArray) rfl, scan_blanks (hl.lineBreak _)]
      rw [scan_write hl item hv.1 _ (breaks_writeItems _ _ _ hclose),
        scan_writeItems hl items hv.2 _ hclose, scan_blanks (hl.lineBreak _),
        scan_mark gap_open (c := ']') (t := .closeArray) rfl]
      simp [Token.Pending.flush, Function.comp_def]
  | object members =>
    cases members with
    | nil =>
      simp only [write, tokens, List.cons_append, List.nil_append,
        scan_mark gap_open (c := '{') (t := .openObject) rfl,
        scan_mark gap_open (c := '}') (t := .closeObject) rfl]
      simp [Token.Pending.flush, Function.comp_def]
    | cons m members =>
      obtain ⟨name, v⟩ := m
      have hclose : Breaks (layout.lineBreak depth ++ ('}' :: rest)) :=
        breaks_blanks (hl.lineBreak depth) (breaks_mark rfl _)
      have hname := scan_name hl hv.1
      simp only [List.append_assoc, List.cons_append] at hname
      simp only [write, tokens, List.cons_append, List.append_assoc, List.nil_append,
        scan_mark gap_open (c := '{') (t := .openObject) rfl, scan_blanks (hl.lineBreak _), hname]
      rw [scan_write hl v hv.2.1 _ (breaks_writeMembers _ _ _ hclose),
        scan_writeMembers hl members hv.2.2 _ hclose, scan_blanks (hl.lineBreak _),
        scan_mark gap_open (c := '}') (t := .closeObject) rfl]
      simp [Token.Pending.flush, Function.comp_def]

theorem scan_writeItems (hl : layout.IsBlank) (items : List Value) (hv : ItemsTextual items)
    (depth : Nat) {rest : List Char} (hr : Breaks rest) :
    scan .gap (writeItems layout depth items ++ rest)
      = (scan .gap rest).map (itemTokens items ++ ·) := by
  cases items with
  | nil => simp [writeItems, itemTokens]
  | cons item items =>
    simp only [writeItems, itemTokens, List.cons_append, List.append_assoc,
      scan_mark gap_open (c := ',') (t := .comma) rfl, scan_blanks (hl.lineBreak _)]
    rw [scan_write hl item hv.1 _ (breaks_writeItems _ _ _ hr), scan_writeItems hl items hv.2 _ hr]
    simp [Token.Pending.flush, Function.comp_def]

theorem scan_writeMembers (hl : layout.IsBlank) (members : List (Text × Value))
    (hv : MembersTextual members) (depth : Nat) {rest : List Char} (hr : Breaks rest) :
    scan .gap (writeMembers layout depth members ++ rest)
      = (scan .gap rest).map (memberTokens members ++ ·) := by
  cases members with
  | nil => simp [writeMembers, memberTokens]
  | cons m members =>
    obtain ⟨name, v⟩ := m
    have hname := scan_name hl hv.1
    simp only [List.append_assoc, List.cons_append] at hname
    simp only [writeMembers, memberTokens, List.cons_append, List.append_assoc,
      scan_mark gap_open (c := ',') (t := .comma) rfl, scan_blanks (hl.lineBreak _), hname]
    rw [scan_write hl v hv.2.1 _ (breaks_writeMembers _ _ _ hr),
      scan_writeMembers hl members hv.2.2 _ hr]
    simp [Token.Pending.flush, Function.comp_def]

end

open Machine (place step? run?)

theorem run?_cons (m : Machine) (t : Token) (ts : List Token) :
    m.run? (t :: ts) = (m.step? t).bind fun next => next.run? ts := rfl

theorem wordValue?_toChars (n : Number) : Machine.wordValue? n.toChars = some (.number n) := by
  have hn := n.ofChars?_toChars
  have hne : ∀ cs, Number.ofChars? cs = none → n.toChars ≠ cs := by
    rintro cs hc rfl
    rw [hn] at hc
    cases hc
  unfold Machine.wordValue?
  rw [if_neg (hne _ rfl), if_neg (hne _ rfl), if_neg (hne _ rfl), hn]
  rfl

theorem tokens_head (v : Value) : ∃ t ts, v.tokens = t :: ts ∧ t ≠ .closeArray := by
  cases v with
  | null => exact ⟨_, _, rfl, by simp⟩
  | bool b => cases b <;> exact ⟨_, _, rfl, by simp⟩
  | number n => exact ⟨_, _, rfl, by simp⟩
  | string t => exact ⟨_, _, rfl, by simp⟩
  | array items => cases items <;> exact ⟨_, _, rfl, by simp⟩
  | object members => cases members <;> exact ⟨_, _, rfl, by simp⟩

theorem run?_firstItem (v : Value) (stack : List Frame) (ts : List Token) :
    (Machine.firstItem stack).run? (v.tokens ++ ts)
      = (Machine.value (.items [] :: stack)).run? (v.tokens ++ ts) := by
  obtain ⟨t, rest, ht, hne⟩ := tokens_head v
  have hs : step? (.firstItem stack) t = step? (.value (.items [] :: stack)) t := by
    cases t <;> first | rfl | exact absurd rfl hne
  rw [ht, List.cons_append, run?_cons, run?_cons, hs]

mutual

theorem run?_tokens (v : Value) (stack : List Frame) (ts : List Token) :
    (Machine.value stack).run? (v.tokens ++ ts) = (place v stack).run? ts := by
  cases v with
  | null => rfl
  | bool b => cases b <;> rfl
  | number n =>
    have hw : step? (.value stack) (.word n.toChars) = some (place (.number n) stack) := by
      show (Machine.wordValue? n.toChars).map _ = _
      rw [wordValue?_toChars]
      rfl
    rw [tokens, List.cons_append, List.nil_append, run?_cons, hw]
    rfl
  | string t => rfl
  | array items =>
    cases items with
    | nil => rfl
    | cons item items =>
      have ho : step? (.value stack) .openArray = some (.firstItem stack) := rfl
      rw [tokens, List.cons_append, List.cons_append, List.cons_append, run?_cons, ho,
        Option.bind_some, List.append_assoc, List.append_assoc, run?_firstItem, run?_tokens item,
        List.singleton_append]
      exact run?_itemTokens items [item] stack ts
  | object members =>
    cases members with
    | nil => rfl
    | cons m members =>
      obtain ⟨name, v⟩ := m
      have ho : (Machine.value stack).run? ((object ((name, v) :: members)).tokens ++ ts)
          = (Machine.value (.member [] name :: stack)).run?
              (v.tokens ++ (memberTokens members ++ .closeObject :: ts)) := by
        simp only [tokens, List.cons_append, List.append_assoc, List.nil_append]
        rfl
      rw [ho, run?_tokens v]
      exact run?_memberTokens members [(name, v)] stack ts

theorem run?_itemTokens (items done : List Value) (stack : List Frame) (ts : List Token) :
    (Machine.afterItem done stack).run? (itemTokens items ++ .closeArray :: ts)
      = (place (.array (done.reverse ++ items)) stack).run? ts := by
  cases items with
  | nil =>
    rw [List.append_nil]
    rfl
  | cons item items =>
    have hc : (Machine.afterItem done stack).run? (itemTokens (item :: items) ++ .closeArray :: ts)
        = (Machine.value (.items done :: stack)).run?
            (item.tokens ++ (itemTokens items ++ .closeArray :: ts)) := by
      simp only [itemTokens, List.cons_append, List.append_assoc]
      rfl
    rw [hc, run?_tokens item, place, run?_itemTokens items]
    simp

theorem run?_memberTokens (members done : List (Text × Value)) (stack : List Frame)
    (ts : List Token) :
    (Machine.afterMember done stack).run? (memberTokens members ++ .closeObject :: ts)
      = (place (.object (done.reverse ++ members)) stack).run? ts := by
  cases members with
  | nil =>
    rw [List.append_nil]
    rfl
  | cons m members =>
    obtain ⟨name, v⟩ := m
    have hc : (Machine.afterMember done stack).run?
        (memberTokens ((name, v) :: members) ++ .closeObject :: ts)
        = (Machine.value (.member done name :: stack)).run?
            (v.tokens ++ (memberTokens members ++ .closeObject :: ts)) := by
      simp only [memberTokens, List.cons_append, List.append_assoc]
      rfl
    rw [hc, run?_tokens v, place, run?_memberTokens members]
    simp

end

theorem ofTokens?_tokens (v : Value) : ofTokens? v.tokens = some v := by
  have h := run?_tokens v [] []
  rw [List.append_nil] at h
  rw [ofTokens?, h]
  rfl

/-- What any layout writes for a value reads back as that value. -/
theorem parse?_render (hl : layout.IsBlank) {v : Value} (hv : v.IsTextual) :
    parse? (v.render layout) = some v := by
  have hs := scan_write hl v hv 0 Token.breaks_nil
  have hn : scan .gap [] = some [] := rfl
  rw [List.append_nil, hn, Option.map_some, List.append_nil] at hs
  rw [parse?, render, String.toList_ofList, ofChars?, tokens?, hs, Option.bind_some,
    ofTokens?_tokens]

end Value

end Federation.Json
