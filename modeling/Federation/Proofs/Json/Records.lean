import Federation.Document.Basic
import Federation.Proofs.Json.Singles
import Federation.Proofs.Json.Written

/-!
# Records and their fields

What a record writes under a name is what a reader finds under it, provided that no two names are
equal. Counts that fit a word, numbers of single precision and lists of what reads back read back.
-/

set_option autoImplicit false

namespace Federation.Json.Value

variable {α β : Type}

theorem itemsTextual_iff {items : List Value} :
    ItemsTextual items ↔ ∀ v ∈ items, v.IsTextual := by
  induction items with
  | nil => simp [ItemsTextual]
  | cons v items ih => simp [ItemsTextual, ih]

theorem isTextual_array_map {xs : List α} {g : α → Value} (h : ∀ x ∈ xs, (g x).IsTextual) :
    (array (xs.map g)).IsTextual := by
  refine itemsTextual_iff.mpr fun v hv => ?_
  obtain ⟨x, hx, rfl⟩ := List.mem_map.mp hv
  exact h x hx

theorem isTextual_record {fields : List (String × Value)} (h : ∀ f ∈ fields, f.2.IsTextual) :
    (record fields).IsTextual := by
  show MembersTextual (fields.map fun f => (some f.1, f.2))
  induction fields with
  | nil => trivial
  | cons f fields ih =>
    exact ⟨rfl, h f (by simp), ih fun e he => h e (by simp [he])⟩

theorem isTextual_ofNat (n : Nat) : (ofNat n).IsTextual := trivial

theorem isTextual_ofNats (ns : List Nat) : (ofNats ns).IsTextual :=
  isTextual_array_map fun n _ => isTextual_ofNat n

theorem isTextual_ofSingle (x : Single) : (ofSingle x).IsTextual := by
  unfold ofSingle
  split <;> trivial

theorem isTextual_ofDouble (x : Double) : (ofDouble x).IsTextual := by
  unfold ofDouble
  split <;> trivial

theorem mapM_map_some {g : α → β} {γ : Type} {read : β → Option γ} {value : α → γ} {xs : List α}
    (h : ∀ x ∈ xs, read (g x) = some (value x)) : (xs.map g).mapM read = some (xs.map value) := by
  induction xs with
  | nil => rfl
  | cons x xs ih =>
    rw [List.map_cons, List.mapM_cons, h x (by simp), ih fun y hy => h y (by simp [hy])]
    rfl

theorem mapM_eq_none {read : α → Option β} {xs : List α} {x : α} (hx : x ∈ xs)
    (h : read x = none) : xs.mapM read = none := by
  induction xs with
  | nil => cases hx
  | cons y xs ih =>
    rw [List.mapM_cons]
    rcases List.mem_cons.mp hx with rfl | hx
    · rw [h]
      rfl
    · rw [ih hx]
      cases read y <;> rfl

theorem exists_of_mapM {read : α → Option β} {xs : List α} {ys : List β}
    (h : xs.mapM read = some ys) : ∀ y ∈ ys, ∃ x ∈ xs, read x = some y := by
  induction xs generalizing ys with
  | nil =>
    cases h
    simp
  | cons x xs ih =>
    rw [List.mapM_cons] at h
    obtain ⟨y, hy, h⟩ := Option.bind_eq_some_iff.mp h
    obtain ⟨rest, hr, h⟩ := Option.bind_eq_some_iff.mp h
    cases h
    intro z hz
    rcases List.mem_cons.mp hz with rfl | hz
    · exact ⟨x, by simp, hy⟩
    · obtain ⟨w, hw, hzw⟩ := ih hr z hz
      exact ⟨w, by simp [hw], hzw⟩

theorem named_eq_nil {fields : List (String × Value)} {name : String}
    (h : name ∉ fields.map Prod.fst) : named name (fields.map fun f => (some f.1, f.2)) = [] := by
  have hf : (fields.map fun f : String × Value => (some f.1, f.2)).filter
      (fun m => m.1 == some name) = [] := by
    rw [List.filter_eq_nil_iff]
    intro m hm
    obtain ⟨f, hf, rfl⟩ := List.mem_map.mp hm
    rw [beq_iff_eq, Option.some.injEq]
    rintro rfl
    exact h (List.mem_map_of_mem hf)
  rw [named, hf]
  rfl

theorem named_record {fields : List (String × Value)} (hd : (fields.map Prod.fst).Nodup)
    {f : String × Value} (hf : f ∈ fields) :
    named f.1 (fields.map fun f => (some f.1, f.2)) = [f.2] := by
  induction fields with
  | nil => cases hf
  | cons e fields ih =>
    obtain ⟨he, hd⟩ := List.nodup_cons.mp hd
    rcases List.mem_cons.mp hf with rfl | hf
    · have hnil := named_eq_nil he
      simp only [named, List.map_cons, List.filter_cons, beq_self_eq_true, if_true] at hnil ⊢
      rw [hnil]
    · have hne : (some e.1 == some f.1) = false := by
        rw [beq_eq_false_iff_ne]
        rintro h
        exact he (Option.some.inj h ▸ List.mem_map_of_mem hf)
      have ih := ih hd hf
      simp only [named, List.map_cons, List.filter_cons, hne] at ih ⊢
      exact ih

theorem fields?_record {fields : List (String × Value)} (hd : (fields.map Prod.fst).Nodup) :
    (record fields).fields? (fields.map Prod.fst) = some (fields.map fun f => some f.2) := by
  have hall : (fields.map fun f : String × Value => (some f.1, f.2)).all
      (fun m => m.1.isSome) = true := by
    simp
  rw [record, fields?, if_pos hall]
  refine mapM_map_some fun f hf => ?_
  rw [once?, named_record hd hf]

theorem toNat?_ofNat {n : Nat} (h : n < Count.bound) : (ofNat n).toNat? = some n := by
  simp [ofNat, toNat?, Number.ofNat, Number.toNat?, h]

theorem toNats?_ofNats {ns : List Nat} (h : ∀ n ∈ ns, n < Count.bound) :
    (ofNats ns).toList? toNat? = some ns := by
  have hm : (ns.map ofNat).mapM toNat? = some (ns.map id) :=
    mapM_map_some fun n hn => toNat?_ofNat (h n hn)
  rwa [List.map_id] at hm

theorem toSingle?_ofSingle (x : Single) :
    (ofSingle x).toSingle? = if x.isFinite then some x else none := by
  by_cases h : x.isFinite = true
  · obtain ⟨n, hn, hx⟩ := Number.toSingle?_ofBinary? h
    rw [if_pos h, ofSingle, hn]
    exact hx
  · have hn : Number.ofBinary? Number.singleWindow x = none := by
      cases x with
      | nan => rfl
      | number negative rank =>
        have ht : rank.val = FloatFormat.single.top := by
          have hlt := rank.isLt
          have hge : ¬rank.val < FloatFormat.single.top := fun hlt => h (decide_eq_true hlt)
          omega
        exact if_pos ht
    rw [if_neg h, ofSingle, hn]
    rfl

theorem toSingles?_ofSingles (xs : List Single) :
    (array (xs.map ofSingle)).toList? toSingle?
      = if xs.all Binary.isFinite then some xs else none := by
  by_cases h : xs.all Binary.isFinite = true
  · have hall : ∀ x ∈ xs, x.isFinite = true := List.all_eq_true.mp h
    have hm : (xs.map ofSingle).mapM toSingle? = some (xs.map id) := mapM_map_some fun x hx => by
      rw [toSingle?_ofSingle, if_pos (hall x hx)]
      rfl
    rw [List.map_id] at hm
    rwa [if_pos h]
  · rw [if_neg h]
    simp only [List.all_eq_true, not_forall] at h
    obtain ⟨x, hx, hf⟩ := h
    exact mapM_eq_none (List.mem_map_of_mem hx) (by rw [toSingle?_ofSingle, if_neg hf])

theorem exists_of_toList? {read : Value → Option α} {v : Value} {xs : List α}
    (h : v.toList? read = some xs) : ∀ x ∈ xs, ∃ item, read item = some x := by
  cases v with
  | array items =>
    intro x hx
    obtain ⟨item, -, hi⟩ := exists_of_mapM h x hx
    exact ⟨item, hi⟩
  | _ => cases h

theorem toNat?_lt {v : Value} {n : Nat} (h : v.toNat? = some n) : n < Count.bound := by
  cases v with
  | number m =>
    have hm : m.toNat? = some n := h
    unfold Number.toNat? at hm
    split at hm
    · rename_i hword
      cases hm
      simp only [Bool.and_eq_true, decide_eq_true_eq] at hword
      exact hword.2
    · cases hm
  | _ => cases h

theorem toNats?_lt {v : Value} {ns : List Nat} (h : v.toList? toNat? = some ns) :
    ∀ n ∈ ns, n < Count.bound := by
  intro n hn
  obtain ⟨item, hi⟩ := exists_of_toList? h n hn
  exact toNat?_lt hi

end Federation.Json.Value

namespace Federation.Document

open Json

variable {α : Type} {ofValue? : Value → Option α}

theorem read_ok_iff {text : String} {a : α} :
    read ofValue? text = .ok a ↔ ∃ v, Value.parse? text = some v ∧ ofValue? v = some a := by
  rw [← Option.bind_eq_some_iff]
  unfold read
  cases (Value.parse? text).bind ofValue? <;> simp

theorem read_render_ok_iff {layout : Layout} (hl : layout.IsBlank) {v : Value} (hv : v.IsTextual)
    {a : α} : read ofValue? (v.render layout) = .ok a ↔ ofValue? v = some a := by
  rw [read_ok_iff, Value.parse?_render hl hv]
  simp

end Federation.Document

namespace Federation

theorem Binary.div_isNaN {f : FloatFormat} {x : Binary f} {negative : Bool} {rank : Nat}
    (hx : x.isNaN = false) (hpos : 0 < rank) (ht : rank < f.top) :
    (x / atRank negative rank).isNaN = false := by
  have hr : min rank f.top = rank := Nat.min_eq_left (le_of_lt ht)
  cases x with
  | nan => cases hx
  | number s a =>
    show (div _ _).isNaN = false
    simp only [div, atRank, hr, Nat.ne_of_lt ht, Nat.ne_of_gt hpos, if_false]
    split <;> rfl

namespace Json.Number

open FloatFormat (double)

theorem div_powerOfTen_isNaN {x : Double} {k : Nat} (hx : x.isNaN = false) (hk : k ≤ 308) :
    (x / powerOfTen k).isNaN = false := by
  refine Binary.div_isNaN hx (Nat.pos_of_ne_zero fun hz => ?_) (nearest_tens_lt_top hk)
  have hp := factor_pos hk
  rw [factor, hz, double.units_zero] at hp
  omega

theorem scale?_isNaN {significand : Nat} {power : Int} {x : Double}
    (h : scale? significand power = some x) : x.isNaN = false := by
  have hs : (Binary.ofNat significand : Double).isNaN = false := rfl
  unfold scale? at h
  simp only at h
  split at h
  · split at h
    · cases h
      exact hs
    · cases h
  split at h
  · split at h
    · cases h
      rename_i hf
      cases hy : (Binary.ofNat significand * powerOfTen power.toNat : Double) with
      | nan =>
        rw [hy] at hf
        cases hf
      | number _ _ => rfl
    · cases h
  split at h
  · cases h
    exact div_powerOfTen_isNaN hs (by omega)
  split at h
  · cases h
    exact div_powerOfTen_isNaN (div_powerOfTen_isNaN hs (by omega)) (by omega)
  · cases h
    rfl

theorem toSingle?_isNaN {n : Number} {x : Single} (h : n.toSingle? = some x) :
    x.isNaN = false := by
  unfold toSingle? at h
  cases hw : n.word? with
  | some k =>
    rw [hw] at h
    cases h
    rfl
  | none =>
    rw [hw] at h
    obtain ⟨y, hy, rfl⟩ := Option.map_eq_some_iff.mp h
    obtain ⟨z, hz, rfl⟩ := Option.map_eq_some_iff.mp hy
    have hn := scale?_isNaN hz
    cases z with
    | nan => cases hn
    | number s a =>
      have hnarrow : ∀ s, (Binary.number s a : Double).toSingle.isNaN = false := by
        intro s
        simp only [Binary.toSingle, Binary.convert]
        split <;> rfl
      split
      · exact hnarrow (!s)
      · exact hnarrow s

end Json.Number

end Federation
