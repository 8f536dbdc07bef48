import TemplateTree.Proofs.Token.Written
import Mathlib

/-! The grammar of references. Reading replaces each reference by the character that it spells, in one pass
from left to right, and leaves everything else as it is. -/
namespace TemplateTree.Reference

variable {base limit n : Nat} {digits name r s t w : Text} {c : Char}

/-- The values of digits, units first. -/
def places (digits : Text) : List Nat := digits.reverse.map fun d => (digit? d).getD 0

/-- What stands behind an ampersand for a character: one of the names, or the digits of its number. -/
inductive Spells : Text → Char → Prop
  | named {name : Text} {c : Char} (h : (name, c) ∈ names) : Spells name c
  | decimal {digits : Text} {c : Char} (hpos : 1 ≤ digits.length) (hlimit : digits.length ≤ 7)
    (hdigits : ∀ d ∈ digits, isDigitOf 10 d = true)
    (hvalue : Nat.ofDigits 10 (places digits) = c.toNat) : Spells ('#' :: (digits ++ [';'])) c
  | hexadecimal {x : Char} {digits : Text} {c : Char} (hx : x = 'x' ∨ x = 'X')
    (hpos : 1 ≤ digits.length) (hlimit : digits.length ≤ 6)
    (hdigits : ∀ d ∈ digits, isDigitOf 16 d = true)
    (hvalue : Nat.ofDigits 16 (places digits) = c.toNat) : Spells ('#' :: x :: (digits ++ [';'])) c

/-- The second text is the first one with each reference replaced. Reading goes on behind the reference,
so what it stands for is not read again. -/
inductive Decodes : Text → Text → Prop
  | nil : Decodes [] []
  | reference {w r t : Text} {c : Char} (h : Spells w c) (hrest : Decodes r t) :
    Decodes ('&' :: (w ++ r)) (c :: t)
  | ampersand {r t : Text} (h : ∀ w c z, Spells w c → r ≠ w ++ z) (hrest : Decodes r t) :
    Decodes ('&' :: r) ('&' :: t)
  | other {r t : Text} {c : Char} (h : c ≠ '&') (hrest : Decodes r t) : Decodes (c :: r) (c :: t)

/-- The numeral is read as the number it denotes. -/
theorem value_eq_ofDigits (base : Nat) (digits : Text) :
    value base digits = Nat.ofDigits base (places digits) := by
  rw [Nat.ofDigits_eq_foldr, places, List.foldr_map, List.foldr_reverse, value]
  congr 1
  funext n d
  simp [Nat.mul_comm, Nat.add_comm]

theorem value_lt (hbase : 1 < base) (hdigits : ∀ d ∈ digits, isDigitOf base d = true) :
    value base digits < base ^ digits.length := by
  have hplaces : ∀ x ∈ places digits, x < base := by
    intro x hx
    obtain ⟨d, hd, rfl⟩ := List.mem_map.mp hx
    obtain ⟨v, hv, hlt⟩ := (Option.any_eq_true _ _).mp (hdigits d (List.mem_reverse.mp hd))
    rw [hv]
    simpa using hlt
  have hlength : (places digits).length = digits.length := by
    rw [places, List.length_map, List.length_reverse]
  rw [value_eq_ofDigits, ← hlength]
  exact Nat.ofDigits_lt_base_pow_length hbase hplaces

/-- A number is that of a character exactly when it is a scalar. -/
theorem scalar_iff : n.isValidChar ∧ Char.ofNat n = c ↔ n = c.toNat := by
  constructor
  · rintro ⟨hvalid, rfl⟩
    rw [Char.toNat_ofNat, if_pos hvalid]
  · rintro rfl
    exact ⟨c.valid, Char.ofNat_toNat c⟩

/-- A number is read where its digits stand with a semicolon behind them. -/
theorem number?_eq_some_iff : number? base limit t = some (c, n) ↔ ∃ digits r,
    t = digits ++ ';' :: r ∧ n = digits.length + 1 ∧ 1 ≤ digits.length ∧ digits.length ≤ limit ∧
      (∀ d ∈ digits, isDigitOf base d = true) ∧ Nat.ofDigits base (places digits) = c.toNat := by
  have hcut := List.takeWhile_append_dropWhile (p := isDigitOf base) (l := t)
  constructor
  · intro h
    rw [number?, Option.ite_none_right_eq_some] at h
    obtain ⟨⟨hpos, hlimit, hend, hvalid⟩, h⟩ := h
    obtain ⟨hchar, rfl⟩ := Prod.mk.inj (Option.some.inj h)
    generalize hdigits : t.takeWhile (isDigitOf base) = digits at *
    rw [← hcut, List.drop_left] at hend
    obtain ⟨r, hr⟩ := List.head?_eq_some_iff.mp hend
    refine ⟨digits, r, by rw [← hr, hcut], rfl, hpos, hlimit, ?_, ?_⟩
    · rw [← hdigits]
      exact fun d hd => List.mem_takeWhile_imp hd
    · rw [← value_eq_ofDigits]
      exact scalar_iff.mp ⟨hvalid, hchar⟩
  · rintro ⟨digits, r, rfl, rfl, hpos, hlimit, hdigits, hvalue⟩
    obtain ⟨htake, -⟩ := Text.takeWhile_append_stop (x := ';' :: r) hdigits rfl
    rw [← value_eq_ofDigits] at hvalue
    obtain ⟨hvalid, hchar⟩ := scalar_iff.mpr hvalue
    rw [number?, htake, List.drop_left, hchar]
    exact if_pos ⟨hpos, hlimit, rfl, hvalid⟩

theorem after?_hexadecimal {x : Char} (hx : x = 'x' ∨ x = 'X') (r : Text) :
    after? ('#' :: x :: r) = (number? 16 6 r).map fun (c, n) => (c, n + 2) := by
  rcases hx with rfl | rfl <;> rfl

theorem after?_decimal (hx : r.head? ≠ some 'x') (hX : r.head? ≠ some 'X') :
    after? ('#' :: r) = (number? 10 7 r).map fun (c, n) => (c, n + 1) := by
  unfold after?
  split
  · next heq => simp [(List.cons.inj heq).2] at hx
  · next heq => simp [(List.cons.inj heq).2] at hX
  · next heq => rw [(List.cons.inj heq).2]
  · next hno => exact absurd rfl (hno r)

theorem after?_name (ht : t.head? ≠ some '#') :
    after? t = (names.find? fun (name, _) => name.isPrefixOf t).map fun (name, c) => (c, name.length) := by
  unfold after?
  split
  · simp at ht
  · simp at ht
  · simp at ht
  · rfl

/-- A name is read where it stands, and no other one stands there. -/
theorem after?_append_name (h : (name, c) ∈ names) (r : Text) :
    after? (name ++ r) = some (c, name.length) := by
  simp only [names, List.mem_cons, Prod.mk.injEq, List.not_mem_nil, or_false] at h
  rcases h with ⟨rfl, rfl⟩ | ⟨rfl, rfl⟩ | ⟨rfl, rfl⟩ | ⟨rfl, rfl⟩ | ⟨rfl, rfl⟩ | ⟨rfl, rfl⟩ <;> rfl

/-- What is read behind an ampersand is what the text there spells. -/
theorem spells_of_after? (h : after? t = some (c, n)) :
    ∃ w r, t = w ++ r ∧ Spells w c ∧ w.length = n := by
  by_cases hmark : t.head? = some '#'
  · obtain ⟨r, rfl⟩ := List.head?_eq_some_iff.mp hmark
    by_cases hx : r.head? = some 'x' ∨ r.head? = some 'X'
    · obtain ⟨x, z, hletter, rfl⟩ : ∃ x z, (x = 'x' ∨ x = 'X') ∧ r = x :: z := by
        rcases hx with hx | hx
        · obtain ⟨z, rfl⟩ := List.head?_eq_some_iff.mp hx
          exact ⟨'x', z, Or.inl rfl, rfl⟩
        · obtain ⟨z, rfl⟩ := List.head?_eq_some_iff.mp hx
          exact ⟨'X', z, Or.inr rfl, rfl⟩
      rw [after?_hexadecimal hletter] at h
      obtain ⟨⟨d, m⟩, hnumber, heq⟩ := Option.map_eq_some_iff.mp h
      obtain ⟨rfl, rfl⟩ := Prod.mk.inj heq
      obtain ⟨digits, y, rfl, rfl, hpos, hlimit, hdigits, hvalue⟩ := number?_eq_some_iff.mp hnumber
      exact ⟨_, y, by simp, .hexadecimal hletter hpos hlimit hdigits hvalue, by simp⟩
    · rw [not_or] at hx
      rw [after?_decimal hx.1 hx.2] at h
      obtain ⟨⟨d, m⟩, hnumber, heq⟩ := Option.map_eq_some_iff.mp h
      obtain ⟨rfl, rfl⟩ := Prod.mk.inj heq
      obtain ⟨digits, y, rfl, rfl, hpos, hlimit, hdigits, hvalue⟩ := number?_eq_some_iff.mp hnumber
      exact ⟨_, y, by simp, .decimal hpos hlimit hdigits hvalue, by simp⟩
  · rw [after?_name hmark] at h
    obtain ⟨⟨name, d⟩, hfound, heq⟩ := Option.map_eq_some_iff.mp h
    obtain ⟨rfl, rfl⟩ := Prod.mk.inj heq
    have hstarts : name.isPrefixOf t = true := by simpa using List.find?_some hfound
    obtain ⟨y, hy⟩ := List.isPrefixOf_iff_prefix.mp hstarts
    exact ⟨name, y, hy.symm, .named (List.mem_of_find?_eq_some hfound), rfl⟩

theorem after?_of_spells (hw : Spells w c) (r : Text) : after? (w ++ r) = some (c, w.length) := by
  cases hw with
  | named h => exact after?_append_name h r
  | @decimal digits _ hpos hlimit hdigits hvalue =>
    have hfirst : ∀ x, isDigitOf 10 x = false → (digits ++ ';' :: r).head? ≠ some x := by
      intro x hx hhead
      obtain ⟨d, rest, rfl⟩ := List.exists_cons_of_length_pos hpos
      obtain rfl : d = x := Option.some.inj hhead
      rw [hdigits d List.mem_cons_self] at hx
      cases hx
    have hnumber := number?_eq_some_iff.mpr ⟨digits, r, rfl, rfl, hpos, hlimit, hdigits, hvalue⟩
    have hshape : '#' :: (digits ++ [';']) ++ r = '#' :: (digits ++ ';' :: r) := by simp
    rw [hshape, after?_decimal (hfirst 'x' rfl) (hfirst 'X' rfl), hnumber]
    simp
  | @hexadecimal x digits _ hx hpos hlimit hdigits hvalue =>
    have hnumber := number?_eq_some_iff.mpr ⟨digits, r, rfl, rfl, hpos, hlimit, hdigits, hvalue⟩
    have hshape : '#' :: x :: (digits ++ [';']) ++ r = '#' :: x :: (digits ++ ';' :: r) := by simp
    rw [hshape, after?_hexadecimal hx, hnumber]
    simp

theorem decodes_decode (s : Text) : Decodes s (decode s) := by
  fun_induction decode s with
  | case1 => exact .nil
  | case2 r d n h ih =>
    obtain ⟨w, z, rfl, hw, rfl⟩ := spells_of_after? h
    rw [List.drop_left] at ih ⊢
    exact .reference hw ih
  | case3 r h ih =>
    refine .ampersand ?_ ih
    rintro w c z hw rfl
    rw [after?_of_spells hw] at h
    cases h
  | case4 c r hc ih => exact .other hc ih

/-- Reading is exactly the one pass that the grammar describes. -/
theorem decode_eq_iff : decode s = t ↔ Decodes s t := by
  constructor
  · rintro rfl
    exact decodes_decode s
  · intro h
    induction h with
    | nil => rw [decode]
    | @reference w r t c hw _ ih =>
      rw [decode, if_pos rfl, after?_of_spells hw]
      simp only [List.drop_left, ih]
    | @ampersand r t hno _ ih =>
      have hnone : after? r = none := by
        cases h : after? r with
        | none => rfl
        | some cn =>
          obtain ⟨w, z, hr, hw, -⟩ := spells_of_after? h
          exact absurd hr (hno w _ z hw)
      rw [decode, if_pos rfl, hnone, ih]
    | other hc _ ih => rw [decode, if_neg hc, ih]

end TemplateTree.Reference
