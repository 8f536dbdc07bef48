import TemplateTree.Proofs.Attribute.Grammar
import TemplateTree.Proofs.Token.Cover

/-! Reading references on bytes. The decoder works with places in the value, takes text out of it only
between two places, and reads numbers in words of 32 bits; where a place lies inside a character, or where
a number does not fit, it has no result. It always has one: the value with its references replaced. -/
namespace TemplateTree

open Text
open ByteScan (byte? seek At)

namespace ByteDecode

variable (input : Text)

/-- The number of a row of digits, digit by digit in 32 bits. -/
def word? (base : Nat) (digits : Text) : Option Nat :=
  digits.foldlM (fun n c => (Reference.digit? c).bind fun d =>
    if d < base ∧ n * base + d < 2 ^ 32 then some (n * base + d) else none) 0

/-- The character whose number stands at `i`, and the place behind its semicolon. One digit more than
allowed is enough to see that there are too many. -/
def number? (base limit i : Nat) : Option (Option (Char × Nat)) :=
  let count := ((((bytes input).drop i).take (limit + 1)).takeWhile (Reference.isDigitOf base)).length
  if 0 < count ∧ count ≤ limit ∧ byte? input (i + count) = some ';' then do
    let digits ← slice? input i (i + count)
    let n ← word? base digits
    some (if n.isValidChar then some (Char.ofNat n, i + count + 1) else none)
  else some none

/-- The character of the numeric reference whose ampersand is at `i`, and the place behind it. -/
def numeral? (i : Nat) : Option (Option (Char × Nat)) :=
  let rest := (bytes input).drop i
  if starts ['&', '#', 'x'] rest || starts ['&', '#', 'X'] rest then number? input 16 6 (i + 3)
  else if starts ['&', '#'] rest then number? input 10 7 (i + 2)
  else some none

/-- The character of the reference whose ampersand is at `i`, and the place behind the reference. -/
def reference? (i : Nat) : Option (Option (Char × Nat)) :=
  match Reference.names.find? fun (name, _) => starts ('&' :: name) ((bytes input).drop i) with
  | some (name, c) => some (some (c, i + (name.length + 1)))
  | none => numeral? input i

/-- The value from `i` on. -/
def decodeFrom? (i : Nat) : Option Text :=
  if i < byteSize input then
    if byte? input i = some '&' then
      match reference? input i with
      | none => none
      | some none => (decodeFrom? (i + 1)).map ('&' :: ·)
      | some (some (c, next)) => if i < next then (decodeFrom? next).map (c :: ·) else none
    else
      let next := seek input (starts ['&']) i
      match slice? input i next with
      | none => none
      | some text => if i < next then (decodeFrom? next).map (text ++ ·) else none
  else some []
termination_by byteSize input - i

/-- The whole value. One without an ampersand is kept as it is. -/
def decode? : Option Text :=
  let first := seek input (starts ['&']) 0
  if first < byteSize input then do
    let text ← slice? input 0 first
    (decodeFrom? input first).map (text ++ ·)
  else some input

variable {input r : Text} {base limit i : Nat} {digits : Text} {c : Char}

theorem isAscii_of_isDigitOf (c : Char) (h : Reference.isDigitOf base c = true) : IsAscii c := by
  obtain ⟨v, hv, -⟩ := (Option.any_eq_true _ _).mp h
  rw [Reference.digit?] at hv
  split_ifs at hv with hdigit hsmall hcapital
  · exact isAscii_of_isDigit hdigit
  · exact Nat.lt_of_le_of_lt hsmall.2 (by decide)
  · exact Nat.lt_of_le_of_lt hcapital.2 (by decide)

theorem isAscii_of_mem_names : ∀ e ∈ Reference.names, ∀ d ∈ e.1, IsAscii d := by
  simp [Reference.names, IsAscii]

theorem isAscii_of_spells {w : Text} (h : Reference.Spells w c) : ∀ d ∈ w, IsAscii d := by
  cases h with
  | named hname => exact isAscii_of_mem_names _ hname
  | decimal _ _ hdigits _ =>
    intro d hd
    simp only [List.mem_cons, List.mem_append, List.not_mem_nil, or_false] at hd
    rcases hd with rfl | hd | rfl
    · decide
    · exact isAscii_of_isDigitOf d (hdigits d hd)
    · decide
  | hexadecimal hx _ _ hdigits _ =>
    intro d hd
    simp only [List.mem_cons, List.mem_append, List.not_mem_nil, or_false] at hd
    rcases hd with rfl | rfl | hd | rfl
    · decide
    · rcases hx with rfl | rfl <;> decide
    · exact isAscii_of_isDigitOf d (hdigits d hd)
    · decide

/-- As many digits as a reference may have always fit. -/
theorem word?_eq (hbase : 1 < base) (hdigits : ∀ d ∈ digits, Reference.isDigitOf base d = true)
    (hfits : base ^ digits.length ≤ 2 ^ 32) : word? base digits = some (Reference.value base digits) := by
  -- from the left, since every number on the way has to fit
  induction digits using List.reverseRecOn with
  | nil => rfl
  | append_singleton ds d ih =>
    have hlt := Reference.value_lt hbase hdigits
    have hshorter : base ^ ds.length ≤ 2 ^ 32 :=
      (Nat.pow_le_pow_right (by omega) (by simp)).trans hfits
    have hfront := ih (fun e he => hdigits e (List.mem_append_left _ he)) hshorter
    obtain ⟨v, hv, hvlt⟩ := (Option.any_eq_true _ _).mp (hdigits d (by simp))
    have hvalue : Reference.value base (ds ++ [d]) = Reference.value base ds * base + v := by
      simp [Reference.value, hv]
    rw [word?] at hfront ⊢
    rw [hvalue] at hlt
    have hword : v < base ∧ Reference.value base ds * base + v < 2 ^ 32 :=
      ⟨by simpa using hvlt, hlt.trans_le hfits⟩
    rw [List.foldlM_append, hfront, hvalue]
    simp only [List.foldlM_cons, List.foldlM_nil, Option.bind_eq_bind, Option.bind_some, hv, if_pos hword]
    rfl

/-- One digit more than allowed is looked at. -/
theorem digits_eq (h : At input i r) :
    (((bytes input).drop i).take (limit + 1)).takeWhile (Reference.isDigitOf base) =
      (r.takeWhile (Reference.isDigitOf base)).take (limit + 1) := by
  rw [← List.take_takeWhile, h.drop, (takeWhile_bytes isAscii_of_isDigitOf r).1]

theorem number?_eq (h : At input i r) (hbase : 1 < base) (hfits : base ^ limit ≤ 2 ^ 32) :
    number? input base limit i =
      some ((Reference.number? base limit r).map fun (c, n) => (c, i + n)) := by
  have hsplit := List.takeWhile_append_dropWhile (p := Reference.isDigitOf base) (l := r)
  have hdigits : ∀ d ∈ r.takeWhile (Reference.isDigitOf base), Reference.isDigitOf base d = true :=
    fun d hd => List.mem_takeWhile_imp hd
  rw [number?, Reference.number?, digits_eq h, List.length_take]
  generalize r.takeWhile (Reference.isDigitOf base) = digits at *
  generalize r.dropWhile (Reference.isDigitOf base) = rest at *
  subst hsplit
  have hsize : byteSize digits = digits.length :=
    ByteScan.byteSize_of_ascii fun d hd => isAscii_of_isDigitOf d (hdigits d hd)
  have hrest : At input (i + digits.length) rest := hsize ▸ h.append
  have hslice : slice? input i (i + digits.length) = some digits := hsize ▸ h.slice
  have hend := hrest.byte?_iff (c := ';') (by decide)
  simp only [List.drop_left]
  by_cases hfew : digits.length ≤ limit
  · have hcount : min (limit + 1) digits.length = digits.length := by omega
    have hword := word?_eq hbase hdigits ((Nat.pow_le_pow_right (by omega) hfew).trans hfits)
    rw [hcount]
    by_cases hread : 0 < digits.length ∧ rest.head? = some ';'
    · rw [if_pos ⟨hread.1, hfew, hend.mpr hread.2⟩, hslice, Option.bind_eq_bind, Option.bind_some, hword]
      by_cases hvalid : (Reference.value base digits).isValidChar
      · simp [hread, hfew, hvalid, Nat.add_assoc]
      · simp [hvalid]
    · have hnone : ¬ (0 < digits.length ∧ digits.length ≤ limit ∧
          byte? input (i + digits.length) = some ';') := fun hall =>
        hread ⟨hall.1, hend.mp hall.2.2⟩
      have hnone' : ¬ (0 < digits.length ∧ digits.length ≤ limit ∧ rest.head? = some ';' ∧
          (Reference.value base digits).isValidChar) := fun hall => hread ⟨hall.1, hall.2.2.1⟩
      rw [if_neg hnone, if_neg hnone']
      rfl
  · rw [if_neg (by omega), if_neg (fun hall => hfew hall.2.1)]
    rfl

/-- Where an ampersand stands, the bytes begin with a word behind it as the text does. -/
theorem starts_ampersand (h : At input i ('&' :: r)) (word : Text) (hword : ∀ d ∈ word, IsAscii d) :
    starts ('&' :: word) ((bytes input).drop i) = word.isPrefixOf r := by
  have htest : AsciiTest (starts ('&' :: word)) := by
    refine asciiTest_starts (List.cons_ne_nil _ _) fun d hd => ?_
    rcases List.mem_cons.mp hd with rfl | hd
    · decide
    · exact hword d hd
  rw [h.drop, htest.bytes]
  simp [starts]

theorem numeral?_eq (h : At input i ('&' :: r))
    (hnone : Reference.names.find? (fun e => e.1.isPrefixOf r) = none) :
    numeral? input i = some ((Reference.after? r).map fun e => (e.1, i + (e.2 + 1))) := by
  have hrest := h.cons (by decide)
  have hsmall := starts_ampersand h ['#', 'x'] (by simp [IsAscii])
  have hcapital := starts_ampersand h ['#', 'X'] (by simp [IsAscii])
  have hmark := starts_ampersand h ['#'] (by simp [IsAscii])
  rw [numeral?, hsmall, hcapital, hmark]
  by_cases hhead : r.head? = some '#'
  · obtain ⟨s, rfl⟩ := List.head?_eq_some_iff.mp hhead
    have hs := hrest.cons (by decide)
    by_cases hletter : s.head? = some 'x' ∨ s.head? = some 'X'
    · obtain ⟨x, z, hx, rfl⟩ : ∃ x z, (x = 'x' ∨ x = 'X') ∧ s = x :: z := by
        cases s with
        | nil => simp at hletter
        | cons x z => exact ⟨x, z, by simpa using hletter, rfl⟩
      have hascii : IsAscii x := by rcases hx with rfl | rfl <;> decide
      have hlead : (['#', 'x'].isPrefixOf ('#' :: x :: z) || ['#', 'X'].isPrefixOf ('#' :: x :: z)) =
          true := by rcases hx with rfl | rfl <;> simp
      rw [if_pos hlead, number?_eq (hs.cons hascii) (by decide) (by decide),
        Reference.after?_hexadecimal hx, Option.map_map]
      congr 2
      funext e
      simp only [Function.comp_apply, Prod.mk.injEq, true_and]
      omega
    · have hlead : (['#', 'x'].isPrefixOf ('#' :: s) || ['#', 'X'].isPrefixOf ('#' :: s)) = false := by
        cases s with
        | nil => rfl
        | cons x z =>
          simp only [List.head?_cons, Option.some.injEq, not_or] at hletter
          simp [List.isPrefixOf, Ne.symm hletter.1, Ne.symm hletter.2]
      have hhash : ['#'].isPrefixOf ('#' :: s) = true := rfl
      rw [not_or] at hletter
      rw [hlead, if_neg Bool.false_ne_true, if_pos hhash, number?_eq hs (by decide) (by decide),
        Reference.after?_decimal hletter.1 hletter.2, Option.map_map]
      congr 2
      funext e
      simp only [Function.comp_apply, Prod.mk.injEq, true_and]
      omega
  · have hno (word : Text) : ('#' :: word).isPrefixOf r = false := by
      cases r with
      | nil => rfl
      | cons x z =>
        have hx : x ≠ '#' := fun hx => hhead (by rw [hx]; rfl)
        simp [List.isPrefixOf, Ne.symm hx]
    rw [hno, hno, hno, Reference.after?_name hhead, hnone]
    rfl

/-- The decoder on bytes sees the references that the text spells. -/
theorem reference?_eq (h : At input i ('&' :: r)) :
    reference? input i = some ((Reference.after? r).map fun (c, n) => (c, i + (n + 1))) := by
  have hfind : Reference.names.find? (fun (name, _) => starts ('&' :: name) ((bytes input).drop i)) =
      Reference.names.find? fun (name, _) => name.isPrefixOf r :=
    List.find?_congr fun e he => starts_ampersand h e.1 (isAscii_of_mem_names e he)
  rw [reference?, hfind]
  cases hfound : Reference.names.find? (fun (name, _) => name.isPrefixOf r) with
  | none => exact numeral?_eq h hfound
  | some e =>
    have hstarts : e.1.isPrefixOf r = true := by simpa using List.find?_some hfound
    obtain ⟨z, rfl⟩ := List.isPrefixOf_iff_prefix.mp hstarts
    rw [Reference.after?_append_name (List.mem_of_find?_eq_some hfound)]
    rfl

/-- Up to the first ampersand a value is copied. -/
theorem decode_upTo (s : Text) : Reference.decode s =
    upTo (starts ['&']) s ++ Reference.decode (onward (starts ['&']) s) := by
  induction s with
  | nil => rfl
  | cons c s ih =>
    by_cases hc : c = '&'
    · subst hc
      simp [upTo, onward, starts]
    · have hno : starts ['&'] (c :: s) = false := by simp [starts, List.isPrefixOf, Ne.symm hc]
      rw [Reference.decode, if_neg hc, ih, upTo, onward, hno]
      rfl

theorem asciiTest_ampersand : AsciiTest (starts ['&']) :=
  asciiTest_starts (by simp) (by simp [IsAscii])

theorem decodeFrom?_eq (h : At input i r) : decodeFrom? input i = some (Reference.decode r) := by
  -- each round leaves a shorter text
  induction hn : r.length using Nat.strong_induction_on generalizing i r with
  | _ n ih =>
    subst hn
    rw [decodeFrom?]
    cases r with
    | nil =>
      have hsize := h.size
      rw [byteSize, Nat.add_zero] at hsize
      rw [if_neg (by omega), Reference.decode]
    | cons c s =>
      rw [if_pos h.lt]
      by_cases hc : c = '&'
      · subst hc
        rw [if_pos ((h.byte?_iff (by decide)).mpr rfl), reference?_eq h, Reference.decode, if_pos rfl]
        cases hread : Reference.after? s with
        | none =>
          have hrest := ih s.length (by simp) (h.cons (by decide)) rfl
          simp only [Option.map_none, hrest, Option.map_some]
        | some e =>
          obtain ⟨w, z, rfl, hw, hlength⟩ := Reference.spells_of_after? hread
          have hsize : byteSize ('&' :: w) = e.2 + 1 := by
            rw [ByteScan.byteSize_ascii (by decide),
              ByteScan.byteSize_of_ascii (isAscii_of_spells hw), hlength]
          have hat : At input (i + (e.2 + 1)) z := by
            rw [← hsize]
            exact h.append
          have hrest := ih z.length (by simp) hat rfl
          simp only [Option.map_some]
          rw [if_pos (by omega), hrest, ← hlength, List.drop_left]
          rfl
      · have hnext := h.seek_eq asciiTest_ampersand
        have hslice := h.slice_seek asciiTest_ampersand
        have hno : starts ['&'] (c :: s) = false := by simp [starts, List.isPrefixOf, Ne.symm hc]
        have hshorter : (onward (starts ['&']) (c :: s)).length < (c :: s).length := by
          have hsplit := congrArg List.length (upTo_append_onward (starts ['&']) s)
          rw [List.length_append] at hsplit
          rw [onward, hno]
          simp only [Bool.false_eq_true, if_false, List.length_cons]
          omega
        have hrest := ih _ hshorter hnext.2 rfl
        have hadvance := h.lt_of_shorter hnext.2 hshorter
        rw [if_neg (h.byte?_ne (by decide) hc), decode_upTo]
        simp only [hslice, if_pos hadvance, hrest, Option.map_some]

/-- The decoder on bytes never fails, and reads what the decoder on characters reads. -/
theorem decode?_eq (input : Text) : decode? input = some (Reference.decode input) := by
  have hat : At input 0 input := ⟨[], rfl, rfl⟩
  have hfirst := hat.seek_eq asciiTest_ampersand
  have hsize := hfirst.2.size
  rw [decode?, hat.slice_seek asciiTest_ampersand, decode_upTo]
  by_cases hnone : onward (starts ['&']) input = []
  · have hall := upTo_append_onward (starts ['&']) input
    rw [hnone, List.append_nil] at hall
    rw [hnone, byteSize, Nat.add_zero] at hsize
    rw [if_neg (by omega), hnone, hall, Reference.decode, List.append_nil]
  · have hpos := ByteScan.byteSize_pos hnone
    rw [if_pos (by omega), Option.bind_eq_bind, Option.bind_some, decodeFrom?_eq hfirst.2]
    rfl

end ByteDecode

namespace Reference

/-- Reading references is one pass over the grammar: it replaces what the grammar spells and copies the
rest. On bytes it neither cuts a character nor meets a number that does not fit. Writing takes away the
quotes, and what was written is read again. -/
theorem decode_pass :
    (∀ s t, decode s = t ↔ Decodes s t) ∧ (∀ s, ByteDecode.decode? s = some (decode s)) ∧
      ∀ v, '"' ∉ escape v ∧ decode (escape v) = v :=
  ⟨fun _ _ => decode_eq_iff, ByteDecode.decode?_eq, fun v =>
    ⟨quote_not_mem_escape v, decode_escape v⟩⟩

/-- An ampersand that a reference stands for begins no reference. -/
example : decode "&amp;lt;&#38;lt;".toList = "&lt;&lt;".toList := by decide +kernel

end Reference
end TemplateTree
