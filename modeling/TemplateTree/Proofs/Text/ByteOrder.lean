import TemplateTree.Text.Utf8
import Mathlib.Data.Char
import Mathlib.Data.List.Lex
import Mathlib.Tactic.SplitIfs

/-! Texts in the order of their bytes. UTF-8 keeps the order of the characters, so that two texts can be
compared either way. -/
namespace TemplateTree.Utf8

/-- The bytes of a text. -/
def encode (t : Text) : List UInt8 := t.flatMap String.utf8EncodeChar

/-- The bytes of a smaller character are smaller at the first place where they differ, whatever
follows. -/
theorem encodeChar_append_lt {c d : Char} (h : c < d) (x y : List UInt8) :
    String.utf8EncodeChar c ++ x < String.utf8EncodeChar d ++ y := by
  have hlt : c.val.toNat < d.val.toNat := h
  have hscalar : d.val.toNat < 0x110000 := by
    rcases d.valid with hd | hd
    · exact Nat.lt_trans hd (by decide)
    · exact hd.2
  simp only [String.utf8EncodeChar]
  generalize c.val.toNat = m at hlt ⊢
  generalize d.val.toNat = n at hlt hscalar ⊢
  -- digit by digit, six bits at a time
  have hdigits : m / 262144 < n / 262144 ∨ m / 262144 = n / 262144 ∧
      (m / 4096 < n / 4096 ∨ m / 4096 = n / 4096 ∧
        (m / 64 < n / 64 ∨ m / 64 = n / 64 ∧ m % 64 < n % 64)) := by omega
  split_ifs <;>
    simp only [List.cons_append, List.nil_append, List.cons_lt_cons_iff, UInt8.lt_iff_toNat_lt,
      ← UInt8.toNat_inj, UInt8.toNat_ofNat'] <;>
    simp (disch := omega) only [Nat.mod_eq_of_lt] <;> omega

theorem encode_lt_encode {t u : Text} (h : t < u) : encode t < encode u := by
  induction t generalizing u with
  | nil => cases u with
    | nil => exact absurd h (List.not_lt_nil [])
    | cons d u =>
      have hne : encode (d :: u) ≠ [] := by
        rw [encode, List.flatMap_cons]
        exact List.append_ne_nil_of_left_ne_nil (String.utf8EncodeChar_ne_nil) _
      obtain ⟨b, bs, hbs⟩ := List.exists_cons_of_ne_nil hne
      rw [hbs]
      exact List.nil_lt_cons b bs
  | cons c t ih => cases u with
    | nil => exact absurd h (List.not_lt_nil _)
    | cons d u =>
      rw [encode, encode, List.flatMap_cons, List.flatMap_cons]
      rcases List.cons_lt_cons_iff.mp h with hcd | ⟨rfl, htu⟩
      · exact encodeChar_append_lt hcd _ _
      · exact List.append_left_lt (ih htu)

end TemplateTree.Utf8
