import TemplateTree.Text.Basic

/-!
Reading bytes as UTF-8. A character takes as few bytes as possible and is no surrogate; reading
stops at the first byte where no such character begins.
-/
namespace TemplateTree.Utf8

def isTail (b : UInt8) : Bool := 0x80 ≤ b && b ≤ 0xbf

/-- The six bits that a tail byte adds. -/
def tailBits (b : UInt8) : Nat := b.toNat - 0x80

/-- The scalar `n`, if it is one and needs more than `least` bits to be written. -/
def scalar? (least n : Nat) : Option Char :=
  if least ≤ n ∧ n.isValidChar then some (Char.ofNat n) else none

/-- The character that begins with the byte `a`, and how many of the bytes after `a` it takes. -/
def first? (a : UInt8) (r : List UInt8) : Option (Char × Nat) :=
  if a < 0x80 then some (Char.ofNat a.toNat, 0)
  else if 0xc0 ≤ a ∧ a < 0xe0 then
    match r with
    | b :: _ =>
      if isTail b then
        (scalar? 0x80 ((a.toNat - 0xc0) * 64 + tailBits b)).map (·, 1)
      else none
    | _ => none
  else if 0xe0 ≤ a ∧ a < 0xf0 then
    match r with
    | b :: c :: _ =>
      if isTail b && isTail c then
        (scalar? 0x800 (((a.toNat - 0xe0) * 64 + tailBits b) * 64 + tailBits c)).map (·, 2)
      else none
    | _ => none
  else if 0xf0 ≤ a ∧ a < 0xf8 then
    match r with
    | b :: c :: d :: _ =>
      if isTail b && isTail c && isTail d then
        (scalar? 0x10000
          ((((a.toNat - 0xf0) * 64 + tailBits b) * 64 + tailBits c) * 64 + tailBits d)).map (·, 3)
      else none
    | _ => none
  else none

/-- Reads bytes that begin at `offset`; the error is the offset of the first bad byte. -/
def decodeFrom (offset : Nat) : List UInt8 → Except Nat Text
  | [] => .ok []
  | a :: r =>
    match first? a r with
    | none => .error offset
    | some (c, n) =>
      match decodeFrom (offset + n + 1) (r.drop n) with
      | .error bad => .error bad
      | .ok t => .ok (c :: t)
termination_by bytes => bytes.length
decreasing_by
  rw [List.length_drop, List.length_cons]
  omega

def decode (bytes : List UInt8) : Except Nat Text := decodeFrom 0 bytes

end TemplateTree.Utf8
