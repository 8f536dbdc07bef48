/-!
Text as a list of characters, the ASCII classes that markup is made of, and the cut of a text at
the first place where something begins. A cut loses nothing: `upTo_append_onward`.
-/
namespace TemplateTree

/-- Text is kept as its characters; positions are counted in bytes of UTF-8. -/
abbrev Text := List Char

namespace Text

/-- The number of bytes of the text in UTF-8. -/
def byteSize : Text → Nat
  | [] => 0
  | c :: r => c.utf8Size + byteSize r

/-- ASCII capitals become small letters; every other character stays. -/
def lower (t : Text) : Text := t.map Char.toLower

/-- The decimal numeral of a number. -/
def ofNat (n : Nat) : Text := (Nat.repr n).toList

/-- The blanks between the parts of a tag. A vertical tab is not one of them. -/
def isTagBlank (c : Char) : Bool :=
  c == ' ' || c == '\t' || c == '\n' || c == '\x0c' || c == '\r'

def isNameChar (c : Char) : Bool :=
  c.isAlphanum || c == '-' || c == '_' || c == ':'

/-- Attribute names also take the marks that template languages put in front of them. -/
def isAttributeChar (c : Char) : Bool :=
  isNameChar c || c == '@' || c == '.'

/-- What stands before the first place where `here` holds: the whole text when there is none. -/
def upTo (here : Text → Bool) : Text → Text
  | [] => []
  | c :: r => if here (c :: r) then [] else c :: upTo here r

/-- What stands from the first place where `here` holds: nothing when there is none. -/
def onward (here : Text → Bool) : Text → Text
  | [] => []
  | c :: r => if here (c :: r) then c :: r else onward here r

/-- The place where a given word begins. -/
def starts (word : Text) (t : Text) : Bool := word.isPrefixOf t

/-- The text through the end of the first `word`, or all of it. -/
def through (word t : Text) : Text :=
  upTo (starts word) t ++ (onward (starts word) t).take word.length

/-- The text after the end of the first `word`. -/
def beyond (word t : Text) : Text :=
  (onward (starts word) t).drop word.length

theorem byteSize_append (a b : Text) : byteSize (a ++ b) = byteSize a + byteSize b := by
  induction a with
  | nil => simp [byteSize]
  | cons c r ih => simp [byteSize, ih, Nat.add_assoc]

theorem upTo_append_onward (here : Text → Bool) (t : Text) : upTo here t ++ onward here t = t := by
  induction t with
  | nil => rfl
  | cons c r ih => by_cases h : here (c :: r) <;> simp [upTo, onward, h, ih]

theorem through_append_beyond (word t : Text) : through word t ++ beyond word t = t := by
  simp [through, beyond, upTo_append_onward]

theorem length_beyond_le (word t : Text) : (beyond word t).length ≤ t.length := by
  have h := congrArg List.length (through_append_beyond word t)
  rw [List.length_append] at h
  omega

theorem length_dropWhile_le (p : Char → Bool) (t : Text) : (t.dropWhile p).length ≤ t.length :=
  (List.dropWhile_sublist p).length_le

/-- The cut stands where `here` holds, or at the end. -/
theorem onward_holds {here : Text → Bool} {t : Text} (h : onward here t ≠ []) :
    here (onward here t) = true := by
  induction t with
  | nil => simp [onward] at h
  | cons c r ih =>
    by_cases hc : here (c :: r)
    · simp [onward, hc]
    · simp only [onward, hc, Bool.false_eq_true, if_false] at h ⊢
      exact ih h

end Text
end TemplateTree
