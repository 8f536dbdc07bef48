import TemplateTree.Token.Basic

/-!
Reading markup as tokens. Nothing is rejected: what does not look like markup is text, and what is
cut off runs to the end of the input.
-/
namespace TemplateTree

open Text

/-- What stands at the head of some input. -/
inductive Lead
  | text
  | comment
  | declaration
  | endTag
  | startTag
  deriving DecidableEq, Repr

/-- A `<` that is not followed by a letter, `!`, `?` or `/` and a letter is text. -/
def Lead.of : Text → Lead
  | '<' :: '!' :: '-' :: '-' :: _ => .comment
  | '<' :: '!' :: _ => .declaration
  | '<' :: '?' :: _ => .declaration
  | '<' :: '/' :: c :: _ => if c.isAlpha then .endTag else .text
  | '<' :: c :: _ => if c.isAlpha then .startTag else .text
  | _ => .text

def opensMarkup (s : Text) : Bool := Lead.of s != .text

namespace StartTag

/-- The value after an attribute's name, with the source it was read from. -/
structure Assigned where
  source : Text
  value : Option Text
  rest : Text

/-- The place where a value without quotes ends. -/
def endsBareValue : Text → Bool
  | '/' :: '>' :: _ => true
  | c :: _ => isTagBlank c || c == '>'
  | [] => true

/-- A value in quotes runs to the same quote, or to the end of the input. -/
def quoted (quote : Char) (before s : Text) : Assigned where
  source := before ++ quote :: through [quote] s
  value := some (upTo (starts [quote]) s)
  rest := beyond [quote] s

def bareValue (before s : Text) : Assigned where
  source := before ++ upTo endsBareValue s
  value := some (upTo endsBareValue s)
  rest := onward endsBareValue s

/-- Reads `= value`, or nothing when no `=` follows. -/
def assigned (s : Text) : Assigned :=
  match s.dropWhile isTagBlank with
  | '=' :: r =>
    let before := s.takeWhile isTagBlank ++ '=' :: r.takeWhile isTagBlank
    match r.dropWhile isTagBlank with
    | '"' :: v => quoted '"' before v
    | '\'' :: v => quoted '\'' before v
    | v => bareValue before v
  | _ => ⟨[], none, s⟩

theorem source_append_rest_assigned (s : Text) : (assigned s).source ++ (assigned s).rest = s := by
  have gap (t : Text) := List.takeWhile_append_dropWhile (p := isTagBlank) (l := t)
  unfold assigned
  split
  · next r hr =>
    have hs : s = s.takeWhile isTagBlank ++ '=' :: (r.takeWhile isTagBlank ++ r.dropWhile isTagBlank) := by
      rw [gap, ← hr, gap]
    split
    · next v hv => rw [hv] at hs; simp [quoted, through_append_beyond, ← hs]
    · next v hv => rw [hv] at hs; simp [quoted, through_append_beyond, ← hs]
    · rw [gap] at hs
      simp [bareValue, upTo_append_onward, ← hs]
  · simp

theorem length_rest_assigned_le (s : Text) : (assigned s).rest.length ≤ s.length := by
  have h := congrArg List.length (source_append_rest_assigned s)
  rw [List.length_append] at h
  omega

/-- The part of a start tag after its name. -/
structure Tail where
  source : Text
  attributes : List (Text × Option Text)
  ending : TagEnd
  rest : Text

/-- Reads attributes up to the end of the tag. A character that can begin neither an attribute nor
the end of the tag is stepped over. -/
def tailOf (s : Text) : Tail :=
  match s with
  | [] => ⟨[], [], .missing, []⟩
  | '>' :: r => ⟨['>'], [], .closed, r⟩
  | '/' :: '>' :: r => ⟨['/', '>'], [], .selfClosed, r⟩
  | c :: r =>
    if isAttributeChar c then
      let name := c :: r.takeWhile isAttributeChar
      let given := assigned (r.dropWhile isAttributeChar)
      let later := tailOf given.rest
      { later with
        source := name ++ (given.source ++ later.source)
        attributes := (name, given.value) :: later.attributes }
    else
      let later := tailOf r
      { later with source := c :: later.source }
termination_by s.length
decreasing_by
  · have := length_rest_assigned_le (r.dropWhile isAttributeChar)
    have := length_dropWhile_le isAttributeChar r
    rw [List.length_cons]
    omega
  · rw [List.length_cons]
    omega

theorem source_append_rest_tailOf (s : Text) : (tailOf s).source ++ (tailOf s).rest = s := by
  fun_induction tailOf s with
  | case1 => rfl
  | case2 => rfl
  | case3 => rfl
  | case4 c r _ _ hc name given later ih =>
    simp only [name, given, List.append_assoc, List.cons_append] at ih ⊢
    rw [ih, source_append_rest_assigned, List.takeWhile_append_dropWhile]
  | case5 c r _ _ hc later ih => exact congrArg (c :: ·) ih

/-- True where the end tag of an opaque body stands. -/
def closesBody (key : Text) : Text → Bool
  | '<' :: '/' :: r =>
    lower (r.take key.length) == key && ((r.drop key.length).dropWhile isTagBlank).head? == some '>'
  | _ => false

end StartTag

namespace Token

/-- The body that follows a token without being markup. -/
def body : Token → Text → Text
  | start t, s => if t.isOpaque then upTo (StartTag.closesBody t.key) s else []
  | _, _ => []

/-- The input after that body. -/
def afterBody : Token → Text → Text
  | start t, s => if t.isOpaque then onward (StartTag.closesBody t.key) s else s
  | _, s => s

/-- The first token of the input and the input after it. -/
def next (offset : Nat) (s : Text) : Token × Text :=
  match Lead.of s with
  | .text => (raw offset (upTo opensMarkup s), onward opensMarkup s)
  | .comment =>
    let r := s.drop 4
    (raw offset (s.take 4 ++ through "-->".toList r), beyond "-->".toList r)
  | .declaration => (raw offset (through ">".toList s), beyond ">".toList s)
  | .endTag =>
    let r := s.drop 2
    let after := r.dropWhile isNameChar
    (stop ⟨offset, r.takeWhile isNameChar, through ">".toList after⟩, beyond ">".toList after)
  | .startTag =>
    let r := s.drop 1
    let tail := StartTag.tailOf (r.dropWhile isNameChar)
    (start ⟨offset, r.takeWhile isNameChar, tail.source, tail.attributes, tail.ending⟩, tail.rest)

theorem body_append_afterBody (t : Token) (s : Text) : t.body s ++ t.afterBody s = s := by
  cases t with
  | start t => by_cases h : t.isOpaque <;> simp [body, afterBody, h, upTo_append_onward]
  | raw => rfl
  | stop => rfl

end Token

namespace Lead

variable {s : Text}

theorem eq_of_comment (h : Lead.of s = .comment) : s = '<' :: '!' :: '-' :: '-' :: s.drop 4 := by
  unfold Lead.of at h
  split at h <;> grind

theorem eq_of_endTag (h : Lead.of s = .endTag) : s = '<' :: '/' :: s.drop 2 := by
  unfold Lead.of at h
  split at h <;> grind

theorem eq_of_startTag (h : Lead.of s = .startTag) : s = '<' :: s.drop 1 := by
  unfold Lead.of at h
  split at h <;> grind

theorem eq_of_ne_text (h : Lead.of s ≠ .text) : s = '<' :: s.drop 1 := by
  unfold Lead.of at h
  split at h <;> grind

end Lead

namespace Token

theorem source_append_next (offset : Nat) (s : Text) :
    (next offset s).1.source ++ (next offset s).2 = s := by
  unfold next
  split
  · simp [source, upTo_append_onward]
  · simp [source, through_append_beyond]
  · simp [source, through_append_beyond]
  · next h =>
    rw [Lead.eq_of_endTag h]
    simp [source, EndTag.source, through_append_beyond]
  · next h =>
    rw [Lead.eq_of_startTag h]
    simp [source, StartTag.source, StartTag.source_append_rest_tailOf]

theorem source_next_ne_nil (offset : Nat) (s : Text) (h : s ≠ []) :
    (next offset s).1.source ≠ [] := by
  unfold next
  split
  · next hl =>
    cases s with
    | nil => exact absurd rfl h
    | cons c r => simp [source, upTo, opensMarkup, hl]
  · next hl =>
    rw [Lead.eq_of_comment hl]
    simp [source]
  · next hl =>
    rw [Lead.eq_of_ne_text (s := s) (by rw [hl]; decide)]
    simp [source, through, upTo, starts]
  · simp [source, EndTag.source]
  · simp [source, StartTag.source]

theorem length_next_lt (offset : Nat) (s : Text) (h : s ≠ []) :
    ((next offset s).1.afterBody (next offset s).2).length < s.length := by
  have whole := congrArg List.length (source_append_next offset s)
  have after := congrArg List.length (body_append_afterBody (next offset s).1 (next offset s).2)
  have some := List.length_pos_iff.2 (source_next_ne_nil offset s h)
  rw [List.length_append] at whole after
  omega

/-- A token for an opaque body, unless it is empty. -/
def ofBody (offset : Nat) (body : Text) : List Token :=
  if body = [] then [] else [raw offset body]

/-- All tokens of the input `s`, which begins at byte `offset`. -/
def scanFrom (offset : Nat) (s : Text) : List Token :=
  if s = [] then []
  else
    let first := (next offset s).1
    let after := (next offset s).2
    let bodyAt := offset + byteSize first.source
    let body := first.body after
    first :: (ofBody bodyAt body ++ scanFrom (bodyAt + byteSize body) (first.afterBody after))
termination_by s.length
decreasing_by exact length_next_lt offset s ‹_›

/-- All tokens of the input, in order. -/
def scan (s : Text) : List Token := scanFrom 0 s

/-- No character of the input is lost. -/
theorem sources_scanFrom (offset : Nat) (s : Text) : sources (scanFrom offset s) = s := by
  fun_induction scanFrom offset s with
  | case1 => rfl
  | case2 offset s h first after bodyAt body ih =>
    have hb : sources (ofBody bodyAt body) = body := by
      by_cases hb : body = [] <;> simp [ofBody, hb, sources, source]
    simp only [sources] at ih hb ⊢
    rw [List.flatMap_cons, List.flatMap_append, ih, hb, body_append_afterBody, source_append_next]

theorem sources_scan (s : Text) : sources (scan s) = s := sources_scanFrom 0 s

end Token
end TemplateTree
