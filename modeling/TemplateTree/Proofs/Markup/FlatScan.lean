import TemplateTree.Proofs.Elements.Rows

/-! A document that nobody edited is written by one pass over its tokens, with a stack of the open
elements and no tree. -/
namespace TemplateTree

def Token.isBound : Token → Bool
  | .start t => t.isBound
  | _ => false

namespace FlatScan

open Elements (Frame Nesting)

variable {decode : Bool} {config : Config} {e : EndTag} {t : StartTag} {ts : List Token}

/-- The names of the open elements, innermost first, after a token. An end tag closes the innermost
element of its name and all that were opened after it. -/
def pass (names : List Text) : Token → List Text
  | .raw .. => names
  | .start t => if t.opens then t.key :: names else names
  | .stop e => if e.key ∈ names then (names.dropWhile (· ≠ e.key)).tail else names

/-- True when a bound tag comes while more than `height` elements are open. -/
def boundAbove (height : Nat) (names : List Text) : List Token → Bool
  | [] => false
  | t :: ts => decide (height < names.length) && (t.isBound || boundAbove height (pass names t) ts)

/-- True when the start tag, or the tag of an element inside its element, is bound. -/
def bindsFrom (names : List Text) (t : StartTag) (ts : List Token) : Bool :=
  t.isBound || (t.opens && boundAbove names.length (t.key :: names) ts)

/-- An attribute as it stands behind a space. -/
def pair (decode : Bool) (key : AttrKey) : Option Text → Text
  | none => key.markupName
  | some v => key.markupName ++ "=\"".toList ++
      Reference.escape (if decode then Reference.decode v else v) ++ ['"']

/-- The attributes of a tag, each key once and by its canonical name. -/
def attributes (decode : Bool) (seen : List AttrKey) : List (Text × Option Text) → Text
  | [] => []
  | (name, value) :: r =>
    if AttrKey.ofName name ∈ seen then attributes decode seen r
    else ' ' :: pair decode (AttrKey.ofName name) value ++
      attributes decode (AttrKey.ofName name :: seen) r

/-- A start tag written anew. An element that cannot hold anything is closed at once. -/
def opening (decode : Bool) (t : StartTag) : Text :=
  let selfClosed := t.ending == .selfClosed
  '<' :: t.name ++ attributes decode [] t.attributes ++
    (if t.isVoid && selfClosed then "/>".toList else ">".toList) ++
    (if !t.isVoid && selfClosed then Markup.closer t.name else [])

/-- An open element, and whether it is written anew. -/
structure Open where
  tag : StartTag
  bound : Bool

def names (os : List Open) : List Text := os.map (·.tag.key)

def closers (os : List Open) : Text :=
  os.flatMap fun o => if o.bound then Markup.closer o.tag.name else []

/-- Writes the tokens from left to right. An end tag that matches first closes what was opened inside
its element, and the end of the input closes all that is open. -/
def write (decode : Bool) (os : List Open) : List Token → Text
  | [] => closers os
  | .raw _ s :: ts => s ++ write decode os ts
  | .start t :: ts =>
    let bound := bindsFrom (names os) t ts
    (if bound then opening decode t else t.source) ++
      write decode (if t.opens then ⟨t, bound⟩ :: os else os) ts
  | .stop e :: ts =>
    match os.dropWhile (·.tag.key ≠ e.key) with
    | [] => e.source ++ write decode os ts
    | o :: outside =>
      closers (os.takeWhile (·.tag.key ≠ e.key)) ++
        (if o.bound then Markup.closer o.tag.name else e.source) ++ write decode outside ts

theorem boundAbove_of_le {height : Nat} {ns : List Text} (h : ns.length ≤ height) :
    boundAbove height ns ts = false := by
  cases ts with
  | nil => rfl
  | cons t ts => simp [boundAbove, Nat.not_lt.mpr h]

theorem boundAbove_cons {height : Nat} {ns : List Text} (h : height < ns.length) (t : Token) :
    boundAbove height ns (t :: ts) = (t.isBound || boundAbove height (pass ns t) ts) := by
  simp [boundAbove, h]

theorem boundAbove_mono {low high : Nat} (hle : low ≤ high) {ns : List Text}
    (h : boundAbove high ns ts = true) : boundAbove low ns ts = true := by
  induction ts generalizing ns with
  | nil => exact h
  | cons t ts ih =>
    simp only [boundAbove, Bool.and_eq_true, decide_eq_true_iff, Bool.or_eq_true] at h ⊢
    refine ⟨by omega, ?_⟩
    rcases h.2 with ht | ht
    · exact Or.inl ht
    · exact Or.inr (ih ht)

theorem pass_stop_self (ns : List Text) (e : EndTag) : pass (e.key :: ns) (.stop e) = ns := by
  simp [pass]

theorem pass_stop_of_ne {k : Text} {ns : List Text} (hk : k ≠ e.key) (h : e.key ∈ ns) :
    pass (k :: ns) (.stop e) = pass ns (.stop e) := by
  simp [pass, hk, h]

theorem length_pass_stop_lt {ns : List Text} (h : e.key ∈ ns) :
    (pass ns (.stop e)).length < ns.length := by
  have hle := (List.dropWhile_sublist (l := ns) (· ≠ e.key)).length_le
  have hpos := List.length_pos_of_mem h
  simp only [pass, h, if_true, List.length_tail]
  omega

/-- Takes one more attribute of a tag as the parser does. -/
def readPair (decode : Bool) (a : Attributes) (written : Text × Option Text) : Attributes :=
  a.insertNew (AttrKey.ofName written.1)
    (written.2.map fun v => if decode then Reference.decode v else v)

/-- Attributes that are read one after the other are written as the pass writes them. -/
theorem render_foldl_readPair (pairs : List (Text × Option Text)) (a : Attributes)
    (seen : List AttrKey) (h : ∀ k, k ∈ seen ↔ k ∈ a.keys) :
    (pairs.foldl (readPair decode) a).render = a.render ++ attributes decode seen pairs := by
  induction pairs generalizing a seen with
  | nil => simp [attributes]
  | cons written r ih =>
    obtain ⟨name, value⟩ := written
    rw [List.foldl_cons, attributes]
    by_cases hk : AttrKey.ofName name ∈ seen
    · have hsame : readPair decode a (name, value) = a := dif_pos ((h _).mp hk)
      rw [hsame, ih a seen h, if_pos hk]
    · have habsent : AttrKey.ofName name ∉ a.entries.map Prod.fst := fun hx => hk ((h _).mpr hx)
      have hnew : (readPair decode a (name, value)).entries = a.entries ++
          [(AttrKey.ofName name, value.map fun v => if decode then Reference.decode v else v)] := by
        simp [readPair, Attributes.insertNew, habsent]
      have hseen : ∀ k, k ∈ AttrKey.ofName name :: seen ↔
          k ∈ (readPair decode a (name, value)).keys := by
        intro k
        rw [Attributes.keys, hnew, List.map_append, List.mem_append, List.mem_cons, h k]
        simp [Attributes.keys, or_comm]
      rw [ih _ _ hseen, if_neg hk, Attributes.render, Attributes.render, hnew, List.flatMap_append]
      cases value <;> simp [Attributes.renderEntry, pair]

theorem render_attributes_ofStart (decode : Bool) (t : StartTag) :
    (Tag.ofStart decode t).attributes.render = attributes decode [] t.attributes := by
  refine Eq.trans ?_ (@render_foldl_readPair decode t.attributes ∅ [] (fun _ => Iff.rfl))
  cases decode with
  | true =>
    simp only [Tag.ofStart, Attributes.ofWritten, if_true, List.foldl_map]
    rfl
  | false =>
    have hread : readPair false = fun a w => a.insertNew (AttrKey.ofName w.1) w.2 := by
      funext a w
      simp [readPair]
    rw [hread]
    rfl

/-- An element that was open, as it is written once it is closed. -/
theorem render_closed (ho : t.opens = true) (row : Elements) (close : Option EndTag) :
    (Elements.element t row.reverse close .nil).render config =
      (if t.isBound || row.isBound then opening config.decode t else t.source) ++
        row.reverse.render config ++
        (if t.isBound || row.isBound then Markup.closer t.name
          else (close.map EndTag.source).getD []) := by
  rw [StartTag.opens, Bool.and_eq_true, beq_iff_eq, Bool.not_eq_true'] at ho
  cases hb : (t.isBound || row.isBound) with
  | true =>
    rw [← Elements.isBound_reverse] at hb
    rw [Elements.render_bound hb, render_attributes_ofStart]
    simp [opening, ho, Tag.slot, Tag.ofStart, Elements.render, Markup.ofElements, Markup.forest,
      Forest.render]
  | false =>
    rw [← Elements.isBound_reverse] at hb
    rw [Elements.render_unbound hb, Elements.render_eq_source (Bool.or_eq_false_iff.mp hb).2]
    simp [Elements.render, Markup.ofElements, Markup.forest, Forest.render]

/-- An element that nothing is put into, as it is written. -/
theorem render_single (ho : t.opens = false) (hm : t.isBound = true → t.ending ≠ .missing) :
    (Elements.element t .nil none .nil).render config =
      if t.isBound then opening config.decode t else t.source := by
  have hnil : (Elements.nil).render config = [] := rfl
  cases hb : t.isBound with
  | true =>
    have hbound : (t.isBound || (Elements.nil).isBound) = true := by rw [hb]; rfl
    rw [Elements.render_bound hbound, render_attributes_ofStart, hnil]
    cases hv : t.isVoid with
    | true => cases he : t.ending <;> simp [opening, hv, he, Tag.slot, Tag.ofStart]
    | false =>
      have he : t.ending = .selfClosed := by
        have hne := hm hb
        cases he : t.ending <;> simp_all [StartTag.opens]
      simp [opening, hv, he, Tag.slot, Tag.ofStart]
  | false =>
    have hbound : (t.isBound || (Elements.nil).isBound) = false := by rw [hb]; rfl
    rw [Elements.render_unbound hbound, hnil]
    simp [Elements.source, Elements.sourceThen]

end FlatScan
end TemplateTree
