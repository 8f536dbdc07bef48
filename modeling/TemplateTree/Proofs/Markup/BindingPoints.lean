import TemplateTree.Proofs.Attribute.First
import TemplateTree.Proofs.Markup.Unmarked
import TemplateTree.Proofs.Token.Hidden
import TemplateTree.Proofs.Token.Names
import TemplateTree.View.Query

/-! The binding points of a document are the start tags of its source that carry a binding key. None is
lost, none is added, and they keep their order. -/
namespace TemplateTree

open Text

variable {decode : Bool} {config : Config} {input x y : Text} {m : Markup} {o : Nat} {tok : Token}
  {before after ts us : List Token}

namespace Token

def startTag? : Token → Option StartTag
  | start t => some t
  | _ => none

/-- The start tags among the tokens, in order. -/
def startTags (ts : List Token) : List StartTag := ts.filterMap startTag?

/-- The start tags that carry a binding key: how the node of each begins, and its attributes. -/
def points (decode : Bool) (ts : List Token) : List (Text × List (AttrKey × Option Text)) :=
  ((startTags ts).filter StartTag.isBound).map fun t =>
    ('<' :: t.name, Attributes.firstOfEach (t.entries decode))

theorem mem_startTags {t : StartTag} : t ∈ startTags ts ↔ start t ∈ ts := by
  rw [startTags, List.mem_filterMap]
  constructor
  · rintro ⟨tok, htok, hs⟩
    cases tok with
    | start u =>
      obtain rfl := Option.some.inj hs
      exact htok
    | raw | stop => cases hs
  · exact fun h => ⟨_, h, rfl⟩

theorem points_append (ts us : List Token) :
    points decode (ts ++ us) = points decode ts ++ points decode us := by
  simp only [points, startTags, List.filterMap_append, List.filter_append, List.map_append]

theorem points_start (t : StartTag) : points decode [start t] =
    if t.isBound then [('<' :: t.name, Attributes.firstOfEach (t.entries decode))] else [] := by
  cases hb : t.isBound <;> simp [points, startTags, startTag?, hb]

theorem points_of_ne_start (h : ∀ t, tok ≠ start t) : points decode [tok] = [] := by
  cases tok with
  | start t => exact absurd rfl (h t)
  | raw | stop => rfl

theorem points_ofBody (o : Nat) (body : Text) : points decode (ofBody o body) = [] := by
  by_cases hb : body = []
  · rw [ofBody, if_pos hb]
    rfl
  · rw [ofBody, if_neg hb]
    rfl

theorem points_of_unbound (h : ∀ t, start t ∈ ts → t.isBound = false) : points decode ts = [] := by
  have hnone : (startTags ts).filter StartTag.isBound = [] := by
    refine List.filter_eq_nil_iff.mpr (fun t ht => ?_)
    simp [h t (mem_startTags.mp ht)]
  rw [points, hnone]
  rfl

/-- Where the tokens stand does not matter. -/
theorem points_moveTo (ts : List Token) : points decode (ts.map (moveTo o)) = points decode ts := by
  induction ts with
  | nil => rfl
  | cons tok ts ih =>
    have hone : points decode [tok.moveTo o] = points decode [tok] := by
      cases tok with
      | start t =>
        rw [moveTo, points_start, points_start]
        rfl
      | raw | stop => rfl
    rw [List.map_cons, ← List.singleton_append, points_append, hone, ih, ← points_append]
    rfl

theorem points_scanFrom (o : Nat) (s : Text) :
    points decode (scanFrom o s) = points decode (scan s) := by
  rw [← points_moveTo (o := 0), map_moveTo_scanFrom o 0, points_moveTo]
  rfl

/-- The points of a text are those of its first token and those behind it. -/
theorem points_next (hx : x ≠ []) (h : next o x = (tok, y)) :
    points decode (scan x) = points decode [tok] ++ points decode (scan (tok.afterBody y)) := by
  have hwords := congrArg (points decode) (words_next hx h)
  rw [words, words, points_moveTo, ← List.singleton_append, points_append, points_append,
    points_ofBody, points_moveTo, List.nil_append] at hwords
  rw [hwords, ← List.map_singleton, points_moveTo]

/-- Nothing is found in what hides its content. -/
theorem Hides.points (h : Hides x y) : points decode (scan x) = Token.points decode (scan y) := by
  have hx : x ≠ [] := by cases h <;> simp
  obtain ⟨tok, hnext, hne⟩ := h.next 0
  have hafter : tok.afterBody y = y := by
    cases tok with
    | start t => exact absurd rfl (hne t)
    | raw | stop => rfl
  rw [points_next hx hnext, points_of_ne_start hne, hafter, List.nil_append]

/-- The points behind a token are those of the text behind its body. -/
theorem points_behind (h : scan input = before ++ tok :: after) :
    points decode after = points decode (scan (tok.afterBody (sources after))) := by
  obtain ⟨p, q, hafter⟩ := scanFrom_behind h
  rw [← points_scanFrom q]
  conv => lhs; rw [hafter]
  rw [points_append, points_ofBody, List.nil_append]

/-- A cut between tokens, not right before the body of a script or a style. -/
theorem points_cut (h : scan input = before ++ after)
    (hplain : ∀ t, before.getLast? = some (start t) → t.isOpaque = false) :
    points decode after = points decode (scan (sources after)) := by
  rcases List.eq_nil_or_concat before with rfl | ⟨init, tok, rfl⟩
  · have hsources : sources after = input := by rw [← sources_scan input, h, List.nil_append]
    rw [hsources, h, List.nil_append]
  · have hbody : tok.afterBody (sources after) = sources after := by
      cases tok with
      | start t => simp [afterBody, hplain t (by simp)]
      | raw | stop => rfl
    have hsplit : scan input = init ++ tok :: after := h.trans (by simp)
    rw [points_behind hsplit, hbody]

/-- What hides its content at a cut adds no point. -/
theorem points_hidden (h : scan input = before ++ after)
    (hplain : ∀ t, before.getLast? = some (start t) → t.isOpaque = false)
    (hhides : Hides (sources after) y) :
    points decode (scan input) = points decode before ++ points decode (scan y) := by
  rw [← hhides.points, ← points_cut h hplain, ← points_append, ← h]

/-- The body of a script or a style adds no point. -/
theorem points_opaque {t : StartTag} (h : scan input = before ++ start t :: after)
    (ht : t.isOpaque = true) : points decode (scan input) = points decode (before ++ [start t]) ++
      points decode (scan (onward (StartTag.closesBody t.key) (sources after))) := by
  have hrest : (start t).afterBody (sources after) =
      onward (StartTag.closesBody t.key) (sources after) := if_pos ht
  rw [← hrest, ← points_behind h, ← points_append, h, List.append_assoc, List.singleton_append]

end Token

namespace Markup

/-- How the labels that carry a binding key begin, and their attributes. -/
def points (ls : List Label) : List (Text × List (AttrKey × Option Text)) :=
  (ls.filter (·.attributes.hasBinding)).map fun l => (l.content, l.attributes.entries)

theorem points_append (ks ls : List Label) : points (ks ++ ls) = points ks ++ points ls := by
  simp only [points, List.filter_append, List.map_append]

theorem points_singleton (l : Label) : points [l] =
    if l.attributes.hasBinding then [(l.content, l.attributes.entries)] else [] := by
  cases hb : l.attributes.hasBinding <;> simp [points, hb]

theorem points_leaf (source : Text) : points [Label.leaf source] = [] := rfl

theorem points_addText (merge : Bool) (source : Text) (m : Markup) :
    points (m.addText merge source).forest.preorder = points m.forest.preorder := by
  cases m with
  | nil => rfl
  | text s rest => cases merge <;> rfl
  | element tag inner rest => rfl

/-- The nodes of an element: its own, its parts, and those inside and behind it. -/
theorem points_element (tag : Tag) (inner rest : Markup) :
    points (element tag inner rest).forest.preorder =
      points [⟨'<' :: tag.name, tag.attributes⟩] ++
        (points inner.forest.preorder ++ points rest.forest.preorder) := by
  have hcloser : points (if tag.isVoid then Forest.nil
      else .cons (Label.leaf (closer tag.name)) .nil .nil).preorder = [] := by
    split <;> rfl
  rw [forest, Forest.preorder, Forest.preorder, ← List.singleton_append, points_append,
    points_append, ← List.singleton_append (x := Label.leaf tag.slot), points_append, points_append,
    hcloser, points_leaf, List.nil_append, List.append_nil]

theorem points_start (decode : Bool) (t : StartTag) :
    points [⟨'<' :: (Tag.ofStart decode t).name, (Tag.ofStart decode t).attributes⟩] =
      Token.points decode [.start t] := by
  rw [points_singleton, Token.points_start, Tag.hasBinding_ofStart, Tag.entries_ofStart]
  rfl

/-- Reading in order, the binding points of the elements are those of the tokens. -/
theorem points_ofElements (config : Config) (es : Elements) :
    points (ofElements config es).forest.preorder = Token.points config.decode es.tokens := by
  induction es with
  | nil => rfl
  | raw o s rest ih | stray t rest ih =>
    rw [ofElements, points_addText, ih]
    rfl
  | element t inner close rest ihi ihr =>
    have hclose : Token.points config.decode (close.map Token.stop).toList = [] := by
      cases close <;> rfl
    have htokens : Token.points config.decode (Elements.element t inner close rest).tokens =
        Token.points config.decode [.start t] ++ (Token.points config.decode inner.tokens ++
          Token.points config.decode rest.tokens) := by
      rw [Elements.tokens, ← List.singleton_append, Token.points_append, Token.points_append,
        Token.points_append, hclose, List.append_nil]
    rw [htokens, ofElements]
    cases hb : (t.isBound || inner.isBound) with
    | true => rw [if_pos rfl, points_element, ihi, ihr, points_start]
    | false =>
      obtain ⟨ht, hinner⟩ := Bool.or_eq_false_iff.mp hb
      have hnone : Token.points config.decode inner.tokens = [] := by
        refine Token.points_of_unbound (fun u hu => ?_)
        rw [Elements.isBound_eq_any, List.any_eq_false] at hinner
        simpa [Token.isBound] using hinner _ hu
      have hself : Token.points config.decode [.start t] = [] :=
        Token.points_of_unbound (fun u hu => by
          obtain rfl := Token.start.inj (List.mem_singleton.mp hu)
          exact ht)
      rw [if_neg (by simp), points_addText, ihr, hnone, hself]
      rfl

/-- The names of all scopes in a forest, in order. -/
theorem names_find (f : Forest Occurrence) :
    (Scope.find f).roots.map (·.name) = f.preorder.filterMap (·.attribute? .scope) := by
  induction f with
  | nil => rfl
  | cons o kids rest ihk ihr =>
    rw [Scope.find, Forest.preorder, List.filterMap_cons, List.filterMap_append, ← ihk, ← ihr]
    cases o.attribute? .scope <;> simp [Forest.roots, Forest.roots_append]

/-- What a binding key is given, point by point. -/
theorem filterMap_points {key : AttrKey} (hk : key.isBinding = true) (ls : List Label) :
    (points ls).filterMap (fun p => (p.2.lookup key).map (·.getD [])) =
      ls.filterMap (·.attributes.get? key) := by
  rw [points, List.filterMap_map, List.filterMap_filter]
  refine List.filterMap_congr (fun l _ => ?_)
  cases hb : l.attributes.hasBinding with
  | true => rfl
  | false => exact (Attributes.get?_of_not_hasBinding hb hk).symm

theorem filterMap_tokenPoints {key : AttrKey} (hk : key.isBinding = true) (ts : List Token) :
    (Token.points decode ts).filterMap (fun p => (p.2.lookup key).map (·.getD [])) =
      (Token.startTags ts).filterMap (·.value? decode key) := by
  rw [Token.points, List.filterMap_map, List.filterMap_filter]
  refine List.filterMap_congr (fun t _ => ?_)
  cases hb : t.isBound with
  | true => simp [StartTag.value?, Attributes.lookup_firstOfEach]
  | false => exact (StartTag.value?_of_unbound hb decode hk).symm

/-- The nodes that carry a binding key are the start tags that do, each with the first attribute of
every key, and the scopes are named by them. A start tag takes up a stretch of the source, with the
values of its attributes; whatever else hides its content hides it from the parser too. -/
theorem points_parse (h : parse config input = .ok m) (s : Store) :
    let v := (s.plantView m.forest).1
    let t := (s.plantView m.forest).2
    let ts := Token.scan input
    points ((t.forest v.list).preorder.map (·.node.label)) = Token.points config.decode ts ∧
    (v.scopes t).roots.map (·.name) =
      (Token.startTags ts).filterMap (·.value? config.decode .scope) ∧
    (∀ before tok after, ts = before ++ tok :: after →
      input = Token.sources before ++ (tok.source ++ Token.sources after) ∧
        tok.offset = byteSize (Token.sources before)) ∧
    (∀ tag ∈ Token.startTags ts, ∀ name value, (name, some value) ∈ tag.attributes →
      value <:+: tag.tail) ∧
    (∀ before after behind, ts = before ++ after →
      (∀ tag, before.getLast? = some (.start tag) → tag.isOpaque = false) →
      Token.Hides (Token.sources after) behind → Token.points config.decode ts =
        Token.points config.decode before ++ Token.points config.decode (Token.scan behind)) ∧
    ∀ before tag after, ts = before ++ .start tag :: after → tag.isOpaque = true →
      Token.points config.decode ts = Token.points config.decode (before ++ [.start tag]) ++
        Token.points config.decode
          (Token.scan (onward (StartTag.closesBody tag.key) (Token.sources after))) := by
  intro v t ts
  obtain ⟨-, -, rfl⟩ := parse_eq_ok_iff.mp h
  have hlabels : (t.forest v.list).preorder.map (·.node.label) =
      (ofElements config (Elements.ofTokens ts)).forest.preorder := by
    rw [← Forest.preorder_map]
    exact congrArg Forest.preorder (s.labels_plantView _)
  have hpoints : points ((t.forest v.list).preorder.map (·.node.label)) =
      Token.points config.decode ts := by
    rw [hlabels, points_ofElements, Elements.tokens_ofTokens]
  refine ⟨hpoints, ?_, fun before tok after hcut => Token.scan_split hcut, ?_, ?_, ?_⟩
  · have hscope : AttrKey.scope.isBinding = true := rfl
    rw [← filterMap_tokenPoints hscope, ← hpoints, filterMap_points hscope, List.filterMap_map]
    exact names_find _
  · intro tag htag name value hvalue
    exact StartTag.value_infix (Token.mem_startTags.mp htag) hvalue
  · exact fun before after behind => Token.points_hidden
  · exact fun before tag after => Token.points_opaque

/-- A tag that repeats a key, one in a comment, one in the body of a script, and one in a value. -/
theorem points_parse_hidden :
    let input : Text := ("<p data-scope=a Data-Scope=b><!--<i data-prop=x>-->" ++
      "<script><i partial></script><hr partial='<b container=c>'>").toList
    ∃ m, parse {} input = .ok m ∧
    let v := (Store.empty.plantView m.forest).1
    let t := (Store.empty.plantView m.forest).2
    points ((t.forest v.list).preorder.map (·.node.label)) =
      [("<p".toList, [(.scope, some "a".toList)]),
        ("<hr".toList, [(.fragment, some "<b container=c>".toList)])] ∧
    (v.scopes t).roots.map (·.name) = ["a".toList] := by
  intro input
  have hcut : cutOff? (Token.scan input) = none := by decide +kernel
  have hdeep : (Elements.ofTokens (Token.scan input)).tooDeep? 512 = none := by decide +kernel
  have hparse : parse {} input = .ok (ofElements {} (Elements.ofTokens (Token.scan input))) :=
    parse_eq_ok_iff.mpr ⟨hcut, hdeep, rfl⟩
  obtain ⟨hpoints, hnames, -⟩ := points_parse hparse Store.empty
  refine ⟨_, hparse, hpoints.trans ?_, hnames.trans ?_⟩
  · decide +kernel
  · decide +kernel

end Markup
end TemplateTree
