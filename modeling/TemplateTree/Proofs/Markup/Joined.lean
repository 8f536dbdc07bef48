import TemplateTree.Proofs.Markup.Fixpoint
import TemplateTree.Proofs.Markup.Representation
import TemplateTree.Proofs.Token.Ended

/-! Markup that is read piece by piece. Behind a text that is read to its end nothing is left of the
scanner and of the open elements, so the next text gives the same tokens, the same nesting and the same
rows as by itself. -/
namespace TemplateTree

open Elements (Nesting)

namespace Forest

variable {merge : Bool} {a b : Label} {f g h kids rest : Forest Label}

/-- The second row behind the first one. Where leaves are merged, a last leaf of the first and a first
leaf of the second become one. -/
def joined (merge : Bool) : Forest Label → Forest Label → Forest Label
  | nil, g => g
  | cons a nil nil, cons b nil rest =>
    if merge then cons (Label.leaf (a.content ++ b.content)) nil rest else cons a nil (cons b nil rest)
  | cons a kids rest, g => cons a kids (joined merge rest g)

theorem joined_cons (hne : kids ≠ nil ∨ rest ≠ nil) (a : Label) (g : Forest Label) :
    (cons a kids rest).joined merge g = cons a kids (rest.joined merge g) := by
  cases kids with
  | cons => rfl
  | nil => cases rest with
    | cons => rfl
    | nil => simp at hne

theorem joined_apart (hg : g.Apart) (a : Label) : (cons a nil nil).joined merge g = cons a nil g := by
  cases g with
  | nil => rfl
  | cons b kids rest => cases kids with
    | nil => exact absurd rfl (hg b rest)
    | cons => rfl

theorem joined_false (f g : Forest Label) : f.joined false g = f ++ g := by
  fun_induction joined false f g with
  | case1 => rfl
  | case2 a b rest hmerge => cases hmerge
  | case3 => rfl
  | case4 a kids rest g _ ih => rw [ih, cons_append]

/-- Rows that do not meet in two leaves stay as they are. -/
theorem joined_eq_append (h : merge = false ∨ (∀ front a, f ≠ front ++ cons a nil nil) ∨ g.Apart) :
    f.joined merge g = f ++ g := by
  induction f with
  | nil => rfl
  | cons a kids rest _ ih =>
    by_cases hne : kids ≠ nil ∨ rest ≠ nil
    · have hrest : rest.joined merge g = rest ++ g := by
        refine ih (h.imp_right (Or.imp_left fun hlast front b heq => ?_))
        exact hlast (cons a kids front) b (congrArg (cons a kids) heq)
      rw [joined_cons hne, hrest]
      rfl
    · obtain ⟨rfl, rfl⟩ : kids = nil ∧ rest = nil := by simpa using hne
      rcases h with rfl | hlast | hg
      · exact joined_false _ g
      · exact absurd rfl (hlast nil a)
      · exact joined_apart hg a

theorem joined_leaves (front : Forest Label) (a b : Label) (back : Forest Label) :
    (front ++ cons a nil nil).joined true (cons b nil back) =
      front ++ cons (Label.leaf (a.content ++ b.content)) nil back := by
  induction front with
  | nil => rfl
  | cons c kids rest _ ih =>
    have hne : rest ++ cons a nil nil ≠ nil := by cases rest <;> nofun
    rw [cons_append, joined_cons (Or.inr hne), ih]
    rfl

theorem joined_leaf_assoc (a : Label) (g h : Forest Label) :
    ((cons a nil nil).joined merge g).joined merge h =
      (cons a nil nil).joined merge (g.joined merge h) := by
  cases g with
  | nil => rfl
  | cons b kids rest =>
    by_cases hne : kids ≠ nil ∨ rest ≠ nil
    · cases kids with
      | cons => rfl
      | nil => cases merge <;> simp [joined, joined_cons hne]
    · obtain ⟨rfl, rfl⟩ : kids = nil ∧ rest = nil := by simpa using hne
      cases h with
      | nil => cases merge <;> rfl
      | cons c kids rest => cases kids <;> cases merge <;> simp [joined, Label.leaf]

end Forest

namespace Elements

theorem tokens_append (a b : Elements) : (a ++ b).tokens = a.tokens ++ b.tokens := by
  induction a with
  | nil => rfl
  | raw o s rest ih => rw [raw_append, tokens, tokens, ih, List.cons_append]
  | stray e rest ih => rw [stray_append, tokens, tokens, ih, List.cons_append]
  | element t inner close rest _ ih =>
    simp only [element_append, tokens, ih, List.cons_append, List.append_assoc]

theorem tooDeep?_append (a b : Elements) (room : Nat) :
    (a ++ b).tooDeep? room = (a.tooDeep? room).or (b.tooDeep? room) := by
  induction a with
  | nil => rfl
  | raw o s rest ih => exact ih
  | stray e rest ih => exact ih
  | element t inner close rest _ ih =>
    rw [element_append]
    by_cases hb : (t.isBound || inner.isBound) = true
    · cases room with
      | zero => rw [tooDeep?_full hb, tooDeep?_full hb, Option.some_or]
      | succ below => rw [tooDeep?_bound hb, tooDeep?_bound hb, ih, Option.or_assoc]
    · have hf : (t.isBound || inner.isBound) = false := Bool.eq_false_iff.mpr hb
      rw [tooDeep?_unbound hf, tooDeep?_unbound hf, ih]

/-- Tokens that leave nothing open nest by themselves. -/
theorem ofTokens_append {ts : List Token} (h : (ts.foldl Nesting.push Nesting.start).frames = [])
    (us : List Token) : ofTokens (ts ++ us) = ofTokens ts ++ ofTokens us := by
  have hfit : (ts.foldl Nesting.push Nesting.start).Fit := fit_foldl ts ⟨.nil _, rfl, trivial⟩
  have hdone : (ofTokens ts).unclosed = [] := by
    rw [ofTokens, h]
    exact hfit.done
  obtain ⟨hn, -⟩ := (nested_ofTokens ts).append hdone (nested_ofTokens us)
  have hagain := hn.ofTokens
  rwa [tokens_append, tokens_ofTokens, tokens_ofTokens] at hagain

end Elements
namespace Markup

variable {config : Config} {a b : Text} {ma mb : Markup}

theorem forest_addText (merge : Bool) (source : Text) (m : Markup) :
    (m.addText merge source).forest = (Forest.cons (Label.leaf source) .nil .nil).joined merge m.forest := by
  cases m with
  | nil => rfl
  | text s rest => cases merge <;> rfl
  | element tag inner rest => rfl

theorem forest_ofElements_append (config : Config) (es es' : Elements) :
    (ofElements config (es ++ es')).forest =
      (ofElements config es).forest.joined config.merge (ofElements config es').forest := by
  induction es with
  | nil => rfl
  | raw o s rest ih =>
    rw [Elements.raw_append, ofElements, ofElements, forest_addText, forest_addText, ih,
      Forest.joined_leaf_assoc]
  | stray e rest ih =>
    rw [Elements.stray_append, ofElements, ofElements, forest_addText, forest_addText, ih,
      Forest.joined_leaf_assoc]
  | element t inner close rest _ ih =>
    rw [Elements.element_append, ofElements, ofElements]
    by_cases hb : (t.isBound || inner.isBound) = true
    · rw [if_pos hb, if_pos hb, forest, forest, Forest.joined_cons (by simp), ih]
    · rw [if_neg hb, if_neg hb, forest_addText, forest_addText, ih, Forest.joined_leaf_assoc]

/-- Nothing in the text is still going on where it ends: the last token stops at its own terminator, and
no element is open. -/
structure Closed (input : Text) : Prop where
  ended : ∃ tok, (Token.scan input).getLast? = some tok ∧ tok.isEnded = true
  done : ((Token.scan input).foldl Nesting.push Nesting.start).frames = []

theorem words_append_of_closed (h : a = [] ∨ Closed a) (b : Text) :
    Token.words (a ++ b) = (Token.scan a ++ Token.scan b).map (Token.moveTo 0) ∧
      Elements.ofTokens (Token.scan a ++ Token.scan b) =
        Elements.ofTokens (Token.scan a) ++ Elements.ofTokens (Token.scan b) := by
  rw [List.map_append]
  rcases h with rfl | ⟨⟨tok, hlast, hended⟩, hdone⟩
  · have hnil : Token.scan [] = [] := by rw [Token.scan, Token.scanFrom, if_pos rfl]
    rw [hnil]
    exact ⟨rfl, rfl⟩
  · refine ⟨Token.words_append (p := 0) ?_ ⟨_, hdone⟩ b, Elements.ofTokens_append hdone _⟩
    intro last hmem
    obtain rfl : tok = last := Option.some.inj (hlast.symm.trans hmem)
    exact hended

/-- A bound tag that is cut off in the whole is cut off in one of the parts. -/
theorem cutOff?_append
    (h : Token.words (a ++ b) = (Token.scan a ++ Token.scan b).map (Token.moveTo 0))
    (ha : cutOff? (Token.scan a) = none) (hb : cutOff? (Token.scan b) = none) :
    cutOff? (Token.scan (a ++ b)) = none := by
  refine cutOff?_eq_none fun t ht hbound hmissing => ?_
  have hmem := Token.mem_words ht
  rw [h] at hmem
  obtain ⟨u, hu, hut⟩ := Token.start_of_words hmem
  have hub : (u.moveTo 0).isBound = true := by rwa [hut]
  have hum : (u.moveTo 0).ending = .missing := by rwa [hut]
  rcases List.mem_append.mp hu with hu | hu
  · exact StartTag.ends_of_bound ha hu hub hum
  · exact StartTag.ends_of_bound hb hu hub hum

/-- Texts that are parsed, the first of them to its end, are parsed as one text to the rows of both, one
behind the other. Only two leaves that meet may become one. -/
theorem parse_append (ha : parse config a = .ok ma) (hb : parse config b = .ok mb)
    (hclosed : a = [] ∨ Closed a) (s : Store) : ∃ m, parse config (a ++ b) = .ok m ∧
      let f := (s.plantView ma.forest).2.labels (s.plantView ma.forest).1.list
      let g := (s.plantView mb.forest).2.labels (s.plantView mb.forest).1.list
      let h := (s.plantView m.forest).2.labels (s.plantView m.forest).1.list
      (config.merge = false ∨ (∀ front l, f ≠ front ++ .cons l .nil .nil) ∨ g.Apart → h = f ++ g) ∧
        (config.merge = true → ∀ front l l' back, f = front ++ .cons l .nil .nil →
          g = .cons l' .nil back →
            h = front ++ .cons (Label.leaf (l.content ++ l'.content)) .nil back) := by
  obtain ⟨hcuta, hdeepa, rfl⟩ := parse_eq_ok_iff.mp ha
  obtain ⟨hcutb, hdeepb, rfl⟩ := parse_eq_ok_iff.mp hb
  obtain ⟨hwords, hnest⟩ := words_append_of_closed hclosed b
  have hsame : ofElements config (Elements.ofTokens (Token.scan (a ++ b))) = ofElements config
      (Elements.ofTokens (Token.scan a) ++ Elements.ofTokens (Token.scan b)) := by
    rw [ofElements_congr config hwords, hnest]
  have hdeep : (Elements.ofTokens (Token.scan (a ++ b))).tooDeep? config.maxDepth = none := by
    rw [tooDeep?_eq_none_iff config, hsame, ← tooDeep?_eq_none_iff, Elements.tooDeep?_append, hdeepa,
      hdeepb, Option.none_or]
  refine ⟨_, parse_eq_ok_iff.mpr ⟨cutOff?_append hwords hcuta hcutb, hdeep, hsame⟩, ?_⟩
  intro f g h
  have hjoined : h = f.joined config.merge g := by
    simp only [f, g, h, Store.labels_plantView, forest_ofElements_append]
  rw [hjoined]
  refine ⟨Forest.joined_eq_append, fun hmerge front l l' back hf hg => ?_⟩
  rw [hmerge, hf, hg, Forest.joined_leaves]

/-- A comment at the end of the first text, and a stray end tag at the start of the second. -/
theorem parse_append_stray :
    let a := "<p data-scope=s>x</p><!--c-->".toList
    let b := "</i>y<br data-prop=q>".toList
    ∃ m, parse {} (a ++ b) = .ok m ∧
      ((Store.empty.plantView m.forest).2.labels (Store.empty.plantView m.forest).1.list).roots.map
        Label.content = ["<p", "<!--c--></i>y", "<br"].map String.toList := by
  intro a b
  have ha : parse {} a = .ok (ofElements {} (Elements.ofTokens (Token.scan a))) :=
    parse_eq_ok_iff.mpr ⟨by decide +kernel, by decide +kernel, rfl⟩
  have hb : parse {} b = .ok (ofElements {} (Elements.ofTokens (Token.scan b))) :=
    parse_eq_ok_iff.mpr ⟨by decide +kernel, by decide +kernel, rfl⟩
  have hclosed : Closed a :=
    ⟨⟨.raw 21 "<!--c-->".toList, by decide +kernel, by decide +kernel⟩, by decide +kernel⟩
  obtain ⟨m, hm, -, hmeet⟩ := parse_append ha hb (Or.inr hclosed) Store.empty
  let p : Forest Label := .cons ⟨"<p".toList, ⟨[(.scope, some "s".toList)], by decide⟩⟩
    (.cons (Label.leaf ">".toList) (.cons (Label.leaf "x".toList) .nil .nil)
      (.cons (Label.leaf "</p>".toList) .nil .nil)) .nil
  let br : Forest Label := .cons ⟨"<br".toList, ⟨[(.prop, some "q".toList)], by decide⟩⟩
    (.cons (Label.leaf ">".toList) .nil .nil) .nil
  have hwhole := hmeet rfl p (Label.leaf "<!--c-->".toList) (Label.leaf "</i>y".toList) br ?_ ?_
  · refine ⟨m, hm, ?_⟩
    rw [hwhole]
    decide +kernel
  · rw [Store.labels_plantView]
    decide +kernel
  · rw [Store.labels_plantView]
    decide +kernel

end Markup
end TemplateTree
