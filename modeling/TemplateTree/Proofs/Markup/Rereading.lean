import TemplateTree.Proofs.Markup.Bones
import TemplateTree.Proofs.Markup.Fixpoint
import TemplateTree.Proofs.Token.Startless

/-! The written document parsed again. End tags that the pass adds may close other elements than they
were written for, but only inside the element that the next end tag of the input closes, so every
start tag stands inside the same elements as before. -/
namespace TemplateTree

open Text
open Token (words)

namespace FlatScan

variable {decode : Bool} {os : List Open} {o : Open} {ns above base : List Text} {t : StartTag} {e : EndTag}
  {tok : Token} {ts us vs : List Token} {name : Text}

/-- The names of the open elements behind some tokens. -/
def passes (ns : List Text) (ts : List Token) : List Text := ts.foldl pass ns

theorem passes_append (ns : List Text) (us vs : List Token) :
    passes ns (us ++ vs) = passes (passes ns us) vs := List.foldl_append

theorem startRows_append (ns : List Text) (us vs : List Token) :
    startRows decode ns (us ++ vs) = startRows decode ns us ++ startRows decode (passes ns us) vs := by
  induction us generalizing ns with
  | nil => rfl
  | cons tok us ih =>
    cases tok with
    | raw o s => exact ih _
    | stop e => exact ih _
    | start t =>
      rw [List.cons_append, startRows, startRows, ih, List.cons_append]
      rfl

theorem startRows_eq_nil (h : ∀ t, Token.start t ∉ ts) (ns : List Text) : startRows decode ns ts = [] := by
  induction ts generalizing ns with
  | nil => rfl
  | cons tok ts ih =>
    have hrest := ih (fun t ht => h t (List.mem_cons_of_mem _ ht))
    cases tok with
    | raw o s => exact hrest _
    | stop e => exact hrest _
    | start t => exact absurd (List.mem_cons_self ..) (h t)

theorem startRows_map_moveTo (ns : List Text) (ts : List Token) :
    startRows decode ns (ts.map (Token.moveTo 0)) = startRows decode ns ts := by
  induction ts generalizing ns with
  | nil => rfl
  | cons tok ts ih =>
    cases tok with
    | raw o s => exact ih _
    | stop e => exact ih _
    | start t =>
      rw [List.map_cons, Token.moveTo, startRows, startRows, ih]
      rfl

/-- An end tag closes the element of its name in a given place, or one above that. -/
theorem pass_stop_append (e : EndTag) (above base : List Text) : ∃ rest,
    pass (above ++ e.key :: base) (.stop e) = rest ++ base ∧ ∀ n ∈ rest, n ∈ above ++ [e.key] := by
  induction above with
  | nil => exact ⟨[], pass_stop_self base e, by simp⟩
  | cons n above ih =>
    by_cases hn : n = e.key
    · refine ⟨above ++ [e.key], ?_, fun m hm => List.mem_cons_of_mem _ hm⟩
      rw [hn, List.cons_append, pass_stop_self, List.append_assoc]
      rfl
    · obtain ⟨rest, hpass, hrest⟩ := ih
      refine ⟨rest, ?_, fun m hm => List.mem_cons_of_mem _ (hrest m hm)⟩
      rw [List.cons_append, pass_stop_of_ne hn (by simp), hpass]

/-- It closes that element when no other one of its name is above. -/
theorem pass_stop_through (h : e.key ∉ above) (base : List Text) :
    pass (above ++ e.key :: base) (.stop e) = base := by
  induction above with
  | nil => exact pass_stop_self base e
  | cons n above ih =>
    rw [List.mem_cons, not_or] at h
    have hn : n ≠ e.key := fun hn => h.1 hn.symm
    rw [List.cons_append, pass_stop_of_ne hn (by simp), ih h.2]

/-- The end tags that are written for some elements close nothing outside of them. -/
theorem passes_closings (inside : List Open) (above base : List Text) : ∃ rest,
    passes (above ++ (names inside ++ base)) (closings inside) = rest ++ base ∧
      ∀ n ∈ rest, n ∈ above ++ names inside := by
  induction inside generalizing above with
  | nil => exact ⟨above, rfl, fun n hn => List.mem_append_left _ hn⟩
  | cons o inside ih =>
    have hshape : above ++ (names (o :: inside) ++ base) =
        above ++ o.tag.key :: (names inside ++ base) := rfl
    have hnames : above ++ names (o :: inside) = (above ++ [o.tag.key]) ++ names inside := by
      rw [List.append_assoc]
      rfl
    rw [closings_cons, passes_append, hshape, hnames]
    cases o.bound with
    | false =>
      obtain ⟨rest, hpass, hrest⟩ := ih (above ++ [o.tag.key])
      refine ⟨rest, ?_, hrest⟩
      rw [List.append_assoc] at hpass
      exact hpass
    | true =>
      obtain ⟨mid, hmid, hmem⟩ := pass_stop_append ⟨0, o.tag.name, ['>']⟩ above (names inside ++ base)
      obtain ⟨rest, hpass, hrest⟩ := ih mid
      refine ⟨rest, ?_, ?_⟩
      · exact (congrArg (passes · (closings inside)) hmid).trans hpass
      · intro n hn
        rcases List.mem_append.mp (hrest n hn) with hn | hn
        · exact List.mem_append_left _ (hmem n hn)
        · exact List.mem_append_right _ hn

theorem passes_anew (hm : t.ending ≠ .missing) (decode : Bool) (ns : List Text) :
    passes ns (anew decode t) = pass ns (.start t) := by
  have hwritten : pass ns (.start ((Tag.ofStart decode t).start t.offset)) =
      if !t.isVoid then t.key :: ns else ns := by
    rw [pass, Elements.opens_written]
    rfl
  rw [anew, passes, List.foldl_cons, hwritten, pass]
  cases hv : t.isVoid with
  | true => simp [StartTag.opens, hv]
  | false =>
    cases he : t.ending with
    | missing => exact absurd he hm
    | closed => simp [StartTag.opens, hv, he]
    | selfClosed =>
      have hself : pass (t.key :: ns) (closing t.name) = ns := pass_stop_self ns ⟨0, t.name, ['>']⟩
      simp [StartTag.opens, he, hself]

theorem startRows_anew (h : t.WellNamed) (ns : List Text) :
    startRows true ns (anew true t) = startRows true ns [.start t] := by
  have htag := Markup.ofStart_start (Tag.canonical_ofStart h true) t.offset
  rw [anew, startRows, startRows, htag]
  refine congrArg _ ((startRows_eq_nil ?_ _).trans (startRows_eq_nil (fun _ => List.not_mem_nil) _).symm)
  intro u hu
  split at hu <;> simp [closing] at hu

/-- An end tag that matches: what is closed with its element, that element, and what stays open. -/
theorem split_stop (decode : Bool) (he : e.key ∈ names os) : ∃ inside o outside, os = inside ++ o :: outside ∧
    o.tag.key = e.key ∧ e.key ∉ names inside ∧ ∀ ts, piece decode os ts (.stop e) =
      closings inside ++ [if o.bound then closing o.tag.name else .stop e] := by
  induction os with
  | nil => cases he
  | cons o os ih =>
    by_cases ho : o.tag.key = e.key
    · exact ⟨[], o, os, rfl, ho, List.not_mem_nil, piece_stop_self ho⟩
    · have hrest : e.key ∈ names os := by
        rcases List.mem_cons.mp he with heq | hrest
        · exact absurd heq.symm ho
        · exact hrest
      obtain ⟨inside, p, outside, rfl, hp, hinside, hpiece⟩ := ih hrest
      refine ⟨o :: inside, p, outside, rfl, hp, ?_, ?_⟩
      · intro hmem
        rcases List.mem_cons.mp hmem with heq | hmem
        · exact ho heq.symm
        · exact hinside hmem
      · intro ts
        rw [piece_stop_of_ne ho hrest, hpiece, closings_cons, List.append_assoc]

/-- What the pass writes for a token leaves the same elements open as the token. -/
theorem passes_piece (hm : ∀ t, tok = .start t → t.isBound = true → t.ending ≠ .missing)
    (os : List Open) (ts : List Token) : passes (names os) (piece decode os ts tok) = pass (names os) tok := by
  cases tok with
  | raw o s => rfl
  | start t =>
    rw [piece]
    by_cases hb : bindsFrom (names os) t ts = true
    · rw [if_pos hb]
      refine passes_anew ?_ decode _
      intro hmissing
      have hopens : t.opens = false := by simp [StartTag.opens, hmissing]
      rw [bindsFrom_single hopens] at hb
      exact hm t rfl hb hmissing
    · rw [if_neg hb]
      rfl
  | stop e =>
    by_cases he : e.key ∈ names os
    · obtain ⟨inside, o, outside, rfl, ho, hinside, hpiece⟩ := split_stop decode he
      have hshape : names (inside ++ o :: outside) = names inside ++ e.key :: names outside := by
        simp [names, ho]
      -- whatever the closers inside have closed, the next end tag closes the element itself
      obtain ⟨rest, hrest, hmem⟩ := passes_closings inside [] (e.key :: names outside)
      have hno : e.key ∉ rest := fun hin => hinside (by simpa using hmem _ hin)
      have hlast : pass (rest ++ e.key :: names outside) (if o.bound then closing o.tag.name else .stop e) =
          names outside := by
        cases o.bound with
        | false => exact pass_stop_through hno _
        | true =>
          rw [← ho] at hno ⊢
          exact pass_stop_through (e := ⟨0, o.tag.name, ['>']⟩) hno _
      rw [hpiece, passes_append, hshape]
      refine (congrArg (passes · _) hrest).trans ?_
      exact hlast.trans (pass_stop_through hinside _).symm
    · rw [piece_stop_stray he]
      rfl

theorem startRows_piece (hnamed : ∀ t, tok = .start t → t.WellNamed) (ns : List Text) (os : List Open)
    (ts : List Token) : startRows true ns (piece true os ts tok) = startRows true ns [tok] := by
  cases tok with
  | raw o s => rfl
  | start t =>
    rw [piece]
    by_cases hb : bindsFrom (names os) t ts = true
    · rw [if_pos hb]
      exact startRows_anew (hnamed t rfl) ns
    · rw [if_neg hb]
  | stop e =>
    refine (startRows_eq_nil ?_ ns).trans (startRows_eq_nil (by simp) ns).symm
    intro u hu
    by_cases he : e.key ∈ names os
    · obtain ⟨inside, o, outside, rfl, ho, hinside, hpiece⟩ := split_stop true he
      rw [hpiece, List.mem_append, List.mem_singleton] at hu
      rcases hu with hu | hu
      · exact not_start_closings inside u hu
      · cases hb : o.bound <;> simp [hb, closing] at hu
    · simp [piece_stop_stray he] at hu

/-- Every start tag stands inside the same elements in what the pass writes. -/
theorem startRows_rewrite (hnamed : ∀ t, Token.start t ∈ ts → t.WellNamed)
    (hends : ∀ t, Token.start t ∈ ts → t.isBound = true → t.ending ≠ .missing) (os : List Open) :
    startRows true (names os) (rewrite true os ts) = startRows true (names os) ts := by
  induction ts generalizing os with
  | nil => rfl
  | cons tok ts ih =>
    have hrest := ih (fun t ht => hnamed t (List.mem_cons_of_mem _ ht))
      (fun t ht => hends t (List.mem_cons_of_mem _ ht)) (advance os ts tok)
    have hpasses : passes (names os) (piece true os ts tok) = pass (names os) tok :=
      passes_piece (fun t ht => hends t (by simp [ht])) os ts
    have hsplit : startRows true (names os) (tok :: ts) =
        startRows true (names os) [tok] ++ startRows true (pass (names os) tok) ts :=
      startRows_append (names os) [tok] ts
    rw [names_of_advance] at hrest
    rw [rewrite, startRows_append, hpasses, hrest, hsplit, startRows_piece (fun t ht => hnamed t (by simp [ht]))]

theorem names_left (hos : ∀ o ∈ os, o.tag.name.IsElementName)
    (hnamed : ∀ t, Token.start t ∈ ts → t.WellNamed) : ∀ o ∈ left os ts, o.tag.name.IsElementName := by
  induction ts generalizing os with
  | nil => exact hos
  | cons tok ts ih =>
    refine ih (names_advance hos (fun t ht => ?_) ts) (fun t ht => hnamed t (List.mem_cons_of_mem _ ht))
    exact (hnamed t (by simp [ht])).name

/-- The end tags at the end of the document begin no start tag. -/
theorem startless_closers (hos : ∀ o ∈ os, o.tag.name.IsElementName) : Startless (closers os) := by
  induction os with
  | nil => trivial
  | cons o os ih =>
    have hrest := ih (fun p hp => hos p (by simp [hp]))
    rw [closers_cons]
    cases o.bound with
    | false => exact hrest
    | true =>
      refine startless_closer ?_ hrest
      intro hlt
      have hchar := (hos o (by simp)).chars _ hlt
      revert hchar
      decide

theorem closers_atMark (os : List Open) : AtMark (closers os) := by
  induction os with
  | nil => exact Or.inl rfl
  | cons o os ih =>
    rw [closers_cons]
    cases o.bound with
    | false => exact ih
    | true => exact Or.inr ⟨_, rfl⟩

end FlatScan

namespace Markup

open FlatScan (closers closers_atMark left names_left rewrite start_of_rewrite startRows startRows_append
  startRows_eq_nil startRows_map_moveTo startRows_rewrite startless_closers words_rewrite)

variable {config : Config} {input : Text} {m : Markup}

/-- The document shows the tokens that the pass writes, and the end tags of what is open. -/
theorem render_ofTokens (hcut : cutOff? (Token.scan input) = none) :
    (ofElements config (Elements.ofTokens (Token.scan input))).forest.render =
      Token.sources (rewrite config.decode [] (Token.scan input)) ++ closers (left [] (Token.scan input)) := by
  rw [← FlatScan.write_eq_sources]
  exact (FlatScan.output_run (Token.scan input) Elements.Nesting.start (by simp [Elements.Nesting.start])
    (fun t ht hb => StartTag.ends_of_bound hcut ht hb)).trans (List.nil_append _)

/-- No start tag that the pass writes is cut off where the input does not end inside one. -/
theorem ends_sources_rewrite (hcut : cutOff? (Token.scan input) = none)
    (hends : ∀ t, Token.start t ∈ Token.scan input → t.ending ≠ .missing) :
    ∀ t, Token.start t ∈ Token.scan (Token.sources (rewrite true [] (Token.scan input))) →
      t.ending ≠ .missing := by
  intro t ht hm
  have hmem := Token.mem_words ht
  rw [words_rewrite hcut] at hmem
  obtain ⟨u, hu, hut⟩ := Token.start_of_words hmem
  have hum : (u.moveTo 0).ending = .missing := by rwa [hut]
  rcases start_of_rewrite hu with hu | hu
  · exact hends u hu hum
  · exact hu hum

/-- The end tags at the end of the document add no start tag to those that the pass writes. -/
theorem keepsStarts_rewrite (hcut : cutOff? (Token.scan input) = none)
    (hends : ∀ t, Token.start t ∈ Token.scan input → t.ending ≠ .missing) :
    Token.KeepsStarts (Token.sources (rewrite true [] (Token.scan input)))
      (closers (left [] (Token.scan input))) := by
  have hleft : ∀ o ∈ left [] (Token.scan input), o.tag.name.IsElementName :=
    names_left (by simp) (fun t ht => StartTag.wellNamed_scanFrom ht)
  exact Token.keepsStarts 0 _ (ends_sources_rewrite hcut hends) (closers_atMark _)
    (startless_closers hleft)

theorem startRows_scan_append {s x : Text} (h : Token.KeepsStarts s x) :
    startRows true [] (Token.scan (s ++ x)) = startRows true [] (Token.words s) := by
  obtain ⟨us, vs, vs', hs, hsx, hvs, hvs'⟩ := h
  rw [← startRows_map_moveTo, ← Token.words, hs, hsx, startRows_append, startRows_append, startRows_eq_nil hvs,
    startRows_eq_nil hvs']

/-- Parsing the written document finds the bound elements of the input again, with the same names and
attributes and nested in the same way, unless the input ends inside a start tag. -/
theorem bones_markup_plantView (s : Store) (h : parse config input = .ok m) (hdecode : config.decode = true)
    (hlast : ∀ t, (Token.scan input).getLast? = some (.start t) → t.ending ≠ .missing) :
    ∃ again, parse config ((s.plantView m.forest).1.markup (s.plantView m.forest).2) = .ok again ∧
      again.bones = m.bones := by
  have hroom := nesting_le_of_parse h
  obtain ⟨hcut, -, rfl⟩ := parse_eq_ok_iff.mp h
  have hends : ∀ t, Token.start t ∈ Token.scan input → t.ending ≠ .missing := by
    intro t ht hm
    exact hlast t (Token.getLast?_scanFrom ht hm) hm
  let out := Token.sources (rewrite true [] (Token.scan input)) ++ closers (left [] (Token.scan input))
  have hout : (ofElements config (Elements.ofTokens (Token.scan input))).forest.render = out := by
    rw [render_ofTokens hcut, hdecode]
  have hkeeps := keepsStarts_rewrite hcut hends
  have hstarts : startRows true [] (Token.scan out) = startRows true [] (Token.scan input) := by
    have hbefore : startRows true [] (rewrite true [] (Token.scan input)) =
        startRows true [] (Token.scan input) :=
      startRows_rewrite (fun t ht => StartTag.wellNamed_scanFrom ht) (fun t ht _ => hends t ht) []
    rw [startRows_scan_append hkeeps, words_rewrite hcut, startRows_map_moveTo, hbefore]
  have hskeleton : (Elements.ofTokens (Token.scan out)).skeleton true =
      (Elements.ofTokens (Token.scan input)).skeleton true := by
    apply Forest.rows_injective (d := 0)
    rw [FlatScan.rows_skeleton_ofTokens, FlatScan.rows_skeleton_ofTokens, hstarts]
  have hbones : (ofElements config (Elements.ofTokens (Token.scan out))).bones =
      (ofElements config (Elements.ofTokens (Token.scan input))).bones := by
    rw [Elements.bones_ofElements, Elements.bones_ofElements, hdecode, hskeleton]
  have hcut' : cutOff? (Token.scan out) = none := by
    refine cutOff?_eq_none (fun t ht _ hm => ?_)
    obtain ⟨u, hu, hut⟩ := hkeeps.start ht
    have hum : (u.moveTo 0).ending = .missing := by rwa [hut]
    exact ends_sources_rewrite hcut hends u hu hum
  rw [markup_plantView, hout]
  refine ⟨_, parse_eq_ok_iff.mpr ⟨hcut', ?_, rfl⟩, hbones⟩
  rw [tooDeep?_eq_none_iff config, ← height_bones, hbones, height_bones]
  exact hroom

/-- A closer that an element left open takes, one that an open comment swallows, and a stray end tag. -/
theorem bones_markup_left_open : ∃ m again,
    parse {} "</b><ul data-scope=s><li data-prop><li>x</ul><p partial><!-- y".toList = .ok m ∧
      (Store.empty.plantView m.forest).1.markup (Store.empty.plantView m.forest).2 =
        "</b><ul data-scope=\"s\"><li data-prop><li>x</li></ul><p data-partial><!-- y</p>".toList ∧
      parse {} ((Store.empty.plantView m.forest).1.markup (Store.empty.plantView m.forest).2) = .ok again ∧
      again.bones = m.bones := by
  let input := "</b><ul data-scope=s><li data-prop><li>x</ul><p partial><!-- y".toList
  have hcut : cutOff? (Token.scan input) = none := by decide +kernel
  have hdeep : (Elements.ofTokens (Token.scan input)).tooDeep? 512 = none := by decide +kernel
  have hparse : parse {} input = .ok (ofElements {} (Elements.ofTokens (Token.scan input))) :=
    parse_eq_ok_iff.mpr ⟨hcut, hdeep, rfl⟩
  have hlast : (Token.scan input).getLast? = some (.raw 56 "<!-- y".toList) := by decide +kernel
  have hends : ∀ t, (Token.scan input).getLast? = some (.start t) → t.ending ≠ .missing := by
    intro t ht
    rw [hlast] at ht
    cases ht
  obtain ⟨again, hagain, hbones⟩ := bones_markup_plantView Store.empty hparse rfl hends
  refine ⟨_, again, hparse, ?_, hagain, hbones⟩
  rw [markup_plantView]
  decide +kernel

end Markup
end TemplateTree
