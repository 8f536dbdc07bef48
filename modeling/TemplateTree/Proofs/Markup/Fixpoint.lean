import TemplateTree.Proofs.Elements.Erase
import TemplateTree.Proofs.Markup.Outcome
import TemplateTree.Proofs.Markup.Rewrite

/-! Where every bound element has its own end tag, the written document has the elements of the input
with their bound tags written anew, so parsing it gives the same markup. -/
namespace TemplateTree

open FlatScan (Open Ends advance anew bindsFrom bindsFrom_inner bindsFrom_single closing names piece
  rewrite)

variable {config : Config} {decode : Bool} {es inner rest : Elements} {ns opened : List Text}
  {t : StartTag} {e : EndTag} {o : Open} {os : List Open} {ts : List Token} {input : Text} {m : Markup}

namespace Elements

/-- Every bound element that opens is closed by its own end tag. -/
def Explicit : Elements → Prop
  | nil => True
  | raw _ _ rest => Explicit rest
  | stray _ rest => Explicit rest
  | element t inner close rest =>
    ((t.isBound || inner.isBound) = true → t.opens = true → close ≠ none) ∧ Explicit inner ∧ Explicit rest

instance decidableExplicit : (es : Elements) → Decidable es.Explicit
  | nil => inferInstanceAs (Decidable True)
  | raw _ _ rest => decidableExplicit rest
  | stray _ rest => decidableExplicit rest
  | element _ inner _ rest =>
    have := decidableExplicit inner
    have := decidableExplicit rest
    inferInstanceAs (Decidable ((_ → _ → _) ∧ _ ∧ _))

/-- No bound tag of the row is cut off. -/
def Ended (es : Elements) : Prop := ∀ t, Token.start t ∈ es.tokens → t.isBound = true → t.ending ≠ .missing

/-- What is left open is not bound. -/
theorem Explicit.unbound {rest : Elements} (hx : (element t inner none rest).Explicit)
    (ht : t.opens = true) : (t.isBound || inner.isBound) = false := by
  cases hb : (t.isBound || inner.isBound) with
  | false => rfl
  | true => exact absurd rfl (hx.1 hb ht)

/-- The row with its bound elements written anew. -/
def recast (decode : Bool) : Elements → Elements
  | nil => nil
  | raw o s rest => raw o s (recast decode rest)
  | stray e rest => stray e (recast decode rest)
  | element t inner close rest =>
    if t.isBound || inner.isBound then
      element ((Tag.ofStart decode t).start t.offset) (recast decode inner)
        (if t.isVoid then none else some ⟨0, t.name, ['>']⟩) (recast decode rest)
    else element t inner close (recast decode rest)

theorem recast_bound (h : (t.isBound || inner.isBound) = true) (close : Option EndTag) (rest : Elements) :
    (element t inner close rest).recast decode = element ((Tag.ofStart decode t).start t.offset)
      (inner.recast decode) (if t.isVoid then none else some ⟨0, t.name, ['>']⟩) (rest.recast decode) :=
  if_pos h

theorem recast_unbound (h : (t.isBound || inner.isBound) = false) (close : Option EndTag)
    (rest : Elements) : (element t inner close rest).recast decode =
      element t inner close (rest.recast decode) :=
  if_neg (by simp [h])

theorem recast_eq_self (h : es.isBound = false) : es.recast decode = es := by
  induction es with
  | nil => rfl
  | raw o s rest ih => rw [recast, ih h]
  | stray e rest ih => rw [recast, ih h]
  | element t inner close rest _ ih =>
    rw [isBound, Bool.or_eq_false_iff] at h
    rw [recast_unbound h.1, ih h.2]

/-- What the document shows is the source of the row written anew. -/
theorem source_recast (es : Elements) : (es.recast config.decode).source = es.render config := by
  induction es with
  | nil => rfl
  | raw o s rest ih =>
    rw [render_raw, ← ih]
    rfl
  | stray e rest ih =>
    rw [render_stray, ← ih]
    rfl
  | element t inner close rest ihi ihr =>
    by_cases hb : (t.isBound || inner.isBound) = true
    · have hopening : ((Tag.ofStart config.decode t).start t.offset).source =
          '<' :: t.name ++ (Tag.ofStart config.decode t).attributes.render ++
            (Tag.ofStart config.decode t).slot :=
        (FlatScan.source_start _ _).trans (List.append_assoc ..).symm
      rw [recast_bound hb, source_element, render_bound hb, ihi, ihr, hopening]
      cases t.isVoid <;> simp [EndTag.source, Markup.closer]
    · have hf : (t.isBound || inner.isBound) = false := by simpa using hb
      rw [recast_unbound hf, source_element, render_unbound hf, ihr]

theorem opens_written (decode : Bool) (t : StartTag) (p : Nat) :
    ((Tag.ofStart decode t).start p).opens = !t.isVoid := by
  have hslash : (Tag.ofStart decode t).slash = (t.isVoid && t.ending == .selfClosed) := rfl
  have hvoid : ((Tag.ofStart decode t).start p).isVoid = t.isVoid := rfl
  have hending : ((Tag.ofStart decode t).start p).ending =
      if (Tag.ofStart decode t).slash then .selfClosed else .closed := rfl
  rw [StartTag.opens, hvoid, hending, hslash]
  cases t.isVoid <;> simp

theorem unclosed_recast (h : es.Explicit) : (es.recast decode).unclosed = es.unclosed := by
  induction es with
  | nil => rfl
  | raw o s rest ih => exact ih h
  | stray e rest ih => exact ih h
  | element t inner close rest _ ih =>
    obtain ⟨hself, -, hrest⟩ := h
    by_cases hb : (t.isBound || inner.isBound) = true
    · have hdone : (t.opens && close.isNone) = false := by
        cases ho : t.opens with
        | false => rfl
        | true =>
          have hclose := hself hb ho
          cases close with
          | none => exact absurd rfl hclose
          | some e => rfl
      rw [recast_bound hb, Elements.unclosed, Elements.unclosed, opens_written, ih hrest, hdone]
      cases t.isVoid <;> rfl
    · have hf : (t.isBound || inner.isBound) = false := by simpa using hb
      rw [recast_unbound hf, Elements.unclosed, Elements.unclosed, ih hrest]

/-- A bound tag that opens nothing, and ends, is void or closes itself. -/
theorem selfClosed_of_single (ht : t.opens = false) (hm : t.ending ≠ .missing) (hv : t.isVoid = false) :
    t.ending = .selfClosed := by
  cases he : t.ending with
  | selfClosed => rfl
  | missing => exact absurd he hm
  | closed => simp [StartTag.opens, he, hv] at ht

/-- The tokens of an element without a body, written anew when it is bound. -/
theorem tokens_recast_single (ht : t.opens = false) (hm : t.isBound = true → t.ending ≠ .missing)
    (rest : Elements) : ((element t nil none rest).recast decode).tokens =
      (if t.isBound then anew decode t else [.start t]) ++ (rest.recast decode).tokens := by
  have hbound : (t.isBound || nil.isBound) = t.isBound := Bool.or_false _
  by_cases hb : t.isBound = true
  · rw [recast_bound (hbound.trans hb), if_pos hb, anew]
    cases hv : t.isVoid with
    | true => simp [tokens, recast]
    | false => simp [selfClosed_of_single ht (hm hb) hv, tokens, recast, closing]
  · rw [recast_unbound (hbound.trans (by simpa using hb)), if_neg hb]
    simp [tokens]

/-- The tokens of an element with an end tag, both tags written anew when it is bound. -/
theorem tokens_recast_closed (ht : t.opens = true) (inner : Elements) (e : EndTag) (rest : Elements) :
    ((element t inner (some e) rest).recast decode).tokens =
      (if t.isBound || inner.isBound then anew decode t else [.start t]) ++ ((inner.recast decode).tokens ++
        (if t.isBound || inner.isBound then closing t.name else .stop e) :: (rest.recast decode).tokens) := by
  by_cases hb : (t.isBound || inner.isBound) = true
  · have hopen := Bool.and_eq_true_iff.mp ht
    have hv : t.isVoid = false := by simpa using hopen.2
    have hc : t.ending = .closed := by simpa using hopen.1
    rw [recast_bound hb, if_pos hb, if_pos hb, anew]
    simp [hv, hc, tokens, closing]
  · have hf : (t.isBound || inner.isBound) = false := by simpa using hb
    rw [recast_unbound hf, if_neg hb, if_neg hb, recast_eq_self (Bool.or_eq_false_iff.mp hf).2]
    simp [tokens]

/-- An element that is left open stays as it is. -/
theorem tokens_recast_open (hf : (t.isBound || inner.isBound) = false) :
    ((element t inner none nil).recast decode).tokens = .start t :: (inner.recast decode).tokens := by
  rw [recast_unbound hf, recast_eq_self (Bool.or_eq_false_iff.mp hf).2]
  simp [tokens, recast]

theorem Nested.recast (h : es.Nested ns) (hx : es.Explicit) : (es.recast decode).Nested ns := by
  induction h with
  | nil ns => exact .nil ns
  | raw o s _ ih => exact .raw o s (ih hx)
  | stray he _ ih => exact .stray he (ih hx)
  | @single ns rest t ht _ ih =>
    obtain ⟨-, -, hrest⟩ := hx
    by_cases hb : (t.isBound || Elements.nil.isBound) = true
    · rw [recast_bound hb]
      cases hv : t.isVoid with
      | true => exact .single (by rw [opens_written, hv]; rfl) (ih hrest)
      | false =>
        refine .closed (by rw [opens_written, hv]; rfl) rfl ?_ (.nil _) (ih hrest)
        exact List.not_mem_nil
    · rw [recast_unbound (by simpa using hb)]
      exact .single ht (ih hrest)
  | @closed ns inner rest t e ht he hno hinner _ ihi ihr =>
    obtain ⟨-, hxi, hxr⟩ := hx
    by_cases hb : (t.isBound || inner.isBound) = true
    · have hv : t.isVoid = false := by simpa [StartTag.opens] using (Bool.and_eq_true_iff.mp ht).2
      rw [recast_bound hb, hv]
      refine .closed (by rw [opens_written, hv]; rfl) rfl ?_ (ihi hxi) (ihr hxr)
      rw [unclosed_recast hxi]
      rwa [he] at hno
    · rw [recast_unbound (by simpa using hb)]
      exact .closed ht he hno hinner (ihr hxr)
  | @unclosed ns inner t ht hinner =>
    rw [recast_unbound (hx.unbound ht)]
    exact .unclosed ht hinner

end Elements

namespace FlatScan

open Elements

/-- An element that is left open and not bound does not matter to what is written behind it. -/
theorem rewrite_left (h : Ends (names os) (opened ++ [o.tag.key]) ts) (hb : o.bound = false) :
    rewrite decode (o :: os) ts = rewrite decode os ts := by
  rcases h.outer with rfl | ⟨e, us, rfl, he, hne⟩
  · rfl
  · rw [rewrite, rewrite, piece_stop_of_ne hne he, advance_stop_of_ne hne he, hb]
    rfl

/-- Where every bound element has its end tag, the pass writes the tokens of the row written anew. -/
theorem rewrite_tokens (h : es.Nested ns) (hx : es.Explicit) (hm : es.Ended) (hns : names os = ns)
    (hend : Ends ns es.unclosed ts) :
    rewrite decode os (es.tokens ++ ts) = (es.recast decode).tokens ++ rewrite decode os ts := by
  induction h generalizing os ts with
  | nil => rfl
  | raw p s _ ih =>
    have hrest := ih hx (fun t ht => hm t (List.mem_cons_of_mem _ ht)) hns hend
    rw [Elements.tokens, List.cons_append, rewrite, Elements.recast, Elements.tokens, List.cons_append,
      ← hrest]
    rfl
  | @stray ns rest e he _ ih =>
    have hrest := ih hx (fun t ht => hm t (List.mem_cons_of_mem _ ht)) hns hend
    have hstray : e.key ∉ names os := by rwa [hns]
    rw [Elements.tokens, List.cons_append, rewrite, Elements.recast, Elements.tokens, List.cons_append,
      piece_stop_stray hstray, advance_stop_stray hstray, hrest]
    rfl
  | @single ns rest t ht _ ih =>
    rw [unclosed_single ht] at hend
    obtain ⟨-, -, hxr⟩ := hx
    have hrest := ih hxr (fun u hu => hm u (by simp [Elements.tokens, hu])) hns hend
    have hadvance : advance os (rest.tokens ++ ts) (.start t) = os := by simp [advance, ht]
    rw [tokens_single_append, rewrite, hadvance, piece, bindsFrom_single ht, hrest,
      tokens_recast_single ht (hm t (by simp [Elements.tokens])), List.append_assoc]
  | @closed ns inner rest t e ht he hno hinner _ ihi ihr =>
    rw [unclosed_closed] at hend
    obtain ⟨-, hxi, hxr⟩ := hx
    have hstop : Ends (t.key :: ns) inner.unclosed (.stop e :: (rest.tokens ++ ts)) :=
      .stop (by simp [he]) hno
    let o : Open := ⟨t, t.isBound || inner.isBound⟩
    have hinside : rewrite decode (o :: os) (inner.tokens ++ .stop e :: (rest.tokens ++ ts)) =
        (inner.recast decode).tokens ++ rewrite decode (o :: os) (.stop e :: (rest.tokens ++ ts)) :=
      ihi hxi (fun u hu => hm u (by simp [Elements.tokens, hu])) (congrArg (t.key :: ·) hns) hstop
    have hrest := ihr hxr (fun u hu => hm u (by simp [Elements.tokens, hu])) hns hend
    have hself : advance (o :: os) (rest.tokens ++ ts) (.stop e) = os := advance_stop_self he.symm
    have hclose : piece decode (o :: os) (rest.tokens ++ ts) (.stop e) =
        [if o.bound then closing t.name else .stop e] := piece_stop_self he.symm _
    rw [tokens_closed_append, rewrite, piece, advance, if_pos ht, hns, bindsFrom_inner ht hinner hstop,
      hinside, rewrite, hself, hclose, hrest, tokens_recast_closed ht]
    simp only [List.append_assoc, List.cons_append, List.nil_append, o]
  | @unclosed ns inner t ht hinner ih =>
    rw [unclosed_open ht] at hend
    have hf := hx.unbound ht
    let o : Open := ⟨t, t.isBound || inner.isBound⟩
    have hleft : rewrite decode (o :: os) ts = rewrite decode os ts := by
      rw [← hns] at hend
      exact rewrite_left hend hf
    have hinside : rewrite decode (o :: os) (inner.tokens ++ ts) =
        (inner.recast decode).tokens ++ rewrite decode (o :: os) ts :=
      ih hx.2.1 (fun u hu => hm u (by simp [Elements.tokens, hu])) (congrArg (t.key :: ·) hns)
        hend.inside
    rw [tokens_open_append, rewrite, piece, advance, if_pos ht, hns,
      bindsFrom_inner ht hinner hend.inside, hinside, hleft, tokens_recast_open hf, hf]
    simp

theorem rewrite_scan (hcut : cutOff? (Token.scan input) = none)
    (hx : (ofTokens (Token.scan input)).Explicit) :
    rewrite decode [] (Token.scan input) = ((ofTokens (Token.scan input)).recast decode).tokens := by
  have htokens := tokens_ofTokens (Token.scan input)
  have hends : (ofTokens (Token.scan input)).Ended := by
    rw [Ended, htokens]
    exact fun t ht hb => StartTag.ends_of_bound hcut ht hb
  have hrun : rewrite decode [] ((ofTokens (Token.scan input)).tokens ++ []) =
      ((ofTokens (Token.scan input)).recast decode).tokens ++ rewrite decode [] [] :=
    rewrite_tokens (nested_ofTokens _) hx hends rfl .nil
  rw [htokens, List.append_nil] at hrun
  simpa [rewrite] using hrun

end FlatScan
namespace Elements

theorem isBound_written {t : StartTag} (h : t.WellNamed) (p : Nat) :
    ((Tag.ofStart decode t).start p).isBound = t.isBound :=
  (Markup.isBound_start (Tag.canonical_ofStart h decode) p).trans (Tag.hasBinding_ofStart decode t)

theorem isBound_recast (hnamed : ∀ t, Token.start t ∈ es.tokens → t.WellNamed) :
    (es.recast decode).isBound = es.isBound := by
  induction es with
  | nil => rfl
  | raw o s rest ih => exact ih (fun t ht => hnamed t (List.mem_cons_of_mem _ ht))
  | stray e rest ih => exact ih (fun t ht => hnamed t (List.mem_cons_of_mem _ ht))
  | element t inner close rest ihi ihr =>
    have ht := hnamed t (by simp [tokens])
    have hinner := ihi (fun u hu => hnamed u (by simp [tokens, hu]))
    have hrest := ihr (fun u hu => hnamed u (by simp [tokens, hu]))
    by_cases hb : (t.isBound || inner.isBound) = true
    · rw [recast_bound hb, isBound, isBound, isBound_written ht, hinner, hrest]
    · rw [recast_unbound (by simpa using hb), isBound, isBound, hrest]

end Elements

namespace Markup

/-- The row written anew makes the same markup. -/
theorem ofElements_recast (hdecode : config.decode = true)
    (hnamed : ∀ t, Token.start t ∈ es.tokens → t.WellNamed) :
    ofElements config (es.recast true) = ofElements config es := by
  induction es with
  | nil => rfl
  | raw o s rest ih =>
    rw [Elements.recast, ofElements, ofElements, ih (fun t ht => hnamed t (List.mem_cons_of_mem _ ht))]
  | stray e rest ih =>
    rw [Elements.recast, ofElements, ofElements, ih (fun t ht => hnamed t (List.mem_cons_of_mem _ ht))]
  | element t inner close rest ihi ihr =>
    have ht := hnamed t (by simp [Elements.tokens])
    have hnamedi : ∀ u, Token.start u ∈ inner.tokens → u.WellNamed :=
      fun u hu => hnamed u (by simp [Elements.tokens, hu])
    have hrest := ihr (fun u hu => hnamed u (by simp [Elements.tokens, hu]))
    by_cases hb : (t.isBound || inner.isBound) = true
    · have hagain : (((Tag.ofStart true t).start t.offset).isBound || (inner.recast true).isBound) = true := by
        rw [Elements.isBound_written ht, Elements.isBound_recast hnamedi, hb]
      rw [Elements.recast_bound hb, ofElements, ofElements, if_pos hagain, if_pos hb, hdecode,
        ofStart_start (Tag.canonical_ofStart ht true), ihi hnamedi, hrest]
    · rw [Elements.recast_unbound (by simpa using hb), ofElements, ofElements, if_neg hb, if_neg hb, hrest]

/-- A text is not cut off inside a bound tag when none of its start tags is. -/
theorem cutOff?_eq_none (h : ∀ t, Token.start t ∈ Token.scan input → t.isBound = true → t.ending ≠ .missing) :
    cutOff? (Token.scan input) = none := by
  rw [cutOff?_eq_none_iff]
  rintro t ⟨hlast, hm, hb⟩
  exact h t (List.mem_of_getLast? hlast) hb hm

theorem markup_plantView (s : Store) (m : Markup) :
    (s.plantView m.forest).1.markup (s.plantView m.forest).2 = m.forest.render :=
  congrArg Forest.render (Store.labels_plantList s m.forest)

/-- The tokens that the pass writes make the markup of the input. -/
theorem ofElements_rewrite (hdecode : config.decode = true) (hcut : cutOff? (Token.scan input) = none)
    (hx : (Elements.ofTokens (Token.scan input)).Explicit) :
    ofElements config (Elements.ofTokens (rewrite true [] (Token.scan input))) =
      ofElements config (Elements.ofTokens (Token.scan input)) := by
  have hagain : (Elements.ofTokens (Token.scan input)).recast true |>.Nested [] :=
    (Elements.nested_ofTokens _).recast hx
  rw [FlatScan.rewrite_scan hcut hx, hagain.ofTokens]
  refine ofElements_recast hdecode (fun t ht => ?_)
  rw [Elements.tokens_ofTokens] at ht
  exact StartTag.wellNamed_scanFrom ht

/-- Where every bound element that opens has its own end tag, the written document is parsed as the
markup that it shows, and shows the same again. -/
theorem parse_markup_plantView (s : Store) (h : parse config input = .ok m) (hdecode : config.decode = true)
    (hx : (Elements.ofTokens (Token.scan input)).Explicit) :
    parse config ((s.plantView m.forest).1.markup (s.plantView m.forest).2) = .ok m ∧ ∀ t : Store,
      (t.plantView m.forest).2.labels (t.plantView m.forest).1.list =
          (s.plantView m.forest).2.labels (s.plantView m.forest).1.list ∧
        (t.plantView m.forest).1.markup (t.plantView m.forest).2 =
          (s.plantView m.forest).1.markup (s.plantView m.forest).2 := by
  constructor
  · have hroom := nesting_le_of_parse h
    obtain ⟨hcut, -, rfl⟩ := parse_eq_ok_iff.mp h
    let us := rewrite true [] (Token.scan input)
    have hout : (ofElements config (Elements.ofTokens (Token.scan input))).forest.render =
        Token.sources us := by
      have hsource : ((Elements.ofTokens (Token.scan input)).recast config.decode).source =
          (Elements.ofTokens (Token.scan input)).render config := Elements.source_recast _
      rw [hdecode, Elements.source_eq, ← FlatScan.rewrite_scan hcut hx] at hsource
      exact hsource.symm
    have hwords : Token.words (Token.sources us) = us.map (Token.moveTo 0) := FlatScan.words_rewrite hcut
    have hsame : ofElements config (Elements.ofTokens (Token.scan (Token.sources us))) =
        ofElements config (Elements.ofTokens (Token.scan input)) :=
      (ofElements_congr config hwords).trans (ofElements_rewrite hdecode hcut hx)
    have hends : ∀ t, Token.start t ∈ Token.scan (Token.sources us) → t.isBound = true →
        t.ending ≠ .missing := by
      intro t ht hb hm
      have hmem := Token.mem_words ht
      rw [hwords] at hmem
      obtain ⟨u, hu, hut⟩ := Token.start_of_words hmem
      have hub : (u.moveTo 0).isBound = true := by rwa [hut]
      have hum : (u.moveTo 0).ending = .missing := by rwa [hut]
      rcases FlatScan.start_of_rewrite hu with hu | hu
      · exact StartTag.ends_of_bound hcut hu hub hum
      · exact hu hum
    rw [markup_plantView, hout, parse_eq_ok_iff]
    refine ⟨cutOff?_eq_none hends, ?_, hsame⟩
    rw [tooDeep?_eq_none_iff config, hsame]
    exact hroom
  · intro t
    rw [markup_plantView, markup_plantView]
    exact ⟨(Store.labels_plantList t m.forest).trans (Store.labels_plantList s m.forest).symm, rfl⟩

/-- Stray and missing end tags and a comment between bound tags that are written anew. -/
theorem parse_markup_unbalanced : ∃ m,
    parse {maxDepth := 2} "</q><P Data-Scope=a&amp;b B><br data-prop/><i>x</p-><!--</P>--></P>y<b>".toList =
        .ok m ∧
      (Store.empty.plantView m.forest).1.markup (Store.empty.plantView m.forest).2 =
        "</q><P data-scope=\"a&amp;b\" b><br data-prop/><i>x</p-><!--</P>--></P>y<b>".toList ∧
      parse {maxDepth := 2} ((Store.empty.plantView m.forest).1.markup (Store.empty.plantView m.forest).2) =
        .ok m := by
  let input := "</q><P Data-Scope=a&amp;b B><br data-prop/><i>x</p-><!--</P>--></P>y<b>".toList
  have hcut : cutOff? (Token.scan input) = none := by decide +kernel
  have hdeep : (Elements.ofTokens (Token.scan input)).tooDeep? 2 = none := by decide +kernel
  have hx : (Elements.ofTokens (Token.scan input)).Explicit := by decide +kernel
  have hparse : parse {maxDepth := 2} input =
      .ok (ofElements {maxDepth := 2} (Elements.ofTokens (Token.scan input))) :=
    parse_eq_ok_iff.mpr ⟨hcut, hdeep, rfl⟩
  refine ⟨_, hparse, ?_, (parse_markup_plantView Store.empty hparse rfl hx).1⟩
  rw [markup_plantView]
  decide +kernel

end Markup
end TemplateTree
