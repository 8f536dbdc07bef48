import TemplateTree.Proofs.Token.Reread

/-! Texts in which no start tag begins, such as a run of end tags. Behind a text that does not end
inside a start tag they add no start tag, whatever they become part of. -/
namespace TemplateTree

open Text

namespace Text

variable {a b s w x : Text} {c : Char}

/-- No `<` stands before a letter. -/
def Startless : Text → Prop
  | [] => True
  | c :: r => (c = '<' → r.head?.all (fun d => !d.isAlpha) = true) ∧ Startless r

theorem Startless.suffix (h : Startless (a ++ x)) : Startless x := by
  induction a with
  | nil => exact h
  | cons c a ih => exact ih h.2

theorem startless_append (ha : '<' ∉ a) (hx : Startless x) : Startless (a ++ x) := by
  induction a with
  | nil => exact hx
  | cons c a ih =>
    rw [List.mem_cons, not_or] at ha
    exact ⟨fun hc => absurd hc.symm ha.1, ih ha.2⟩

theorem startless_closer (hname : '<' ∉ a) (hx : Startless x) : Startless (Markup.closer a ++ x) := by
  have htail : '<' ∉ '/' :: (a ++ ['>']) := by simp [hname]
  have hshape : Markup.closer a ++ x = '<' :: ('/' :: (a ++ ['>']) ++ x) := by simp [Markup.closer]
  rw [hshape]
  exact ⟨fun _ => by rfl, startless_append htail hx⟩

/-- A mark that follows does not complete a word without one. -/
theorem starts_atMark (hw : '<' ∉ w) (hb : b ≠ []) (hx : AtMark x) : starts w (b ++ x) = starts w b := by
  rcases hx with rfl | ⟨r, rfl⟩
  · rw [List.append_nil]
  · induction w generalizing b with
    | nil => simp [starts]
    | cons c w ih =>
      rw [List.mem_cons, not_or] at hw
      obtain ⟨d, b, rfl⟩ := List.exists_cons_of_ne_nil hb
      cases b with
      | nil =>
        cases w with
        | nil => rfl
        | cons e w =>
          have he : e ≠ '<' := (List.ne_of_not_mem_cons hw.2).symm
          simp [starts, List.isPrefixOf, he]
      | cons e b =>
        have hrest := ih hw.2 (List.cons_ne_nil e b)
        simp only [starts, List.cons_append, List.isPrefixOf] at hrest ⊢
        rw [hrest]

/-- Where a word did not end before, it ends in what follows. -/
theorem beyond_append (hw : '<' ∉ w) (h : beyond w s = []) (hx : AtMark x) :
    ∃ a, x = a ++ beyond w (s ++ x) := by
  by_cases hnone : onward (starts w) s = []
  · have hup : upTo (starts w) s = s := by
      have hcut := upTo_append_onward (starts w) s
      rwa [hnone, List.append_nil] at hcut
    obtain ⟨-, hon⟩ := cut_atMark (fun _ _ hb hy => starts_atMark hw hb hy) (Or.inl hnone) hx
    rw [hup] at hon
    refine ⟨upTo (starts w) x ++ (onward (starts w) x).take w.length, ?_⟩
    rw [beyond, hon, List.append_assoc, List.take_append_drop, upTo_append_onward]
  · obtain ⟨-, -, hbeyond⟩ := through_append hnone x
    have hthrough : through w s = s := by
      have hcut := through_append_beyond w s
      rwa [h, List.append_nil] at hcut
    rw [hthrough] at hbeyond
    exact ⟨[], hbeyond.symm⟩

theorem dropWhile_atMark {p : Char → Bool} (hp : p '<' = false) (s : Text) (hx : AtMark x) :
    (s ++ x).dropWhile p = s.dropWhile p ++ x := by
  have hself : x.dropWhile p = x := by
    rcases hx with rfl | ⟨r, rfl⟩
    · rfl
    · exact List.dropWhile_cons_of_neg (by simp [hp])
  rw [List.dropWhile_append]
  split
  · next hnil => rw [List.isEmpty_iff.mp hnil, hself, List.nil_append]
  · rfl

end Text

namespace Token

variable {p : Nat} {s x after rest : Text} {tok : Token} {t : StartTag}

/-- No start tag is read from a text in which none begins. -/
theorem not_start_of_startless (h : Startless s) (t : StartTag) : Token.start t ∉ scanFrom p s := by
  fun_induction scanFrom p s with
  | case1 => exact List.not_mem_nil
  | case2 p s hs first after bodyAt body ih =>
    have hnext : next p s = (first, after) := rfl
    have hrest : Startless (first.afterBody after) := by
      rw [← source_append_next p s, hnext] at h
      have hafter : Startless after := h.suffix
      rw [← body_append_afterBody first after] at hafter
      exact hafter.suffix
    intro ht
    rcases List.mem_cons.mp ht with hfirst | ht
    · have hlead : Lead.of s = .startTag := by
        rw [← hfirst] at hnext
        cases hl : Lead.of s with
        | startTag => rfl
        | text | comment | declaration | endTag => simp [next, hl] at hnext
      obtain ⟨c, r, rfl, hc⟩ := Lead.letter_of_startTag hlead
      have hno := h.1 rfl
      simp [hc] at hno
    · rcases List.mem_append.mp ht with hb | ht
      · exact not_start_ofBody _ _ t hb
      · exact ih hrest ht

theorem not_start_words (h : Startless s) (t : StartTag) : Token.start t ∉ words s := by
  intro ht
  obtain ⟨tok, htok, hmove⟩ := List.mem_map.mp ht
  cases tok with
  | raw | stop => cases hmove
  | start u => exact not_start_of_startless h u htok

/-- A last token that is no start tag goes on in what follows, or ends before it. -/
theorem next_append_last (hs : s ≠ []) (h : next p s = (tok, [])) (hno : ∀ t, tok ≠ .start t)
    (hx : AtMark x) : ∃ tok' rest a, next p (s ++ x) = (tok', rest) ∧ (∀ t, tok' ≠ .start t) ∧
      x = a ++ rest := by
  have hlead : Lead.of (s ++ x) = Lead.of s := Lead.of_append hs hx
  cases hl : Lead.of s with
  | text =>
    simp only [next, hl, Prod.mk.injEq] at h
    have hup : upTo opensMarkup s = s := by
      have hcut := upTo_append_onward opensMarkup s
      rwa [h.2, List.append_nil] at hcut
    obtain ⟨-, hon⟩ := cut_atMark (fun _ _ => Lead.opensMarkup_append) (Or.inl h.2) hx
    rw [hup] at hon
    refine ⟨.raw p (upTo opensMarkup (s ++ x)), onward opensMarkup x, upTo opensMarkup x, ?_, by simp,
      (upTo_append_onward _ x).symm⟩
    rw [next, hlead, hl]
    simp only [hon]
  | comment =>
    simp only [next, hl, Prod.mk.injEq] at h
    obtain ⟨a, ha⟩ := beyond_append (by decide) h.2 hx
    have hdrop : (s ++ x).drop 4 = s.drop 4 ++ x := by
      rw [Lead.eq_of_comment hl]
      rfl
    rw [← hdrop] at ha
    refine ⟨.raw p ((s ++ x).take 4 ++ through "-->".toList ((s ++ x).drop 4)), _, a, ?_, by simp, ha⟩
    rw [next, hlead, hl]
  | declaration =>
    simp only [next, hl, Prod.mk.injEq] at h
    obtain ⟨a, ha⟩ := beyond_append (by decide) h.2 hx
    refine ⟨.raw p (through ">".toList (s ++ x)), _, a, ?_, by simp, ha⟩
    rw [next, hlead, hl]
  | endTag =>
    simp only [next, hl, Prod.mk.injEq] at h
    obtain ⟨a, ha⟩ := beyond_append (by decide) h.2 hx
    have hdrop : (s ++ x).drop 2 = s.drop 2 ++ x := by
      rw [Lead.eq_of_endTag hl]
      rfl
    rw [← dropWhile_atMark (by decide) _ hx, ← hdrop] at ha
    refine ⟨.stop ⟨p, ((s ++ x).drop 2).takeWhile isNameChar,
      through ">".toList (((s ++ x).drop 2).dropWhile isNameChar)⟩, _, a, ?_, by simp, ha⟩
    rw [next, hlead, hl]
  | startTag =>
    simp only [next, hl, Prod.mk.injEq] at h
    exact absurd h.1.symm (hno _)

/-- A body that is closed stays as it is. -/
theorem body_append (h : tok.afterBody after ≠ []) (x : Text) :
    tok.body (after ++ x) = tok.body after ∧
      tok.afterBody (after ++ x) = tok.afterBody after ++ x := by
  cases tok with
  | raw | stop => exact ⟨rfl, rfl⟩
  | start t =>
    by_cases ht : t.isOpaque = true
    · simp only [body, afterBody, if_pos ht] at h ⊢
      have hkey := StartTag.not_mem_opaque ht
      have hcloses := onward_holds h
      have hagain := StartTag.closesBody_mono hcloses x
      obtain ⟨hup, hon⟩ := cut_atMark (fun _ _ => StartTag.closesBody_append hkey)
        (StartTag.atMark_of_closesBody (Or.inr hcloses)) (StartTag.atMark_of_closesBody (Or.inr hagain))
      obtain ⟨hup', hon'⟩ := cut_here (Or.inr hagain)
      rw [← List.append_assoc, upTo_append_onward] at hup hon
      rw [hup, hon, hup', hon', List.append_nil]
      exact ⟨rfl, rfl⟩
    · simp [body, afterBody, ht]

/-- A body that is not closed ends in what follows. -/
theorem afterBody_append_last (h : tok.afterBody after = []) (hx : AtMark x) :
    ∃ a, x = a ++ tok.afterBody (after ++ x) := by
  cases tok with
  | raw | stop =>
    have hnil : after = [] := h
    exact ⟨[], by rw [hnil]; rfl⟩
  | start t =>
    by_cases ht : t.isOpaque = true
    · simp only [afterBody, if_pos ht] at h ⊢
      have hup : upTo (StartTag.closesBody t.key) after = after := by
        have hcut := upTo_append_onward (StartTag.closesBody t.key) after
        rwa [h, List.append_nil] at hcut
      obtain ⟨-, hon⟩ := cut_atMark
        (fun _ _ => StartTag.closesBody_append (StartTag.not_mem_opaque ht)) (Or.inl h) hx
      rw [hup] at hon
      rw [hon]
      exact ⟨_, (upTo_append_onward (StartTag.closesBody t.key) x).symm⟩
    · simp only [afterBody, if_neg ht] at h ⊢
      exact ⟨[], by rw [h]; rfl⟩

/-- A token with more tokens behind it is read as before whatever follows. -/
theorem readsBefore_append (h : next p s = (tok, after)) (hafter : after ≠ []) (x : Text) :
    ReadsBefore tok (after ++ x) := by
  refine readsBefore_next h hafter (fun hl => Or.inr ?_)
  simp only [next, hl, Prod.mk.injEq] at h
  rw [← h.2] at hafter ⊢
  exact Lead.opensMarkup_mono (onward_holds hafter) x

/-- What follows changes nothing up to the last start tag, and adds none behind it. -/
def KeepsStarts (s x : Text) : Prop :=
  ∃ us vs vs', words s = us ++ vs ∧ words (s ++ x) = us ++ vs' ∧ (∀ t, Token.start t ∉ vs) ∧
    ∀ t, Token.start t ∉ vs'

theorem append_eq_of_next (h : next p s = (tok, after)) (x : Text) :
    s ++ x = tok.source ++ (after ++ x) := by
  have hwhole := source_append_next p s
  rw [h] at hwhole
  rw [← List.append_assoc, hwhole]

theorem source_ne_nil_of_next (hs : s ≠ []) (h : next p s = (tok, after)) : tok.source ≠ [] := by
  have hsource := source_next_ne_nil p s hs
  rwa [h] at hsource

/-- A token with more tokens behind it stays, and so does its body. -/
theorem words_append_next (hs : s ≠ []) (h : next p s = (tok, after))
    (hrest : tok.afterBody after ≠ []) (x : Text) : words (s ++ x) =
      tok.moveTo 0 :: (ofBody 0 (tok.body after) ++ words (tok.afterBody after ++ x)) := by
  have hafter : after ≠ [] := by
    rintro rfl
    cases tok with
    | raw | stop => exact hrest rfl
    | start t => by_cases ht : t.isOpaque = true <;> simp [afterBody, ht, onward] at hrest
  obtain ⟨hb, hb'⟩ := body_append hrest x
  have hread := readsBefore_append h hafter x
  rw [append_eq_of_next h, words_readsBefore hread (source_ne_nil_of_next hs h), hb, hb']

theorem keepsStarts_step (hs : s ≠ []) (h : next p s = (tok, after)) (hrest : tok.afterBody after ≠ [])
    (ih : KeepsStarts (tok.afterBody after) x) : KeepsStarts s x := by
  obtain ⟨us, vs, vs', hs', hsx, hvs, hvs'⟩ := ih
  refine ⟨tok.moveTo 0 :: (ofBody 0 (tok.body after) ++ us), vs, vs', ?_, ?_, hvs, hvs'⟩
  · rw [words_next hs h, hs', List.cons_append, List.append_assoc]
  · rw [words_append_next hs h hrest, hsx, List.cons_append, List.append_assoc]

/-- A start tag that comes last stays, and what follows may go on with its body. -/
theorem keepsStarts_start (hs : s ≠ []) (h : next p s = (.start t, after)) (ht : t.ending ≠ .missing)
    (hrest : (Token.start t).afterBody after = []) (hx : AtMark x) (hstart : Startless x) :
    KeepsStarts s x := by
  have hread := readsBefore_start h ht (after ++ x)
  obtain ⟨a, ha⟩ := afterBody_append_last hrest hx
  have hrest' : Startless ((Token.start t).afterBody (after ++ x)) := by
    rw [ha] at hstart
    exact hstart.suffix
  refine ⟨[(Token.start t).moveTo 0], ofBody 0 ((Token.start t).body after),
    ofBody 0 ((Token.start t).body (after ++ x)) ++ words ((Token.start t).afterBody (after ++ x)),
    ?_, ?_, not_start_ofBody 0 _, ?_⟩
  · rw [words_next hs h, hrest, words_nil, List.append_nil]
    rfl
  · rw [append_eq_of_next h, words_readsBefore hread (source_ne_nil_of_next hs h)]
    rfl
  · intro u hu
    rcases List.mem_append.mp hu with hu | hu
    · exact not_start_ofBody 0 _ u hu
    · exact not_start_words hrest' u hu

theorem words_of_next (hs : s ≠ []) (h : next p s = (tok, after)) (hno : ∀ t, tok ≠ .start t) :
    words s = tok.moveTo 0 :: words after := by
  rw [words_next hs h]
  cases tok with
  | raw | stop => rfl
  | start t => exact absurd rfl (hno t)

theorem not_start_cons {ts : List Token} (hno : ∀ t, tok ≠ .start t) (hts : ∀ t, Token.start t ∉ ts)
    (t : StartTag) : Token.start t ∉ tok.moveTo 0 :: ts := by
  intro ht
  rcases List.mem_cons.mp ht with heq | ht
  · cases tok with
    | raw | stop => cases heq
    | start u => exact hno u rfl
  · exact hts t ht

/-- Any other token that comes last may go on in what follows. -/
theorem keepsStarts_last (hs : s ≠ []) (h : next p s = (tok, [])) (hno : ∀ t, tok ≠ .start t)
    (hx : AtMark x) (hstart : Startless x) : KeepsStarts s x := by
  obtain ⟨tok', rest, a, h', hno', ha⟩ := next_append_last hs h hno hx
  have hrest : Startless rest := by
    rw [ha] at hstart
    exact hstart.suffix
  have hsx : s ++ x ≠ [] := List.append_ne_nil_of_left_ne_nil hs x
  refine ⟨[], [tok.moveTo 0], tok'.moveTo 0 :: words rest, ?_, words_of_next hsx h' hno', ?_, ?_⟩
  · rw [words_of_next hs h hno, words_nil]
    rfl
  · exact not_start_cons hno (fun _ => List.not_mem_nil)
  · exact not_start_cons hno' (not_start_words hrest)

/-- Where no start tag is cut off, a text without start tags that begins with a mark adds none. -/
theorem keepsStarts (p : Nat) (s : Text) (hends : ∀ t, Token.start t ∈ scanFrom p s → t.ending ≠ .missing)
    (hx : AtMark x) (hstart : Startless x) : KeepsStarts s x := by
  fun_induction scanFrom p s with
  | case1 => exact ⟨[], [], words x, words_nil, rfl, fun _ => List.not_mem_nil, not_start_words hstart⟩
  | case2 p s hs first after bodyAt body =>
    rename_i ih
    have hnext : next p s = (first, after) := rfl
    clear_value body bodyAt after first
    by_cases hrest : first.afterBody after = []
    · cases first with
      | start t => exact keepsStarts_start hs hnext (hends t (by simp)) hrest hx hstart
      | raw | stop =>
        have hafter : after = [] := hrest
        rw [hafter] at hnext
        exact keepsStarts_last hs hnext (by simp) hx hstart
    · exact keepsStarts_step hs hnext hrest (ih (fun t ht => hends t (by simp [ht])))

/-- A start tag that is read in the longer text stood in the shorter one. -/
theorem KeepsStarts.start (h : KeepsStarts s x) (ht : Token.start t ∈ scan (s ++ x)) :
    ∃ u, Token.start u ∈ scan s ∧ u.moveTo 0 = t.moveTo 0 := by
  obtain ⟨us, vs, vs', hs, hsx, -, hvs'⟩ := h
  have hmem := mem_words ht
  rw [hsx, List.mem_append] at hmem
  rcases hmem with hmem | hmem
  · apply start_of_words
    have hwhole : Token.start (t.moveTo 0) ∈ words s := by
      rw [hs]
      exact List.mem_append_left _ hmem
    exact hwhole
  · exact absurd hmem (hvs' _)

end Token
end TemplateTree
