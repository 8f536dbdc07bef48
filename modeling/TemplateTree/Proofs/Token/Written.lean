import TemplateTree.Proofs.Attribute.Written
import TemplateTree.Token.Lexer
import TemplateTree.Markup.Nodes

/-! Tags as they are written, read again. Each one reads as a single token, and what follows it is
left alone. -/
namespace TemplateTree

open Text

theorem Text.cut_append {here : Text → Bool} {q : Char} {s x : Text}
    (hq : ∀ c r, here (c :: r) = true → c = q) (hs : q ∉ s) (hx : x = [] ∨ here x = true) :
    upTo here (s ++ x) = s ∧ onward here (s ++ x) = x := by
  induction s with
  | nil =>
    cases x with
    | nil => exact ⟨rfl, rfl⟩
    | cons c r =>
      have hc : here (c :: r) = true := by simpa using hx
      simp [upTo, onward, hc]
  | cons c s ih =>
    have hc : here (c :: (s ++ x)) = false := by
      refine Bool.eq_false_iff.mpr (fun h => hs ?_)
      rw [hq c _ h]
      exact List.mem_cons_self ..
    obtain ⟨hup, hon⟩ := ih (fun h => hs (by simp [h]))
    simp [upTo, onward, hc, hup, hon]

theorem Text.cut_char (q : Char) {s : Text} (hs : q ∉ s) (x : Text) :
    upTo (starts [q]) (s ++ q :: x) = s ∧ through [q] (s ++ q :: x) = s ++ [q] ∧
      beyond [q] (s ++ q :: x) = x := by
  have hq : ∀ c r, starts [q] (c :: r) = true → c = q := by
    intro c r h
    have hc : q = c := by simpa [starts] using h
    exact hc.symm
  obtain ⟨hup, hon⟩ := cut_append hq hs (Or.inr (by simp [starts] : starts [q] (q :: x) = true))
  simp [through, beyond, hup, hon]

theorem Text.takeWhile_append_stop {p : Char → Bool} {s x : Text} (hs : ∀ c ∈ s, p c = true)
    (hx : x.takeWhile p = []) : (s ++ x).takeWhile p = s ∧ (s ++ x).dropWhile p = x := by
  have hdrop : x.dropWhile p = x := by
    have h := List.takeWhile_append_dropWhile (p := p) (l := x)
    rwa [hx, List.nil_append] at h
  rw [List.takeWhile_append_of_pos hs, List.dropWhile_append_of_pos hs, hx, hdrop]
  simp

/-- A letter, and then letters, digits and the marks of a name. -/
def Text.IsElementName (name : Text) : Prop :=
  ∃ c r, name = c :: r ∧ c.isAlpha = true ∧ r.all isNameChar = true

theorem Text.IsElementName.chars {name : Text} (h : name.IsElementName) :
    ∀ c ∈ name, isNameChar c = true := by
  obtain ⟨c, r, rfl, hc, hr⟩ := h
  intro d hd
  rcases List.mem_cons.mp hd with rfl | hd
  · simp [isNameChar, Char.isAlphanum, hc]
  · exact List.all_eq_true.mp hr d hd

namespace Tag

/-- How the written tag ends. -/
def ending (t : Tag) : TagEnd := if t.slash then .selfClosed else .closed

/-- The tag as it is read from where it was written. -/
def start (t : Tag) (offset : Nat) : StartTag :=
  ⟨offset, t.name, t.attributes.render ++ t.slot, t.attributes.written, t.ending⟩

end Tag

namespace StartTag

theorem tailOf_skip {c : Char} (hgt : c ≠ '>') (hslash : c ≠ '/') (hc : isAttributeChar c = false)
    (r : Text) : tailOf (c :: r) = { tailOf r with source := c :: (tailOf r).source } := by
  rw [tailOf]
  · simp [hc]
  · simpa using hgt
  · simp [hslash]

theorem tailOf_name {name x : Text} (hne : name ≠ []) (hname : ∀ c ∈ name, isAttributeChar c = true)
    (hx : x.takeWhile isAttributeChar = []) : tailOf (name ++ x) =
      { tailOf (assigned x).rest with
        source := name ++ ((assigned x).source ++ (tailOf (assigned x).rest).source)
        attributes := (name, (assigned x).value) :: (tailOf (assigned x).rest).attributes } := by
  cases name with
  | nil => exact absurd rfl hne
  | cons c r =>
    have hc : isAttributeChar c = true := hname c (by simp)
    have hr : ∀ d ∈ r, isAttributeChar d = true := fun d hd => hname d (by simp [hd])
    obtain ⟨htake, hdrop⟩ := takeWhile_append_stop hr hx
    rw [List.cons_append, tailOf]
    · simp [hc, htake, hdrop]
    · rintro rfl
      simp [isAttributeChar, isNameChar] at hc
    · rintro y rfl
      simp [isAttributeChar, isNameChar] at hc

theorem assigned_quoted {v : Text} (hv : '"' ∉ v) (x : Text) :
    assigned ('=' :: '"' :: (v ++ '"' :: x)) = ⟨'=' :: '"' :: (v ++ ['"']), some v, x⟩ := by
  obtain ⟨hup, hthrough, hbeyond⟩ := cut_char '"' hv x
  have hblank : isTagBlank '=' = false := by decide
  have hquote : isTagBlank '"' = false := by decide
  simp [assigned, hblank, hquote, quoted, hup, hthrough, hbeyond]

theorem assigned_none {x : Text} (h : (x.dropWhile isTagBlank).head? ≠ some '=') :
    assigned x = ⟨[], none, x⟩ := by
  unfold assigned
  split
  · next r hr => simp [hr] at h
  · rfl

/-- The part of a written tag after its name. -/
def writtenTail (es : List (AttrKey × Option Text)) (t : Tag) (rest : Text) : Text :=
  es.flatMap Attributes.renderEntry ++ (t.slot ++ rest)

variable {es : List (AttrKey × Option Text)} {t : Tag}

theorem attributeChar_stops {c : Char} (hc : isAttributeChar c = true) :
    isTagBlank c = false ∧ c ≠ '=' := by
  constructor
  · refine Bool.eq_false_iff.mpr (fun hb => ?_)
    simp only [isTagBlank, Bool.or_eq_true, beq_iff_eq] at hb
    rcases hb with (((rfl | rfl) | rfl) | rfl) | rfl <;> revert hc <;> decide
  · rintro rfl
    revert hc
    decide

/-- No attribute name goes on there, and no value follows. -/
theorem writtenTail_stops (h : ∀ e ∈ es, e.1.Canonical) (rest : Text) :
    (writtenTail es t rest).takeWhile isAttributeChar = [] ∧
      ((writtenTail es t rest).dropWhile isTagBlank).head? ≠ some '=' := by
  cases es with
  | nil =>
    cases hs : t.slash <;>
      simp [writtenTail, Tag.slot, hs, isAttributeChar, isNameChar, isTagBlank]
  | cons e r =>
    obtain ⟨k, v⟩ := e
    have hk : k.Canonical := h (k, v) (by simp)
    obtain ⟨c, name, hn⟩ := List.exists_cons_of_ne_nil hk.ne_nil
    obtain ⟨hblank, heq⟩ := attributeChar_stops (List.all_eq_true.mp hk.chars c (by simp [hn]))
    obtain ⟨y, hy⟩ : ∃ y, writtenTail ((k, v) :: r) t rest = ' ' :: c :: y := by
      cases v <;> simp [writtenTail, Attributes.renderEntry, hn]
    have hspace : isTagBlank ' ' = true ∧ isAttributeChar ' ' = false := by decide
    simp [hy, hspace, hblank, heq]

/-- A written tail reads as its attributes, and what follows the tag is left. -/
theorem tailOf_writtenTail (h : ∀ e ∈ es, e.1.Canonical) (rest : Text) :
    tailOf (writtenTail es t rest) = ⟨es.flatMap Attributes.renderEntry ++ t.slot,
      es.map fun e => (e.1.markupName, e.2.map Reference.escape), t.ending, rest⟩ := by
  induction es with
  | nil =>
    cases hs : t.slash <;> simp [writtenTail, Tag.slot, Tag.ending, hs, tailOf]
  | cons e r ih =>
    obtain ⟨k, v⟩ := e
    have hk : k.Canonical := h (k, v) (by simp)
    have hr : ∀ e ∈ r, e.1.Canonical := fun e he => h e (by simp [he])
    obtain ⟨hstop, hnone⟩ := writtenTail_stops hr rest (t := t)
    cases v with
    | none =>
      have hshape : writtenTail ((k, none) :: r) t rest =
          ' ' :: (k.markupName ++ writtenTail r t rest) := by
        simp [writtenTail, Attributes.renderEntry]
      rw [hshape, tailOf_skip (by decide) (by decide) (by decide),
        tailOf_name hk.ne_nil (List.all_eq_true.mp hk.chars) hstop, assigned_none hnone, ih hr]
      simp [Attributes.renderEntry]
    | some value =>
      have hshape : writtenTail ((k, some value) :: r) t rest = ' ' :: (k.markupName ++
          ('=' :: '"' :: (Reference.escape value ++ '"' :: writtenTail r t rest))) := by
        simp [writtenTail, Attributes.renderEntry]
      rw [hshape, tailOf_skip (by decide) (by decide) (by decide),
        tailOf_name hk.ne_nil (List.all_eq_true.mp hk.chars) (by simp [isAttributeChar, isNameChar]),
        assigned_quoted (Reference.quote_not_mem_escape value), ih hr]
      simp [Attributes.renderEntry]

end StartTag

variable {c : Char} {r s x name : Text}

theorem Lead.of_letter (hc : c.isAlpha = true) (r : Text) : Lead.of ('<' :: c :: r) = .startTag := by
  have hmarks : c ≠ '!' ∧ c ≠ '?' ∧ c ≠ '/' := by
    refine ⟨?_, ?_, ?_⟩
    all_goals
      rintro rfl
      revert hc
      decide
  unfold Lead.of
  split <;> simp_all

theorem Lead.of_slash_letter (hc : c.isAlpha = true) (r : Text) :
    Lead.of ('<' :: '/' :: c :: r) = .endTag := by
  simp [Lead.of, hc]

theorem Lead.of_ne_lt (hc : c ≠ '<') (r : Text) : Lead.of (c :: r) = .text := by
  simp [Lead.of, hc]

theorem opensMarkup_lt (c : Char) (r : Text) (h : opensMarkup (c :: r) = true) : c = '<' := by
  by_cases hc : c = '<'
  · exact hc
  · simp [opensMarkup, Lead.of_ne_lt hc] at h

theorem StartTag.closesBody_lt {key : Text} (c : Char) (r : Text)
    (h : closesBody key (c :: r) = true) : c = '<' := by
  by_cases hc : c = '<'
  · exact hc
  · simp [closesBody, hc] at h

namespace Tag

/-- The written tag. -/
def opening (t : Tag) : Text := '<' :: t.name ++ (t.attributes.render ++ t.slot)

/-- The tag can be written and read. A slash stands on void elements only. -/
structure Canonical (t : Tag) : Prop where
  name : t.name.IsElementName
  keys : ∀ k ∈ t.attributes.keys, k.Canonical
  slash : t.slash = true → t.isVoid = true

variable {t : Tag}

theorem opensMarkup_opening (ht : t.Canonical) (x : Text) : opensMarkup (t.opening ++ x) = true := by
  obtain ⟨c, r, hname, hc, -⟩ := ht.name
  simp [opensMarkup, opening, hname, Lead.of_letter hc]

theorem opensMarkup_closer (hname : name.IsElementName) (x : Text) :
    opensMarkup (Markup.closer name ++ x) = true := by
  obtain ⟨c, r, rfl, hc, -⟩ := hname
  simp [opensMarkup, Markup.closer, Lead.of_slash_letter hc]

/-- A tag is read by its name and its keys, whether a slash may stand in it or not. -/
theorem next_of_keys (hname : t.name.IsElementName) (hkeys : ∀ k ∈ t.attributes.keys, k.Canonical)
    (offset : Nat) (x : Text) : Token.next offset (t.opening ++ x) = (.start (t.start offset), x) := by
  have hentries : ∀ e ∈ t.attributes.entries, e.1.Canonical := fun e he =>
    hkeys e.1 (List.mem_map_of_mem he)
  have hshape : t.opening ++ x =
      '<' :: (t.name ++ StartTag.writtenTail t.attributes.entries t x) := by
    simp [opening, StartTag.writtenTail, Attributes.render]
  have hlead : Lead.of (t.opening ++ x) = .startTag := by
    obtain ⟨c, r, hletter, hc, -⟩ := hname
    simp [opening, hletter, Lead.of_letter hc]
  have hstop : (StartTag.writtenTail t.attributes.entries t x).takeWhile isNameChar = [] := by
    have h := (StartTag.writtenTail_stops hentries x (t := t)).1
    cases hw : StartTag.writtenTail t.attributes.entries t x with
    | nil => rfl
    | cons d w =>
      have hd : isAttributeChar d = false := by simpa [hw, List.takeWhile_cons] using h
      have hn : isNameChar d = false := by
        simp only [isAttributeChar, Bool.or_eq_false_iff] at hd
        exact hd.1.1
      simp [hn]
  obtain ⟨htake, hdrop⟩ := takeWhile_append_stop hname.chars hstop
  rw [Token.next, hlead, hshape]
  simp only [List.drop_succ_cons, List.drop_zero, htake, hdrop, StartTag.tailOf_writtenTail hentries]
  rfl

theorem next_opening (ht : t.Canonical) (offset : Nat) (x : Text) :
    Token.next offset (t.opening ++ x) = (.start (t.start offset), x) :=
  next_of_keys ht.name ht.keys offset x

theorem next_closer (hname : name.IsElementName) (offset : Nat) (x : Text) :
    Token.next offset (Markup.closer name ++ x) = (.stop ⟨offset, name, ['>']⟩, x) := by
  have hshape : Markup.closer name ++ x = '<' :: '/' :: (name ++ '>' :: x) := by
    simp [Markup.closer]
  have hlead : Lead.of (Markup.closer name ++ x) = .endTag := by
    obtain ⟨c, r, rfl, hc, -⟩ := hname
    simp [Markup.closer, Lead.of_slash_letter hc]
  have hstop : ('>' :: x).takeWhile isNameChar = [] := by simp [isNameChar]
  obtain ⟨htake, hdrop⟩ := takeWhile_append_stop hname.chars hstop
  obtain ⟨-, hthrough, hbeyond⟩ := cut_char '>' (List.not_mem_nil) x
  have hgt : ">".toList = ['>'] := rfl
  rw [Token.next, hlead, hshape]
  simp only [List.drop_succ_cons, List.drop_zero, htake, hdrop, hgt]
  simp only [List.nil_append] at hthrough hbeyond
  rw [hthrough, hbeyond]

end Tag

namespace Token

variable {t : Tag}

/-- A token that is followed by markup reads off the front of the input. -/
theorem scanFrom_next {offset : Nat} {tok : Token} (hs : s ≠ []) (h : next offset s = (tok, x))
    (hbody : tok.afterBody x = x) : ∃ o, scanFrom offset s = tok :: scanFrom o x := by
  have hnil : tok.body x = [] := by
    have := body_append_afterBody tok x
    rw [hbody] at this
    exact List.append_left_eq_self.mp this
  refine ⟨offset + byteSize tok.source + byteSize [], ?_⟩
  rw [scanFrom, if_neg hs, h]
  simp [hnil, hbody, ofBody]

theorem scanFrom_text (offset : Nat) (hs : s ≠ []) (hlt : '<' ∉ s)
    (hx : x = [] ∨ opensMarkup x = true) :
    ∃ o, scanFrom offset (s ++ x) = .raw offset s :: scanFrom o x := by
  obtain ⟨c, r, rfl⟩ := List.exists_cons_of_ne_nil hs
  have hlead : Lead.of (c :: r ++ x) = .text :=
    Lead.of_ne_lt (fun h => hlt (by simp [h])) (r ++ x)
  obtain ⟨hup, hon⟩ := cut_append opensMarkup_lt hlt hx
  refine scanFrom_next (by simp) ?_ rfl
  rw [next, hlead]
  simp only [hup, hon]

theorem scanFrom_closer (offset : Nat) (hname : name.IsElementName) (x : Text) :
    ∃ o, scanFrom offset (Markup.closer name ++ x) = .stop ⟨offset, name, ['>']⟩ :: scanFrom o x :=
  scanFrom_next (by simp [Markup.closer]) (Tag.next_closer hname offset x) rfl

theorem scanFrom_opening (offset : Nat) (ht : t.Canonical)
    (hscript : (t.start offset).isOpaque = false) (x : Text) :
    ∃ o, scanFrom offset (t.opening ++ x) = .start (t.start offset) :: scanFrom o x :=
  scanFrom_next (by simp [Tag.opening]) (Tag.next_opening ht offset x)
    (by simp [afterBody, hscript])

/-- The body of a script ends with its own closer when there is no markup in it. -/
theorem scanFrom_opaque (offset : Nat) (ht : t.Canonical)
    (hscript : (t.start offset).isOpaque = true) (hlt : '<' ∉ s) (x : Text) :
    ∃ o o', scanFrom offset (t.opening ++ (s ++ (Markup.closer t.name ++ x))) =
      .start (t.start offset) :: (ofBody o s ++ scanFrom o' (Markup.closer t.name ++ x)) := by
  have hcloses : StartTag.closesBody (t.start offset).key (Markup.closer t.name ++ x) = true := by
    have hlen : (t.start offset).key.length = t.name.length := by
      simp [StartTag.key, Tag.start, lower]
    have hgt : isTagBlank '>' = false := by decide
    simp [Markup.closer, StartTag.closesBody, hlen, hgt]
    rfl
  obtain ⟨hup, hon⟩ := cut_append StartTag.closesBody_lt hlt (Or.inr hcloses)
  rw [scanFrom, if_neg (by simp [Tag.opening]), Tag.next_opening ht]
  simp only [body, afterBody, hscript, if_true, hup, hon]
  exact ⟨_, _, rfl⟩

end Token
end TemplateTree
