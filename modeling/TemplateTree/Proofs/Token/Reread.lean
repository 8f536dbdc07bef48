import TemplateTree.Proofs.Markup.Success
import TemplateTree.Proofs.Token.Local
import Mathlib

/-! A token that was read to its end is read again from its own source, whatever comes behind it. -/
namespace TemplateTree

open Text

namespace Lead

variable {c : Char} {b r s x : Text}

theorem letter_of_startTag (h : Lead.of s = .startTag) :
    ∃ c r, s = '<' :: c :: r ∧ c.isAlpha = true := by
  unfold Lead.of at h
  split at h <;> grind

theorem letter_of_endTag (h : Lead.of s = .endTag) :
    ∃ c r, s = '<' :: '/' :: c :: r ∧ c.isAlpha = true := by
  unfold Lead.of at h
  split at h <;> grind

theorem mark_of_declaration (h : Lead.of s = .declaration) :
    ∃ c r, s = '<' :: c :: r ∧ (c = '!' ∨ c = '?') := by
  unfold Lead.of at h
  split at h <;> grind

/-- A declaration is told from a comment before its `>`. -/
theorem of_declaration (h : Lead.of ('<' :: c :: (b ++ '>' :: r)) = .declaration) (x : Text) :
    Lead.of ('<' :: c :: (b ++ '>' :: x)) = .declaration := by
  rcases b with _ | ⟨d, _ | ⟨e, b⟩⟩ <;> revert h <;> unfold Lead.of <;> grind

theorem of_bang (r : Text) :
    Lead.of ('<' :: '!' :: r) = if starts ['-', '-'] r then .comment else .declaration := by
  rcases r with _ | ⟨c, _ | ⟨d, r⟩⟩
  · rfl
  · simp [Lead.of, starts]
  · by_cases hc : c = '-'
    · by_cases hd : d = '-'
      · subst hc hd
        rfl
      · simp [Lead.of, starts, hc, hd, Ne.symm hd]
    · simp [Lead.of, starts, hc, Ne.symm hc]

theorem of_slash (r : Text) :
    Lead.of ('<' :: '/' :: r) = if r.head?.any Char.isAlpha then .endTag else .text := by
  cases r <;> rfl

theorem of_other (hbang : c ≠ '!') (hquery : c ≠ '?') (hslash : c ≠ '/') (r : Text) :
    Lead.of ('<' :: c :: r) = if c.isAlpha then .startTag else .text := by
  simp [Lead.of, hbang, hslash]

/-- A mark that follows does not change what stands before it. -/
theorem of_append (hb : b ≠ []) (hx : AtMark x) : Lead.of (b ++ x) = Lead.of b := by
  rcases hx with rfl | ⟨r, rfl⟩
  · rw [List.append_nil]
  · obtain ⟨c, b, rfl⟩ := List.exists_cons_of_ne_nil hb
    by_cases hc : c = '<'
    · subst hc
      cases b with
      | nil => rfl
      | cons d b =>
        by_cases hbang : d = '!'
        · subst hbang
          rw [List.cons_append, List.cons_append, of_bang, of_bang]
          rcases b with _ | ⟨e, _ | ⟨f, b⟩⟩ <;> simp [starts]
        · by_cases hslash : d = '/'
          · subst hslash
            rw [List.cons_append, List.cons_append, of_slash, of_slash]
            cases b <;> rfl
          · by_cases hquery : d = '?'
            · subst hquery
              rfl
            · rw [List.cons_append, List.cons_append, of_other hbang hquery hslash,
                of_other hbang hquery hslash]
    · rw [List.cons_append, of_ne_lt hc, of_ne_lt hc]

theorem opensMarkup_append (hb : b ≠ []) (hx : AtMark x) : opensMarkup (b ++ x) = opensMarkup b := by
  rw [opensMarkup, opensMarkup, of_append hb hx]

theorem opensMarkup_mark (hc : c = '!' ∨ c = '?') (r : Text) : opensMarkup ('<' :: c :: r) = true := by
  rcases hc with rfl | rfl
  · rw [opensMarkup, of_bang]
    split <;> rfl
  · rfl

/-- What begins markup does so whatever comes behind it. -/
theorem opensMarkup_mono (h : opensMarkup s = true) (x : Text) : opensMarkup (s ++ x) = true := by
  cases hl : Lead.of s with
  | text => simp [opensMarkup, hl] at h
  | comment =>
    rw [eq_of_comment hl]
    exact opensMarkup_mark (Or.inl rfl) _
  | declaration =>
    obtain ⟨c, r, rfl, hc⟩ := mark_of_declaration hl
    exact opensMarkup_mark hc (r ++ x)
  | endTag =>
    obtain ⟨c, r, rfl, hc⟩ := letter_of_endTag hl
    simp [opensMarkup, of_slash_letter hc]
  | startTag =>
    obtain ⟨c, r, rfl, hc⟩ := letter_of_startTag hl
    simp [opensMarkup, of_letter hc]

theorem atMark_of_opensMarkup (h : s = [] ∨ opensMarkup s = true) : AtMark s := by
  cases s with
  | nil => exact Or.inl rfl
  | cons c r =>
    have hc : opensMarkup (c :: r) = true := by simpa using h
    exact Or.inr ⟨r, by rw [opensMarkup_lt c r hc]⟩

end Lead

namespace Token

variable {o : Nat} {s x after : Text} {tok : Token} {t : StartTag}

/-- In front of `x` the source of the token reads as that token. -/
def ReadsBefore (tok : Token) (x : Text) : Prop :=
  next 0 (tok.source ++ x) = (tok.moveTo 0, x)

/-- The last token reads as itself at the end. -/
theorem readsBefore_last (h : next o s = (tok, [])) : ReadsBefore tok [] := by
  have hwhole := source_append_next o s
  rw [h] at hwhole
  rw [ReadsBefore, hwhole, next_moveTo 0 o s, h]

theorem onward_atMark (s : Text) : AtMark (onward opensMarkup s) :=
  Lead.atMark_of_opensMarkup (onward_cases opensMarkup s)

theorem readsBefore_text (h : Lead.of s = .text) (hs : s ≠ []) (o : Nat)
    (hx : x = [] ∨ opensMarkup x = true) : ReadsBefore (.raw o (upTo opensMarkup s)) x := by
  have hmark := Lead.atMark_of_opensMarkup hx
  obtain ⟨hup, hrest⟩ := cut_atMark (fun _ _ => Lead.opensMarkup_append) (onward_atMark s) hmark
  obtain ⟨hup', hrest'⟩ := cut_here hx
  rw [hup', List.append_nil] at hup
  have hno : opensMarkup s = false := by simp [opensMarkup, h]
  have hne : upTo opensMarkup s ≠ [] := by
    obtain ⟨c, r, rfl⟩ := List.exists_cons_of_ne_nil hs
    simp [upTo, hno]
  have hlead : Lead.of (upTo opensMarkup s ++ x) = .text := by
    rw [← upTo_append_onward opensMarkup s, Lead.opensMarkup_append hne (onward_atMark s)] at hno
    have hfront : opensMarkup (upTo opensMarkup s ++ x) = false :=
      (Lead.opensMarkup_append hne hmark).trans hno
    simpa [opensMarkup] using hfront
  rw [ReadsBefore, source, next, hlead]
  simp only [hup, hrest, hrest']
  rfl

theorem readsBefore_comment (h : Lead.of s = .comment) (o : Nat)
    (hword : onward (starts "-->".toList) (s.drop 4) ≠ []) (x : Text) :
    ReadsBefore (.raw o (s.take 4 ++ through "-->".toList (s.drop 4))) x := by
  have hs := Lead.eq_of_comment h
  have htake : s.take 4 = ['<', '!', '-', '-'] := by
    rw [hs]
    rfl
  obtain ⟨-, hthrough, hbeyond⟩ := through_append hword x
  have hlead : Lead.of ('<' :: '!' :: '-' :: '-' :: (through "-->".toList (s.drop 4) ++ x)) =
      .comment := rfl
  rw [ReadsBefore, source, htake]
  simp only [List.cons_append, List.nil_append]
  rw [next, hlead]
  simp only [List.drop_succ_cons, List.drop_zero, List.take_succ_cons, List.take_zero,
    hthrough, hbeyond]
  rfl

/-- The text through the first `>` ends in it. -/
theorem through_gt (h : onward (starts ['>']) s ≠ []) :
    ∃ b, through ['>'] s = b ++ ['>'] := by
  have hword := onward_holds h
  obtain ⟨z, hz⟩ := List.isPrefixOf_iff_prefix.mp hword
  refine ⟨upTo (starts ['>']) s, ?_⟩
  rw [through, ← hz]
  rfl

theorem through_mark {c : Char} (hc : c = '!' ∨ c = '?') (r : Text) :
    through ['>'] ('<' :: c :: r) = '<' :: c :: through ['>'] r ∧
      onward (starts ['>']) ('<' :: c :: r) = onward (starts ['>']) r := by
  rcases hc with rfl | rfl <;> simp [through, upTo, onward, starts]

theorem takeWhile_letter {c : Char} (hc : c.isAlpha = true) (r : Text) :
    (c :: r).takeWhile isNameChar = c :: r.takeWhile isNameChar := by
  simp [isNameChar, Char.isAlphanum, hc]

theorem readsBefore_declaration (h : Lead.of s = .declaration) (o : Nat)
    (hword : onward (starts ['>']) s ≠ []) (x : Text) : ReadsBefore (.raw o (through ['>'] s)) x := by
  obtain ⟨-, hthrough, hbeyond⟩ := through_append hword x
  obtain ⟨c, r, rfl, hc⟩ := Lead.mark_of_declaration h
  have hpass := through_mark hc r
  have hlead : Lead.of (through ['>'] ('<' :: c :: r) ++ x) = .declaration := by
    rw [hpass.2] at hword
    obtain ⟨b, hb⟩ := through_gt hword
    rw [← through_append_beyond ['>'] r, hb, List.append_assoc] at h
    rw [hpass.1, hb]
    simpa using Lead.of_declaration h x
  have hgt : ">".toList = ['>'] := rfl
  rw [ReadsBefore, source, next, hlead]
  simp only [hgt, hthrough, hbeyond]
  rfl

theorem readsBefore_endTag (h : Lead.of s = .endTag) (o : Nat)
    (hword : onward (starts ['>']) ((s.drop 2).dropWhile isNameChar) ≠ []) (x : Text) :
    ReadsBefore (.stop ⟨o, (s.drop 2).takeWhile isNameChar,
      through ['>'] ((s.drop 2).dropWhile isNameChar)⟩) x := by
  obtain ⟨c, r, rfl, hc⟩ := Lead.letter_of_endTag h
  simp only [List.drop_succ_cons, List.drop_zero] at hword ⊢
  let name := (c :: r).takeWhile isNameChar
  let tail := through ['>'] ((c :: r).dropWhile isNameChar)
  obtain ⟨-, hthrough, hbeyond⟩ := through_append hword x
  have hname : ∀ d ∈ name, isNameChar d = true := fun d hd => List.mem_takeWhile_imp hd
  have hne : tail ≠ [] := by
    obtain ⟨b, hb⟩ := through_gt hword
    simp [tail, hb]
  have hstop : (tail ++ x).takeWhile isNameChar = [] := by
    have hdone := takeWhile_dropWhile isNameChar (c :: r)
    rw [← through_append_beyond ['>'] ((c :: r).dropWhile isNameChar)] at hdone
    exact takeWhile_eq_nil_front hne hdone x
  obtain ⟨htake, hdrop⟩ := takeWhile_append_stop hname hstop
  have hfirst : name = c :: r.takeWhile isNameChar := takeWhile_letter hc r
  have hshape : '<' :: '/' :: name ++ tail ++ x = '<' :: '/' :: (name ++ (tail ++ x)) := by simp
  have hlead : Lead.of ('<' :: '/' :: (name ++ (tail ++ x))) = .endTag := by
    rw [hfirst]
    exact Lead.of_slash_letter hc _
  have hgt : ">".toList = ['>'] := rfl
  rw [ReadsBefore, source, EndTag.source, hshape, next, hlead]
  simp only [List.drop_succ_cons, List.drop_zero, htake, hdrop, hgt, tail, hthrough, hbeyond]
  rfl

theorem readsBefore_startTag (h : Lead.of s = .startTag) (o : Nat)
    (hm : (StartTag.tailOf ((s.drop 1).dropWhile isNameChar)).ending ≠ .missing) (x : Text) :
    ReadsBefore (.start ⟨o, (s.drop 1).takeWhile isNameChar,
      (StartTag.tailOf ((s.drop 1).dropWhile isNameChar)).source,
      (StartTag.tailOf ((s.drop 1).dropWhile isNameChar)).attributes,
      (StartTag.tailOf ((s.drop 1).dropWhile isNameChar)).ending⟩) x := by
  obtain ⟨c, r, rfl, hc⟩ := Lead.letter_of_startTag h
  simp only [List.drop_succ_cons, List.drop_zero] at hm ⊢
  let name := (c :: r).takeWhile isNameChar
  let tail := StartTag.tailOf ((c :: r).dropWhile isNameChar)
  have hread := StartTag.tailOf_append hm x
  have hname : ∀ d ∈ name, isNameChar d = true := fun d hd => List.mem_takeWhile_imp hd
  have hstop : (tail.source ++ x).takeWhile isNameChar = [] := by
    have hdone := takeWhile_dropWhile isNameChar (c :: r)
    rw [← StartTag.source_append_rest_tailOf ((c :: r).dropWhile isNameChar)] at hdone
    exact takeWhile_eq_nil_front (StartTag.source_tailOf_ne_nil hm) hdone x
  obtain ⟨htake, hdrop⟩ := takeWhile_append_stop hname hstop
  have hfirst : name = c :: r.takeWhile isNameChar := takeWhile_letter hc r
  have hshape : '<' :: name ++ tail.source ++ x = '<' :: (name ++ (tail.source ++ x)) := by simp
  have hlead : Lead.of ('<' :: (name ++ (tail.source ++ x))) = .startTag := by
    rw [hfirst]
    exact Lead.of_letter hc _
  rw [ReadsBefore, source, StartTag.source, hshape, next, hlead]
  simp only [List.drop_succ_cons, List.drop_zero, htake, hdrop, tail, hread]
  rfl

/-- A start tag that ends reads as itself, whatever comes behind it. -/
theorem readsBefore_start (h : next o s = (.start t, after)) (ht : t.ending ≠ .missing) (x : Text) :
    ReadsBefore (.start t) x := by
  cases hl : Lead.of s with
  | startTag =>
    simp only [next, hl, Prod.mk.injEq, Token.start.injEq] at h
    obtain ⟨rfl, -⟩ := h
    exact readsBefore_startTag hl o ht x
  | text | comment | declaration | endTag => simp [next, hl] at h

/-- Any token that is not the last reads as itself. What comes behind a text has to be markup. -/
theorem readsBefore_next (h : next o s = (tok, after)) (hafter : after ≠ [])
    (hx : Lead.of s = .text → x = [] ∨ opensMarkup x = true) : ReadsBefore tok x := by
  cases hl : Lead.of s with
  | text =>
    simp only [next, hl, Prod.mk.injEq] at h
    obtain ⟨rfl, rfl⟩ := h
    have hs : s ≠ [] := by
      rintro rfl
      exact hafter rfl
    exact readsBefore_text hl hs o (hx hl)
  | comment =>
    simp only [next, hl, Prod.mk.injEq] at h
    obtain ⟨rfl, rfl⟩ := h
    exact readsBefore_comment hl o (onward_of_beyond hafter) x
  | declaration =>
    simp only [next, hl, Prod.mk.injEq] at h
    obtain ⟨rfl, rfl⟩ := h
    exact readsBefore_declaration hl o (onward_of_beyond hafter) x
  | endTag =>
    simp only [next, hl, Prod.mk.injEq] at h
    obtain ⟨rfl, rfl⟩ := h
    exact readsBefore_endTag hl o (onward_of_beyond hafter) x
  | startTag =>
    simp only [next, hl, Prod.mk.injEq] at h
    obtain ⟨rfl, rfl⟩ := h
    refine readsBefore_startTag hl o ?_ x
    intro hm
    exact hafter (StartTag.rest_of_missing hm)

theorem words_readsBefore (h : ReadsBefore tok x) (hne : tok.source ≠ []) : words (tok.source ++ x) =
    tok.moveTo 0 :: (ofBody 0 (tok.body x) ++ words (tok.afterBody x)) := by
  have hs : tok.source ++ x ≠ [] := List.append_ne_nil_of_left_ne_nil hne _
  rw [words_next hs h, moveTo_moveTo, body_moveTo, afterBody_moveTo]

/-- Markup is told from text by its own source. -/
theorem opensMarkup_next (h : next o s = (tok, after)) (hl : Lead.of s ≠ .text) (x : Text) :
    opensMarkup (tok.source ++ x) = true := by
  cases hs : Lead.of s with
  | text => exact absurd hs hl
  | comment =>
    simp only [next, hs, Prod.mk.injEq] at h
    obtain ⟨rfl, -⟩ := h
    rw [Lead.eq_of_comment hs]
    exact Lead.opensMarkup_mark (Or.inl rfl) _
  | declaration =>
    simp only [next, hs, Prod.mk.injEq] at h
    obtain ⟨rfl, -⟩ := h
    obtain ⟨c, r, rfl, hc⟩ := Lead.mark_of_declaration hs
    have hgt : ">".toList = ['>'] := rfl
    rw [source, hgt, (through_mark hc r).1]
    exact Lead.opensMarkup_mark hc _
  | endTag =>
    simp only [next, hs, Prod.mk.injEq] at h
    obtain ⟨rfl, -⟩ := h
    obtain ⟨c, r, rfl, hc⟩ := Lead.letter_of_endTag hs
    simp [source, EndTag.source, takeWhile_letter hc, opensMarkup, Lead.of_slash_letter hc]
  | startTag =>
    simp only [next, hs, Prod.mk.injEq] at h
    obtain ⟨rfl, -⟩ := h
    obtain ⟨c, r, rfl, hc⟩ := Lead.letter_of_startTag hs
    simp [source, StartTag.source, takeWhile_letter hc, opensMarkup, Lead.of_letter hc]

end Token

namespace StartTag

variable {b key x : Text} {t : StartTag}

/-- A `<` that follows cannot make an end tag of the text before it. -/
theorem closesBody_append (hkey : '<' ∉ key) (hb : b ≠ []) (hx : AtMark x) :
    closesBody key (b ++ x) = closesBody key b := by
  rcases hx with rfl | ⟨r, rfl⟩
  · rw [List.append_nil]
  · rcases b with _ | ⟨c, _ | ⟨d, u⟩⟩
    · exact absurd rfl hb
    · by_cases hc : c = '<' <;> simp [closesBody, hc]
    · by_cases hcd : c = '<' ∧ d = '/'
      · obtain ⟨rfl, rfl⟩ := hcd
        simp only [List.cons_append, closesBody]
        by_cases hlen : key.length ≤ u.length
        · have hlt : isTagBlank '<' = false := by decide
          rw [List.take_append_of_le_length hlen, List.drop_append_of_le_length hlen,
            List.dropWhile_append]
          cases hd : (u.drop key.length).dropWhile isTagBlank with
          | nil => simp [hlt]
          | cons e v => simp
        · have hshort : lower (u.take key.length) ≠ key := by
            intro h
            have := congrArg List.length h
            simp only [lower, List.length_map, List.length_take] at this
            omega
          have hlong : lower ((u ++ '<' :: r).take key.length) ≠ key := by
            intro h
            apply hkey
            rw [← h, lower, List.mem_map]
            refine ⟨'<', ?_, by decide⟩
            rw [List.take_append]
            apply List.mem_append_right
            obtain ⟨n, hn⟩ : ∃ n, key.length - u.length = n + 1 :=
              ⟨key.length - u.length - 1, by omega⟩
            simp [hn]
          rw [beq_false_of_ne hshort, beq_false_of_ne hlong]
          rfl
      · unfold closesBody
        split <;> split <;> simp_all

/-- Where a body is closed: a slash and the name, perhaps blanks, and a `>`. -/
theorem closesBody_iff {s : Text} : closesBody key s = true ↔
    ∃ name g z, s = '<' :: '/' :: (name ++ (g ++ '>' :: z)) ∧ lower name = key ∧
      ∀ c ∈ g, isTagBlank c = true := by
  constructor
  · intro h
    unfold closesBody at h
    split at h
    · next r =>
      simp only [Bool.and_eq_true, beq_iff_eq] at h
      obtain ⟨hname, hhead⟩ := h
      obtain ⟨z, hz⟩ : ∃ z, (r.drop key.length).dropWhile isTagBlank = '>' :: z := by
        cases hd : (r.drop key.length).dropWhile isTagBlank with
        | nil => simp [hd] at hhead
        | cons c z => exact ⟨z, by simpa [hd] using hhead⟩
      refine ⟨r.take key.length, (r.drop key.length).takeWhile isTagBlank, z, ?_, hname, ?_⟩
      · rw [← hz, List.takeWhile_append_dropWhile, List.take_append_drop]
      · exact fun c hc => List.mem_takeWhile_imp hc
    · cases h
  · rintro ⟨name, g, z, rfl, rfl, hg⟩
    have hlen : (lower name).length = name.length := List.length_map ..
    have hgt : isTagBlank '>' = false := by decide
    simp only [closesBody, hlen, List.take_left, List.drop_left, beq_self_eq_true, Bool.true_and]
    rw [List.dropWhile_append_of_pos hg, List.dropWhile_cons_of_neg (by simp [hgt])]
    rfl

theorem closesBody_mono {s : Text} (h : closesBody key s = true) (x : Text) :
    closesBody key (s ++ x) = true := by
  obtain ⟨name, g, z, rfl, hname, hg⟩ := closesBody_iff.mp h
  exact closesBody_iff.mpr ⟨name, g, z ++ x, by simp, hname, hg⟩

/-- The end tag that closes a body is read as one. -/
theorem next_closing {name g : Text} (hname : lower name ∈ opaqueNames)
    (hg : ∀ c ∈ g, isTagBlank c = true) (o : Nat) (z : Text) :
    Token.next o ('<' :: '/' :: (name ++ (g ++ '>' :: z))) = (.stop ⟨o, name, g ++ ['>']⟩, z) := by
  have hletters : ∀ n ∈ opaqueNames, n ≠ [] ∧ n.all Char.isAlpha = true := by decide
  obtain ⟨hne, hall⟩ := hletters _ hname
  have halpha : ∀ c ∈ name, c.isAlpha = true := by
    intro c hc
    rw [← Char.isAlpha_toLower_eq_isAlpha]
    exact List.all_eq_true.mp hall _ (List.mem_map_of_mem hc)
  have hchars : ∀ c ∈ name, isNameChar c = true := by
    intro c hc
    simp [isNameChar, Char.isAlphanum, halpha c hc]
  have hblank : ∀ c ∈ g, isNameChar c = false ∧ c ≠ '>' := by
    intro c hc
    have := hg c hc
    simp only [isTagBlank, Bool.or_eq_true, beq_iff_eq] at this
    rcases this with (((rfl | rfl) | rfl) | rfl) | rfl <;> decide
  have hstop : (g ++ '>' :: z).takeWhile isNameChar = [] := by
    cases g with
    | nil => simp [isNameChar]
    | cons c g => simp [(hblank c (by simp)).1]
  obtain ⟨htake, hdrop⟩ := takeWhile_append_stop hchars hstop
  obtain ⟨-, hthrough, hbeyond⟩ := cut_char '>' (fun hm => (hblank _ hm).2 rfl) z
  have hlead : Lead.of ('<' :: '/' :: (name ++ (g ++ '>' :: z))) = .endTag := by
    cases name with
    | nil => exact absurd rfl hne
    | cons c name => exact Lead.of_slash_letter (halpha c (by simp)) _
  have hgt : ">".toList = ['>'] := rfl
  rw [Token.next, hlead]
  simp only [List.drop_succ_cons, List.drop_zero, htake, hdrop, hgt, hthrough, hbeyond]

theorem scanFrom_closing {name g : Text} (hname : lower name ∈ opaqueNames)
    (hg : ∀ c ∈ g, isTagBlank c = true) (o : Nat) (z : Text) :
    Token.scanFrom o ('<' :: '/' :: (name ++ (g ++ '>' :: z))) = .stop ⟨o, name, g ++ ['>']⟩ ::
      Token.scanFrom (o + byteSize (EndTag.source ⟨o, name, g ++ ['>']⟩)) z := by
  rw [Token.scanFrom, if_neg (List.cons_ne_nil _ _), next_closing hname hg o z]
  simp [Token.body, Token.ofBody, Token.afterBody, Token.source, byteSize]

/-- It closes the body wherever it stands. -/
theorem next_closesBody (hkey : key ∈ opaqueNames) {s : Text} (h : closesBody key s = true) (o : Nat) :
    ∃ e after, Token.next o s = (.stop e, after) ∧ e.key = key ∧
      ∀ x, closesBody key (e.source ++ x) = true := by
  obtain ⟨name, g, z, rfl, rfl, hg⟩ := closesBody_iff.mp h
  refine ⟨⟨o, name, g ++ ['>']⟩, z, next_closing hkey hg o z, rfl, fun x => ?_⟩
  exact closesBody_iff.mpr ⟨name, g, x, by simp [EndTag.source], rfl, hg⟩

theorem key_mem_opaqueNames (h : t.isOpaque = true) : t.key ∈ opaqueNames :=
  List.contains_iff_mem.mp (Bool.and_eq_true_iff.mp h).2

theorem not_mem_opaque (h : t.isOpaque = true) : '<' ∉ t.key := by
  have hmark : ∀ n ∈ opaqueNames, '<' ∉ n := by decide
  exact hmark _ (key_mem_opaqueNames h)

theorem atMark_of_closesBody (h : x = [] ∨ closesBody key x = true) : AtMark x := by
  cases x with
  | nil => exact Or.inl rfl
  | cons c r =>
    have hc : closesBody key (c :: r) = true := by simpa using h
    exact Or.inr ⟨r, by rw [closesBody_lt c r hc]⟩

end StartTag
end TemplateTree
