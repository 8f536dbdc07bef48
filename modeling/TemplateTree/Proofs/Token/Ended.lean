import TemplateTree.Proofs.Token.Startless

/-! Texts that are read to their end. When the last token has its terminator and no element is left
open, nothing of the text goes on in what follows, so the tokens of the whole are those of both
parts. -/
namespace TemplateTree

open Text
open Elements (Nesting)

/-- A word at the end of a text is found, there or before. -/
theorem Text.onward_of_suffix {w s : Text} (hw : w ≠ []) (h : w.isSuffixOf s = true) :
    onward (starts w) s ≠ [] := by
  obtain ⟨b, rfl⟩ := List.isSuffixOf_iff_suffix.mp h
  clear h
  have hself : starts w w = true := List.isPrefixOf_iff_prefix.mpr List.prefix_rfl
  induction b with
  | nil =>
    obtain ⟨c, r, rfl⟩ := List.exists_cons_of_ne_nil hw
    simp [onward, hself]
  | cons c b ih =>
    rw [List.cons_append, onward]
    split
    · exact List.cons_ne_nil _ _
    · exact ih

theorem StartTag.opens_of_isOpaque {t : StartTag} (h : t.isOpaque = true) : t.opens = true := by
  have hdisjoint : ∀ n ∈ opaqueNames, n ∉ voidNames := by decide
  obtain ⟨hclosed, hkey⟩ := Bool.and_eq_true_iff.mp h
  have hvoid : t.isVoid = false := by
    simpa [isVoid] using hdisjoint _ (List.contains_iff_mem.mp hkey)
  rw [opens, hclosed, hvoid]
  rfl

namespace Token

variable {o p : Nat} {s : Text} {tok : Token} {n : Nesting}

/-- True when the token stops at its own terminator. A text has none and goes on up to the next
markup. -/
def isEnded : Token → Bool
  | raw _ s =>
    match Lead.of s with
    | .comment => "-->".toList.isSuffixOf (s.drop 4)
    | .declaration => ">".toList.isSuffixOf s
    | _ => false
  | start t => t.ending != .missing
  | stop e => ">".toList.isSuffixOf e.tail

/-- A last token that has its terminator reads as itself, whatever comes behind it. -/
theorem readsBefore_ended (h : next o s = (tok, [])) (hended : tok.isEnded = true) (x : Text) :
    ReadsBefore tok x := by
  have hsource : tok.source = s := by
    have hwhole := source_append_next o s
    rwa [h, List.append_nil] at hwhole
  cases hl : Lead.of s with
  | text =>
    simp only [next, hl, Prod.mk.injEq] at h
    obtain ⟨rfl, -⟩ := h
    rw [source] at hsource
    simp [isEnded, hsource, hl] at hended
  | comment =>
    simp only [next, hl, Prod.mk.injEq] at h
    obtain ⟨rfl, -⟩ := h
    rw [source] at hsource
    rw [isEnded, hsource, hl] at hended
    exact readsBefore_comment hl o (onward_of_suffix (by decide) hended) x
  | declaration =>
    simp only [next, hl, Prod.mk.injEq] at h
    obtain ⟨rfl, -⟩ := h
    rw [source] at hsource
    rw [isEnded, hsource, hl] at hended
    exact readsBefore_declaration hl o (onward_of_suffix (by decide) hended) x
  | endTag =>
    simp only [next, hl, Prod.mk.injEq] at h
    obtain ⟨rfl, hnone⟩ := h
    -- nothing follows, so the tail is all that stands behind the name
    have htail := through_append_beyond ">".toList ((s.drop 2).dropWhile isNameChar)
    rw [hnone, List.append_nil] at htail
    rw [isEnded, htail] at hended
    exact readsBefore_endTag hl o (onward_of_suffix (by decide) hended) x
  | startTag =>
    have hstart : ∃ t, tok = .start t := by
      simp only [next, hl, Prod.mk.injEq] at h
      exact ⟨_, h.1.symm⟩
    obtain ⟨t, rfl⟩ := hstart
    exact readsBefore_start h (by simpa [isEnded] using hended) x

/-- A body opens and closes nothing. -/
theorem frames_ofBody (p : Nat) (body : Text) (n : Nesting) :
    ((ofBody p body).foldl Nesting.push n).frames = n.frames := by
  by_cases hb : body = [] <;> simp [ofBody, hb, Nesting.push]

/-- A token that leaves no element open has no body of its own. -/
theorem body_of_frames (h : (n.push tok).frames = []) (s : Text) :
    tok.body s = [] ∧ tok.afterBody s = s := by
  cases tok with
  | raw | stop => exact ⟨rfl, rfl⟩
  | start t =>
    have ht : t.isOpaque ≠ true := by
      intro ht
      simp [Nesting.push, StartTag.opens_of_isOpaque ht] at h
    simp [body, afterBody, ht]

/-- What follows the last token is read by itself. -/
theorem words_append_last (hs : s ≠ []) (h : next p s = (tok, [])) (hended : tok.isEnded = true)
    (hopen : (n.push tok).frames = []) (x : Text) : words (s ++ x) = tok.moveTo 0 :: words x := by
  have hread := readsBefore_ended h hended x
  obtain ⟨hbody, hrest⟩ := body_of_frames hopen x
  rw [append_eq_of_next h, List.nil_append, words_readsBefore hread (source_ne_nil_of_next hs h), hbody,
    hrest]
  rfl

/-- Behind a text that is read to its end with no element left open, everything is read by itself. -/
theorem words_append (hended : ∀ tok ∈ (scanFrom p s).getLast?, tok.isEnded = true)
    (hopen : ∃ n : Nesting, ((scanFrom p s).foldl Nesting.push n).frames = []) (x : Text) :
    words (s ++ x) = words s ++ words x := by
  fun_induction scanFrom p s with
  | case1 =>
    rw [words_nil]
    rfl
  | case2 p s hs first after bodyAt body ih =>
    have hnext : next p s = (first, after) := rfl
    obtain ⟨n, hopen⟩ := hopen
    rw [List.foldl_cons, List.foldl_append] at hopen
    by_cases hrest : first.afterBody after = []
    · rw [hrest, scanFrom, if_pos rfl, List.foldl_nil, frames_ofBody] at hopen
      obtain ⟨hbody, hafter⟩ := body_of_frames hopen after
      rw [hafter] at hrest
      have hfirst : first.isEnded = true := by
        apply hended
        rw [hafter, hrest, scanFrom, if_pos rfl]
        simp [body, hbody, ofBody]
      rw [hrest] at hnext hbody hafter
      rw [words_append_last hs hnext hfirst hopen, words_next hs hnext, hbody, hafter, words_nil]
      rfl
    · have hlast : ∀ tok ∈ (scanFrom (bodyAt + byteSize body) (first.afterBody after)).getLast?,
          tok.isEnded = true := by
        intro tok htok
        apply hended
        rw [List.getLast?_cons, List.getLast?_append, Option.mem_def.mp htok]
        rfl
      rw [words_append_next hs hnext hrest, words_next hs hnext, ih hlast ⟨_, hopen⟩,
        List.cons_append, List.append_assoc]

end Token
end TemplateTree
