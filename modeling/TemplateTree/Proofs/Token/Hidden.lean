import TemplateTree.Proofs.Token.Place
import TemplateTree.Proofs.Token.Reread

/-! Where no tag is read. What is inside a comment, a declaration, an instruction, an end tag, the value
of an attribute or an opaque body never begins a token, whatever it looks like. -/
namespace TemplateTree

open Text

variable {o p q : Nat} {s x y : Text} {tok : Token} {before after : List Token} {t : StartTag}

namespace Text

theorem beyond_gt_cons {c : Char} (hc : c ≠ '>') (r : Text) :
    beyond ">".toList (c :: r) = beyond ">".toList r := by
  have hno : starts ">".toList (c :: r) = false := by
    have hhead : ('>' == c) = false := by simpa using hc.symm
    exact congrArg (· && _) hhead
  rw [beyond, beyond, onward, hno]
  rfl

theorem beyond_gt_dropWhile {f : Char → Bool} (hf : f '>' = false) (s : Text) :
    beyond ">".toList (s.dropWhile f) = beyond ">".toList s := by
  induction s with
  | nil => rfl
  | cons c r ih =>
    by_cases hc : f c = true
    · have hne : c ≠ '>' := by
        rintro rfl
        simp [hf] at hc
      rw [List.dropWhile_cons_of_pos hc, ih, beyond_gt_cons hne]
    · rw [List.dropWhile_cons_of_neg hc]

end Text

namespace Token

/-- The text begins with something that runs to its own end, or to the end of the input, without a tag
in it; the second text is what is behind it. -/
inductive Hides : Text → Text → Prop
  | comment (r : Text) : Hides ("<!--".toList ++ r) (beyond "-->".toList r)
  | declaration {r : Text} (h : starts "--".toList r = false) :
    Hides ('<' :: '!' :: r) (beyond ">".toList r)
  | instruction (r : Text) : Hides ('<' :: '?' :: r) (beyond ">".toList r)
  | endTag {c : Char} (hc : c.isAlpha = true) (r : Text) :
    Hides ('<' :: '/' :: c :: r) (beyond ">".toList (c :: r))

theorem Hides.next (h : Hides x y) (o : Nat) :
    ∃ tok, next o x = (tok, y) ∧ ∀ t, tok ≠ .start t := by
  cases h with
  | comment r => exact ⟨.raw o ("<!--".toList ++ through "-->".toList r), rfl, by simp⟩
  | @declaration r h =>
    have hlead : Lead.of ('<' :: '!' :: r) = .declaration := by
      rw [Lead.of_bang]
      exact if_neg (by simpa using h)
    refine ⟨.raw o (through ">".toList ('<' :: '!' :: r)), ?_, by simp⟩
    rw [Token.next, hlead]
    simp only [beyond_gt_cons (by decide : '<' ≠ '>'), beyond_gt_cons (by decide : '!' ≠ '>')]
  | instruction r =>
    refine ⟨.raw o (through ">".toList ('<' :: '?' :: r)), ?_, by simp⟩
    have hlead : Lead.of ('<' :: '?' :: r) = .declaration := rfl
    rw [Token.next, hlead]
    simp only [beyond_gt_cons (by decide : '<' ≠ '>'), beyond_gt_cons (by decide : '?' ≠ '>')]
  | @endTag c hc r =>
    have hlead : Lead.of ('<' :: '/' :: c :: r) = .endTag := by simp [Lead.of, hc]
    refine ⟨.stop ⟨o, (c :: r).takeWhile isNameChar,
      through ">".toList ((c :: r).dropWhile isNameChar)⟩, ?_, by simp⟩
    rw [Token.next, hlead]
    simp only [List.drop_succ_cons, List.drop_zero,
      beyond_gt_dropWhile (by decide : isNameChar '>' = false)]

/-- Behind a token the scan goes on: first with the body that the token has, and then with markup. -/
theorem scanFrom_behind (h : scanFrom o s = before ++ tok :: after) : ∃ p q,
    after = ofBody p (tok.body (sources after)) ++ scanFrom q (tok.afterBody (sources after)) := by
  fun_induction scanFrom o s generalizing before with
  | case1 => simp at h
  | case2 o s hs first rest bodyAt body =>
    rename_i ih
    cases before with
    | nil =>
      obtain ⟨rfl, rfl⟩ := List.cons.inj h
      have hrest : sources (ofBody bodyAt body ++
          scanFrom (bodyAt + byteSize body) (first.afterBody rest)) = rest := by
        rw [sources_append, sources_ofBody, sources_scanFrom, body_append_afterBody]
      exact ⟨bodyAt, bodyAt + byteSize body, by rw [hrest]⟩
    | cons a before =>
      obtain ⟨-, h⟩ := List.cons.inj h
      -- the token may be the body, which has no body of its own
      by_cases hb : body = []
      · rw [ofBody, if_pos hb, List.nil_append] at h
        exact ih h
      · rw [ofBody, if_neg hb, List.singleton_append] at h
        cases before with
        | nil =>
          obtain ⟨rfl, rfl⟩ := List.cons.inj h
          refine ⟨bodyAt, bodyAt + byteSize body, ?_⟩
          rw [sources_scanFrom]
          rfl
        | cons b before => exact ih (List.cons.inj h).2

/-- A token of the scan is the first one of some text. -/
theorem exists_next_of_mem (h : start t ∈ scanFrom o s) :
    ∃ o s after, next o s = (start t, after) := by
  fun_induction scanFrom o s with
  | case1 => cases h
  | case2 o s hs first after bodyAt body ih =>
    rcases List.mem_cons.mp h with hfirst | h
    · exact ⟨o, s, after, by rw [hfirst]⟩
    · rcases List.mem_append.mp h with hbody | h
      · exact absurd hbody (not_start_ofBody _ _ t)
      · exact ih h

end Token

namespace StartTag

theorem value_infix_assigned {v : Text} (h : (assigned s).value = some v) :
    v <:+: (assigned s).source := by
  have quoted (quote : Char) (before r : Text) (h : (quoted quote before r).value = some v) :
      v <:+: (StartTag.quoted quote before r).source := by
    obtain rfl := Option.some.inj h
    exact ⟨before ++ [quote], (onward (starts [quote]) r).take 1, by simp [StartTag.quoted, through]⟩
  revert h
  unfold assigned
  split
  · split
    · exact quoted '"' _ _
    · exact quoted '\'' _ _
    · intro h
      obtain rfl := Option.some.inj h
      exact ⟨_, [], List.append_nil _⟩
  · intro h
    cases h

/-- The values of the attributes are written inside the tag. -/
theorem value_infix_tailOf {name v : Text} (h : (name, some v) ∈ (tailOf s).attributes) :
    v <:+: (tailOf s).source := by
  fun_induction tailOf s with
  | case1 | case2 | case3 => cases h
  | case4 c r _ _ _ name' given later ih =>
    rcases List.mem_cons.mp h with heq | h
    · obtain ⟨-, hv⟩ := Prod.mk.inj heq
      refine (value_infix_assigned hv.symm).trans ?_
      exact ⟨name', later.source, by simp [given]⟩
    · exact (ih h).trans ⟨name' ++ given.source, [], by simp [later]⟩
  | case5 c r _ _ _ later ih => exact (ih h).trans ⟨[c], [], by simp [later]⟩

theorem value_infix (ht : Token.start t ∈ Token.scanFrom o s) {name v : Text}
    (h : (name, some v) ∈ t.attributes) : v <:+: t.tail := by
  obtain ⟨o, s, after, hnext⟩ := Token.exists_next_of_mem ht
  cases hl : Lead.of s with
  | startTag =>
    simp only [Token.next, hl, Prod.mk.injEq, Token.start.injEq] at hnext
    obtain ⟨rfl, -⟩ := hnext
    exact value_infix_tailOf h
  | text | comment | declaration | endTag => simp [Token.next, hl] at hnext

end StartTag
end TemplateTree
