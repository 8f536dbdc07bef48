import TemplateTree.Markup.Parse
import TemplateTree.Proofs.Token.Place

/-! When parsing succeeds. A start tag that does not end takes all that is left, so it is the last
token. -/
namespace TemplateTree

open Token

variable {t : StartTag} {s : Text}

theorem StartTag.rest_of_missing (h : (tailOf s).ending = .missing) : (tailOf s).rest = [] := by
  fun_induction tailOf s with
  | case1 => rfl
  | case2 => simp at h
  | case3 => simp at h
  | case4 c r _ _ _ name given later ih => exact ih h
  | case5 c r _ _ _ later ih => exact ih h

theorem Token.after_of_missing {offset : Nat} (ht : (next offset s).1 = .start t)
    (h : t.ending = .missing) : (next offset s).2 = [] ∧ t.isOpaque = false := by
  refine ⟨?_, by simp [StartTag.isOpaque, h]⟩
  cases hl : Lead.of s with
  | startTag =>
    simp only [next, hl, Token.start.injEq] at ht ⊢
    exact StartTag.rest_of_missing (by rw [← h, ← ht])
  | text | comment | declaration | endTag => simp [next, hl] at ht

theorem Token.getLast?_scanFrom {offset : Nat} (ht : Token.start t ∈ scanFrom offset s)
    (h : t.ending = .missing) : (scanFrom offset s).getLast? = some (.start t) := by
  fun_induction scanFrom offset s with
  | case1 => simp at ht
  | case2 offset s hs first after bodyAt body ih =>
    rcases List.mem_cons.mp ht with heq | ht
    · obtain ⟨hafter, hopaque⟩ := after_of_missing heq.symm h
      have hf : first = .start t := heq.symm
      have hnil : after = [] := hafter
      have hbody : body = [] := by simp [body, hf, Token.body, hopaque]
      have hrest : first.afterBody after = [] := by simp [hf, Token.afterBody, hopaque, hnil]
      rw [hbody, hrest, scanFrom]
      simp [ofBody, hf]
    · rcases List.mem_append.mp ht with ht | ht
      · exact absurd ht (not_start_ofBody _ _ t)
      · have hlast := ih ht
        rw [List.getLast?_cons, List.getLast?_append, hlast]
        rfl

/-- Where no bound tag is cut off, every bound tag ends. -/
theorem StartTag.ends_of_bound (h : cutOff? (scan s) = none) (ht : Token.start t ∈ scan s)
    (hb : t.isBound = true) : t.ending ≠ .missing := by
  intro hm
  have hlast : (scan s).getLast? = some (.start t) := getLast?_scanFrom ht hm
  simp [cutOff?, hlast, hm, hb] at h

theorem Markup.parse_eq_ok_iff {config : Config} {m : Markup} : parse config s = .ok m ↔
    cutOff? (scan s) = none ∧ (Elements.ofTokens (scan s)).tooDeep? config.maxDepth = none ∧
      ofElements config (Elements.ofTokens (scan s)) = m := by
  simp only [parse]
  cases hcut : cutOff? (scan s) with
  | some t => simp
  | none =>
    cases hdeep : (Elements.ofTokens (scan s)).tooDeep? config.maxDepth with
    | some t => simp
    | none => simp

end TemplateTree
