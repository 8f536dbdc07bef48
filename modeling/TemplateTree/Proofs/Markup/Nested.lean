import TemplateTree.Proofs.Elements.Tidy
import TemplateTree.Proofs.Markup.OnePass

/-! The rows that tokens nest to. Every end tag in such a row closes the nearest element of its name,
and only the last element of a row may be left open, so the tokens of the row nest to it again. -/
namespace TemplateTree.Elements

open FlatScan (keys close?_eq_none close?_eq_some)

variable {a b es inner rest row : Elements} {ns : List Text} {e : EndTag} {t : StartTag} {f : Frame}
  {fs : List Frame} {n : Nesting}

/-- The keys of the elements that are still open where the row ends, innermost first. -/
def unclosed : Elements → List Text
  | nil => []
  | raw _ _ rest => unclosed rest
  | stray _ rest => unclosed rest
  | element t inner close rest =>
    if t.opens && close.isNone then unclosed inner ++ [t.key] else unclosed rest

/-- The row is what its tokens nest to inside open elements of the given keys. -/
inductive Nested : List Text → Elements → Prop
  | nil (ns : List Text) : Nested ns nil
  | raw {ns : List Text} {rest : Elements} (o : Nat) (s : Text) (hrest : Nested ns rest) :
    Nested ns (raw o s rest)
  | stray {ns : List Text} {rest : Elements} {e : EndTag} (he : e.key ∉ ns) (hrest : Nested ns rest) :
    Nested ns (stray e rest)
  | single {ns : List Text} {rest : Elements} {t : StartTag} (ht : t.opens = false)
    (hrest : Nested ns rest) : Nested ns (element t nil none rest)
  | closed {ns : List Text} {inner rest : Elements} {t : StartTag} {e : EndTag} (ht : t.opens = true)
    (he : e.key = t.key) (hno : e.key ∉ inner.unclosed) (hinner : Nested (t.key :: ns) inner)
    (hrest : Nested ns rest) : Nested ns (element t inner (some e) rest)
  | unclosed {ns : List Text} {inner : Elements} {t : StartTag} (ht : t.opens = true)
    (hinner : Nested (t.key :: ns) inner) : Nested ns (element t inner none nil)

theorem unclosed_single (ht : t.opens = false) (rest : Elements) :
    (element t nil none rest).unclosed = rest.unclosed := by
  simp [Elements.unclosed, ht]

theorem unclosed_closed (t : StartTag) (inner : Elements) (e : EndTag) (rest : Elements) :
    (element t inner (some e) rest).unclosed = rest.unclosed := by
  simp [Elements.unclosed]

theorem unclosed_open (ht : t.opens = true) (inner rest : Elements) :
    (element t inner none rest).unclosed = inner.unclosed ++ [t.key] := by
  simp [Elements.unclosed, ht]

theorem tokens_single_append (t : StartTag) (rest : Elements) (ts : List Token) :
    (element t nil none rest).tokens ++ ts = .start t :: (rest.tokens ++ ts) := by
  simp [tokens]

theorem tokens_closed_append (t : StartTag) (inner : Elements) (e : EndTag) (rest : Elements)
    (ts : List Token) : (element t inner (some e) rest).tokens ++ ts =
      .start t :: (inner.tokens ++ .stop e :: (rest.tokens ++ ts)) := by
  simp [tokens]

theorem tokens_open_append (t : StartTag) (inner : Elements) (ts : List Token) :
    (element t inner none nil).tokens ++ ts = .start t :: (inner.tokens ++ ts) := by
  simp [tokens]

/-- A row in which nothing is left open can be followed by another one. -/
theorem Nested.append (ha : a.Nested ns) (hu : a.unclosed = []) (hb : b.Nested ns) :
    (a ++ b).Nested ns ∧ (a ++ b).unclosed = b.unclosed := by
  induction ha with
  | nil => exact ⟨hb, rfl⟩
  | raw o s _ ih =>
    obtain ⟨hn, he⟩ := ih hu hb
    exact ⟨.raw o s hn, he⟩
  | stray he _ ih =>
    obtain ⟨hn, hopen⟩ := ih hu hb
    exact ⟨.stray he hn, hopen⟩
  | single ht _ ih =>
    rw [unclosed_single ht] at hu
    obtain ⟨hn, hopen⟩ := ih hu hb
    exact ⟨.single ht hn, (unclosed_single ht _).trans hopen⟩
  | closed ht he hno hinner _ _ ih =>
    rw [unclosed_closed] at hu
    obtain ⟨hn, hopen⟩ := ih hu hb
    exact ⟨.closed ht he hno hinner hn, (unclosed_closed ..).trans hopen⟩
  | unclosed ht =>
    rw [unclosed_open ht] at hu
    simp at hu

/-- Every open element can be closed, and what stands before it is done. -/
def Framed : List Frame → Prop
  | [] => True
  | f :: fs =>
    f.tag.opens = true ∧ f.before.reverse.Nested (keys fs) ∧ f.before.reverse.unclosed = [] ∧ Framed fs

/-- What is under construction will be nested, whatever comes. -/
structure Nesting.Fit (n : Nesting) : Prop where
  row : n.row.reverse.Nested (keys n.frames)
  done : n.row.reverse.unclosed = []
  frames : Framed n.frames

/-- An element that ends because an outer one does. -/
theorem nested_left (hf : Framed (f :: fs)) (hrow : row.reverse.Nested (keys (f :: fs))) :
    (element f.tag row.reverse none f.before).reverse.Nested (keys fs) ∧
      (element f.tag row.reverse none f.before).reverse.unclosed =
        row.reverse.unclosed ++ [f.tag.key] := by
  obtain ⟨ht, hbefore, hdone, -⟩ := hf
  rw [reverse_element]
  obtain ⟨hn, hopen⟩ := hbefore.append hdone (.unclosed ht hrow)
  exact ⟨hn, hopen.trans (unclosed_open ht ..)⟩

theorem fit_close? (hf : Framed fs) (hrow : row.reverse.Nested (keys fs))
    (hno : e.key ∉ row.reverse.unclosed) (h : Nesting.close? e row fs = some n) : n.Fit := by
  induction fs generalizing row with
  | nil => simp [Nesting.close?] at h
  | cons f fs ih =>
    rw [Nesting.close?] at h
    split at h
    · next hkey =>
      cases h
      obtain ⟨ht, hbefore, hdone, hfs⟩ := hf
      obtain ⟨hn, hopen⟩ := hbefore.append hdone (.closed ht hkey.symm hno hrow (.nil _))
      refine ⟨?_, ?_, hfs⟩
      · rw [reverse_element]
        exact hn
      · rw [reverse_element, hopen, unclosed_closed]
        rfl
    · next hkey =>
      obtain ⟨hn, hopen⟩ := nested_left hf hrow
      refine ih hf.2.2.2 hn ?_ h
      rw [hopen]
      simp only [List.mem_append, List.mem_singleton, not_or]
      exact ⟨hno, fun he => hkey he.symm⟩

theorem fit_push (h : n.Fit) (tok : Token) : (n.push tok).Fit := by
  cases tok with
  | raw o s =>
    obtain ⟨hn, hopen⟩ := h.row.append h.done (.raw o s (.nil _))
    refine ⟨?_, ?_, h.frames⟩
    · rw [Nesting.push, reverse_raw]
      exact hn
    · rw [Nesting.push, reverse_raw, hopen]
      rfl
  | start t =>
    rw [Nesting.push]
    by_cases ht : t.opens = true
    · rw [if_pos ht]
      exact ⟨.nil _, rfl, ht, h.row, h.done, h.frames⟩
    · have hf : t.opens = false := by simpa using ht
      obtain ⟨hn, hopen⟩ := h.row.append h.done (.single hf (.nil _))
      rw [if_neg ht]
      refine ⟨?_, ?_, h.frames⟩
      · rw [reverse_element]
        exact hn
      · rw [reverse_element, hopen, unclosed_single hf]
        rfl
  | stop e =>
    rw [Nesting.push]
    cases hc : Nesting.close? e n.row n.frames with
    | none =>
      obtain ⟨hn, hopen⟩ := h.row.append h.done (.stray (close?_eq_none hc) (.nil _))
      refine ⟨?_, ?_, h.frames⟩
      · rw [Option.getD_none, reverse_stray]
        exact hn
      · rw [Option.getD_none, reverse_stray, hopen]
        rfl
    | some m =>
      have hno : e.key ∉ n.row.reverse.unclosed := by
        rw [h.done]
        exact List.not_mem_nil
      exact fit_close? h.frames h.row hno hc

theorem fit_foldl (ts : List Token) (h : n.Fit) : (ts.foldl Nesting.push n).Fit := by
  induction ts generalizing n with
  | nil => exact h
  | cons tok ts ih => exact ih (fit_push h tok)

theorem nested_finish (hf : Framed fs) (hrow : row.reverse.Nested (keys fs)) :
    (Nesting.finish row fs).Nested [] := by
  induction fs generalizing row with
  | nil => exact hrow
  | cons f fs ih => exact ih hf.2.2.2 (nested_left hf hrow).1

/-- Whatever the tokens are, they nest to a nested row. -/
theorem nested_ofTokens (ts : List Token) : (ofTokens ts).Nested [] := by
  have h : (ts.foldl Nesting.push Nesting.start).Fit := fit_foldl ts ⟨.nil _, rfl, trivial⟩
  exact nested_finish h.frames h.row

/-- Puts a row behind what stands there; the elements that it leaves open stay open. -/
def Nesting.put : Nesting → Elements → Nesting
  | n, nil => n
  | n, raw o s rest => put { n with row := raw o s n.row } rest
  | n, stray t rest => put { n with row := stray t n.row } rest
  | n, element t inner close rest =>
    if t.opens && close.isNone then put ⟨nil, ⟨t, n.row⟩ :: n.frames⟩ inner
    else put { n with row := element t inner close n.row } rest

theorem put_single (ht : t.opens = false) (n : Nesting) (rest : Elements) :
    n.put (element t nil none rest) = Nesting.put { n with row := element t nil none n.row } rest := by
  simp [Nesting.put, ht]

theorem put_closed (n : Nesting) (t : StartTag) (inner : Elements) (e : EndTag) (rest : Elements) :
    n.put (element t inner (some e) rest) =
      Nesting.put { n with row := element t inner (some e) n.row } rest := by
  simp [Nesting.put]

theorem put_open (ht : t.opens = true) (n : Nesting) (inner rest : Elements) :
    n.put (element t inner none rest) = Nesting.put ⟨nil, ⟨t, n.row⟩ :: n.frames⟩ inner := by
  simp [Nesting.put, ht]

/-- An end tag passes over the elements that are left open unless one of them has its name. -/
theorem close?_put (h : es.Nested ns) (hno : e.key ∉ es.unclosed) (n : Nesting) :
    Nesting.close? e (n.put es).row (n.put es).frames =
      Nesting.close? e (revAppend es n.row) n.frames := by
  induction h generalizing n with
  | nil => rfl
  | raw o s _ ih => exact ih hno _
  | stray _ _ ih => exact ih hno _
  | single ht _ ih =>
    rw [unclosed_single ht] at hno
    rw [put_single ht, ih hno]
    rfl
  | closed _ _ _ _ _ _ ih =>
    rw [unclosed_closed] at hno
    rw [put_closed, ih hno]
    rfl
  | @unclosed _ _ t ht _ ih =>
    rw [unclosed_open ht, List.mem_append, List.mem_singleton, not_or] at hno
    have hkey : t.key ≠ e.key := fun he => hno.2 he.symm
    rw [put_open ht, ih hno.1, Nesting.close?, if_neg hkey]
    exact congrArg (fun r => Nesting.close? e (element t r none n.row) n.frames)
      (reverse_reverse _)

theorem finish_put (h : es.Nested ns) (n : Nesting) :
    Nesting.finish (n.put es).row (n.put es).frames =
      Nesting.finish (revAppend es n.row) n.frames := by
  induction h generalizing n with
  | nil => rfl
  | raw o s _ ih => exact ih _
  | stray _ _ ih => exact ih _
  | single ht _ ih =>
    rw [put_single ht, ih]
    rfl
  | closed _ _ _ _ _ _ ih =>
    rw [put_closed, ih]
    rfl
  | @unclosed _ _ t ht _ ih =>
    rw [put_open ht, ih, Nesting.finish]
    exact congrArg (fun r => Nesting.finish (element t r none n.row) n.frames) (reverse_reverse _)

/-- Reading the tokens of a nested row puts it behind what stands there. -/
theorem Nested.foldl_push (h : es.Nested ns) (hn : ns = keys n.frames) :
    es.tokens.foldl Nesting.push n = n.put es := by
  induction h generalizing n with
  | nil => rfl
  | raw o s _ ih => exact ih hn
  | @stray _ _ e he _ ih =>
    have hc : Nesting.close? e n.row n.frames = none := by
      rw [Option.eq_none_iff_forall_not_mem]
      intro m hm
      rw [hn] at he
      exact he (close?_eq_some hm)
    rw [tokens, List.foldl_cons, Nesting.push, hc]
    exact ih hn
  | @single _ _ t ht _ ih =>
    rw [tokens, List.foldl_cons, Nesting.push, if_neg (by simp [ht]), put_single ht]
    exact ih hn
  | @closed _ inner rest t e ht he hno hinner _ ihi ihr =>
    have hclose : Nesting.push (Nesting.put ⟨.nil, ⟨t, n.row⟩ :: n.frames⟩ inner) (.stop e) =
        { n with row := element t inner (some e) n.row } := by
      have hrow : (revAppend inner .nil).reverse = inner := reverse_reverse inner
      rw [Nesting.push, close?_put hinner hno, Nesting.close?, if_pos he.symm, hrow]
      rfl
    rw [tokens, List.foldl_cons, List.foldl_append, List.foldl_append, Nesting.push, if_pos ht,
      ihi (by rw [hn]; rfl), Option.map_some, Option.toList_some, List.foldl_cons, List.foldl_nil,
      hclose, put_closed]
    exact ihr hn
  | unclosed ht _ ih =>
    rw [tokens, List.foldl_cons, Nesting.push, if_pos ht, put_open ht]
    simp only [tokens, Option.map_none, Option.toList_none, List.append_nil]
    exact ih (by rw [hn]; rfl)

theorem Nested.ofTokens (h : es.Nested []) : ofTokens es.tokens = es := by
  rw [Elements.ofTokens, h.foldl_push (n := Nesting.start) rfl, finish_put h]
  exact reverse_reverse es

end TemplateTree.Elements
