import TemplateTree.Proofs.Markup.Nested

/-! The elements around every start tag. One pass over the tokens finds the same chains as the nested
row that the tokens make. -/
namespace TemplateTree

open FlatScan (Open)

/-- An element, and the elements that it stands in, innermost first. -/
structure Chain where
  element : Open
  around : List Open

/-- The number of bound elements on the chain, the element itself among them. -/
def Chain.depth (c : Chain) : Nat := (c.element :: c.around).countP (·.bound)

/-- True when the element is bound and more than `limit` bound elements are on its chain. -/
def Chain.isTooDeep (limit : Nat) (c : Chain) : Bool := c.element.bound && decide (limit < c.depth)

/-- The chains of the elements in a row that stands inside `os`. -/
def Elements.chains (os : List Open) : Elements → List Chain
  | nil => []
  | raw _ _ rest => chains os rest
  | stray _ rest => chains os rest
  | element t inner _ rest =>
    let o : Open := ⟨t, t.isBound || inner.isBound⟩
    ⟨o, os⟩ :: (chains (o :: os) inner ++ chains os rest)

namespace FlatScan

variable {es inner : Elements} {ns opened : List Text} {e : EndTag} {t : StartTag} {ts : List Token}
  {os : List Open} {o : Open} {height : Nat}

/-- The open elements behind a token, with the tokens `ts` to come. -/
def advance (os : List Open) (ts : List Token) : Token → List Open
  | .raw .. => os
  | .start t => if t.opens then ⟨t, bindsFrom (names os) t ts⟩ :: os else os
  | .stop e =>
    match os.dropWhile (·.tag.key ≠ e.key) with
    | [] => os
    | _ :: outside => outside

/-- The chains of all elements, in the order of their start tags. -/
def chains (os : List Open) : List Token → List Chain
  | [] => []
  | .raw o s :: ts => chains (advance os ts (.raw o s)) ts
  | .start t :: ts =>
    ⟨⟨t, bindsFrom (names os) t ts⟩, os⟩ :: chains (advance os ts (.start t)) ts
  | .stop e :: ts => chains (advance os ts (.stop e)) ts

/-- What comes behind a row that leaves elements open: nothing, or an end tag for an element around
the row. -/
inductive Ends (ns opened : List Text) : List Token → Prop
  | nil : Ends ns opened []
  | stop {e : EndTag} {ts : List Token} (he : e.key ∈ ns) (hno : e.key ∉ opened) :
    Ends ns opened (.stop e :: ts)

theorem Ends.inside (h : Ends ns (opened ++ [t.key]) ts) : Ends (t.key :: ns) opened ts := by
  cases h with
  | nil => exact .nil
  | stop he hno =>
    rw [List.mem_append, not_or] at hno
    exact .stop (List.mem_cons_of_mem _ he) hno.1

/-- What comes behind an element that is left open is no end tag of its own. -/
theorem Ends.outer (h : Ends ns (opened ++ [t.key]) ts) :
    ts = [] ∨ ∃ e us, ts = .stop e :: us ∧ e.key ∈ ns ∧ t.key ≠ e.key := by
  cases h with
  | nil => exact Or.inl rfl
  | @stop e us he hno =>
    refine Or.inr ⟨e, us, rfl, he, fun hk => hno ?_⟩
    simp [hk]

/-- An end tag leaves nothing open above the element that it closes. -/
theorem boundAbove_stop (he : e.key ∈ ns) (hn : ns.length ≤ height + 1) :
    boundAbove height ns (.stop e :: ts) = false := by
  have hlt := length_pass_stop_lt he
  by_cases hh : height < ns.length
  · rw [boundAbove_cons hh, boundAbove_of_le (by omega)]
    rfl
  · exact boundAbove_of_le (by omega)

theorem boundAbove_ends (h : Ends (t.key :: ns) opened ts) :
    boundAbove ns.length (t.key :: ns) ts = false := by
  cases h with
  | nil => rfl
  | stop he => exact boundAbove_stop he (by simp)

/-- An element that is left open does not matter to what comes behind. -/
theorem boundAbove_left (h : Ends ns (opened ++ [t.key]) ts) (hh : height < ns.length) :
    boundAbove height (t.key :: ns) ts = boundAbove height ns ts := by
  rcases h.outer with rfl | ⟨e, us, rfl, he, hne⟩
  · rfl
  · have hlong : height < (t.key :: ns).length := Nat.lt_succ_of_lt hh
    rw [boundAbove_cons hlong, boundAbove_cons hh, pass_stop_of_ne hne he]

theorem boundAbove_tokens (h : es.Nested ns) (hend : Ends ns es.unclosed ts)
    (hh : height < ns.length) :
    boundAbove height ns (es.tokens ++ ts) = (es.isBound || boundAbove height ns ts) := by
  induction h generalizing ts with
  | nil => simp [Elements.tokens, Elements.isBound]
  | raw o s _ ih =>
    rw [Elements.tokens, List.cons_append, boundAbove_cons hh]
    simp only [Token.isBound, Bool.false_or]
    exact ih hend hh
  | @stray ns rest e he _ ih =>
    have hpass : pass ns (.stop e) = ns := if_neg he
    rw [Elements.tokens, List.cons_append, boundAbove_cons hh, hpass]
    simp only [Token.isBound, Bool.false_or]
    exact ih hend hh
  | @single ns rest t ht _ ih =>
    have hpass : pass ns (.start t) = ns := by simp [pass, ht]
    rw [Elements.unclosed_single ht] at hend
    rw [Elements.tokens, List.cons_append, boundAbove_cons hh, hpass]
    simp [Elements.tokens, Elements.isBound, Token.isBound, ih hend hh, Bool.or_assoc]
  | @closed ns inner rest t e ht he hno _ _ ihi ihr =>
    have hpass : pass ns (.start t) = t.key :: ns := by simp [pass, ht]
    have hself : pass (t.key :: ns) (.stop e) = ns := by rw [← he, pass_stop_self]
    have hlong : height < (t.key :: ns).length := Nat.lt_succ_of_lt hh
    have hstop : Ends (t.key :: ns) inner.unclosed (.stop e :: (rest.tokens ++ ts)) :=
      .stop (by simp [he]) hno
    rw [Elements.unclosed_closed] at hend
    rw [Elements.tokens_closed_append, boundAbove_cons hh, hpass, ihi hstop hlong,
      boundAbove_cons hlong, hself, ihr hend hh, Elements.isBound]
    simp [Token.isBound, Bool.or_assoc]
  | @unclosed ns inner t ht _ ih =>
    have hpass : pass ns (.start t) = t.key :: ns := by simp [pass, ht]
    have hlong : height < (t.key :: ns).length := Nat.lt_succ_of_lt hh
    rw [Elements.unclosed_open ht] at hend
    rw [Elements.tokens_open_append, boundAbove_cons hh, hpass, ih hend.inside hlong,
      boundAbove_left hend hh, Elements.isBound]
    simp [Token.isBound, Elements.isBound, Bool.or_assoc]

/-- An element is bound by its tag or by what is inside it. -/
theorem bindsFrom_inner (ht : t.opens = true) (h : inner.Nested (t.key :: ns))
    (hend : Ends (t.key :: ns) inner.unclosed ts) :
    bindsFrom ns t (inner.tokens ++ ts) = (t.isBound || inner.isBound) := by
  have hheight : ns.length < (t.key :: ns).length := Nat.lt_succ_self _
  rw [bindsFrom, ht, Bool.true_and, boundAbove_tokens h hend hheight, boundAbove_ends hend,
    Bool.or_false]

theorem bindsFrom_single (ht : t.opens = false) (ns : List Text) (ts : List Token) :
    bindsFrom ns t ts = t.isBound := by
  simp [bindsFrom, ht]

theorem advance_stop_self (h : o.tag.key = e.key) : advance (o :: os) ts (.stop e) = os := by
  rw [advance, List.dropWhile_cons_of_neg (by simp [h])]

/-- An end tag that no open element is named like closes nothing. -/
theorem dropWhile_eq_nil_iff : os.dropWhile (·.tag.key ≠ e.key) = [] ↔ e.key ∉ names os := by
  rw [List.dropWhile_eq_nil_iff, names, List.mem_map]
  constructor
  · rintro h ⟨o, ho, he⟩
    simpa [he] using h o ho
  · intro h o ho
    have hne : o.tag.key ≠ e.key := fun he => h ⟨o, ho, he⟩
    simpa using hne

theorem advance_stop_of_ne (h : o.tag.key ≠ e.key) (he : e.key ∈ names os) :
    advance (o :: os) ts (.stop e) = advance os ts (.stop e) := by
  rw [advance, advance, List.dropWhile_cons_of_pos (by simp [h])]
  cases hd : os.dropWhile (·.tag.key ≠ e.key) with
  | nil => exact absurd he (dropWhile_eq_nil_iff.mp hd)
  | cons p outside => rfl

theorem advance_stop_stray (h : e.key ∉ names os) : advance os ts (.stop e) = os := by
  rw [advance, dropWhile_eq_nil_iff.mpr h]

/-- An element that is left open is on no chain behind the row. -/
theorem chains_left (h : Ends (names os) (opened ++ [o.tag.key]) ts) :
    chains (o :: os) ts = chains os ts := by
  rcases h.outer with rfl | ⟨e, us, rfl, he, hne⟩
  · rfl
  · rw [chains, chains, advance_stop_of_ne hne he]

theorem chains_tokens (h : es.Nested ns) (hns : names os = ns) (hend : Ends ns es.unclosed ts) :
    chains os (es.tokens ++ ts) = es.chains os ++ chains os ts := by
  induction h generalizing os ts with
  | nil => rfl
  | raw o s _ ih => exact ih hns hend
  | @stray ns rest e he _ ih =>
    rw [Elements.tokens, List.cons_append, chains, advance_stop_stray (by rwa [hns])]
    exact ih hns hend
  | @single ns rest t ht _ ih =>
    rw [Elements.unclosed_single ht] at hend
    have hadvance : advance os (rest.tokens ++ ts) (.start t) = os := by simp [advance, ht]
    rw [Elements.tokens_single_append, chains, hadvance, bindsFrom_single ht, ih hns hend]
    simp [Elements.chains, Elements.isBound]
  | @closed ns inner rest t e ht he hno hinner _ ihi ihr =>
    rw [Elements.unclosed_closed] at hend
    have hstop : Ends (t.key :: ns) inner.unclosed (.stop e :: (rest.tokens ++ ts)) :=
      .stop (by simp [he]) hno
    let o : Open := ⟨t, t.isBound || inner.isBound⟩
    have hself : advance (o :: os) (rest.tokens ++ ts) (.stop e) = os := advance_stop_self he.symm
    have hinside : chains (o :: os) (inner.tokens ++ .stop e :: (rest.tokens ++ ts)) =
        inner.chains (o :: os) ++ chains (o :: os) (.stop e :: (rest.tokens ++ ts)) :=
      ihi (congrArg (t.key :: ·) hns) hstop
    rw [Elements.tokens_closed_append, chains, advance, if_pos ht, hns,
      bindsFrom_inner ht hinner hstop, hinside, chains, hself, ihr hns hend]
    simp [Elements.chains, o]
  | @unclosed ns inner t ht hinner ih =>
    rw [Elements.unclosed_open ht] at hend
    let o : Open := ⟨t, t.isBound || inner.isBound⟩
    have hleft : chains (o :: os) ts = chains os ts := by
      rw [← hns] at hend
      exact chains_left hend
    have hinside : chains (o :: os) (inner.tokens ++ ts) =
        inner.chains (o :: os) ++ chains (o :: os) ts :=
      ih (congrArg (t.key :: ·) hns) hend.inside
    rw [Elements.tokens_open_append, chains, advance, if_pos ht, hns,
      bindsFrom_inner ht hinner hend.inside, hinside, hleft]
    simp [Elements.chains, o]

/-- The pass finds the chains of the row that the tokens nest to. -/
theorem chains_ofTokens (ts : List Token) : (Elements.ofTokens ts).chains [] = chains [] ts := by
  have h : chains [] ((Elements.ofTokens ts).tokens ++ []) =
      (Elements.ofTokens ts).chains [] ++ chains [] [] :=
    chains_tokens (Elements.nested_ofTokens ts) rfl .nil
  rw [Elements.tokens_ofTokens, List.append_nil] at h
  simpa [chains] using h.symm

end FlatScan
end TemplateTree
