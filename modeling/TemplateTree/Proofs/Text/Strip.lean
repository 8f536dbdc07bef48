import TemplateTree.Proofs.Token.Written
import TemplateTree.Text.Strip

/-! Text without tags. One pass takes out the leftmost match of `<[^>]*>` and then the leftmost one
behind it, until there is none. What is left has no tag, however the pieces around a tag come together,
and it is made piece by piece: of a piece in which every `<` has a `>` after it the same is left whatever
follows. -/
namespace TemplateTree.Text

variable {a b m p q r t u x : Text} {before after : Text} {c : Char}

/-- Every `<` has a `>` after it. -/
def TagsEnd (t : Text) : Prop := ∀ a r, t = a ++ '<' :: r → '>' ∈ r

/-- No `<` has a `>` after it. -/
def Tagless (t : Text) : Prop := ∀ a r, t = a ++ '<' :: r → '>' ∉ r

/-- A match of the pattern: a `<`, then anything but a `>`, then a `>`. -/
def IsTag (m : Text) : Prop := ∃ p, '>' ∉ p ∧ m = '<' :: (p ++ ['>'])

/-- The leftmost match in a text, with what stands around it. -/
structure FirstTag (t before m after : Text) : Prop where
  text : t = before ++ (m ++ after)
  isTag : IsTag m
  leftmost : ∀ {b n a}, t = b ++ (n ++ a) → IsTag n → before.length ≤ b.length

/-- The second text is the first one without its matches. Each is looked for behind the one before it,
so no two overlap and what comes together around one is not read again. -/
inductive Strips : Text → Text → Prop
  | done {t : Text} (h : ∀ {b n a}, IsTag n → t ≠ b ++ (n ++ a)) : Strips t t
  | tag {t before m after left : Text} (h : FirstTag t before m after) (hrest : Strips after left) :
    Strips t (before ++ left)

theorem TagsEnd.suffix (h : TagsEnd (a ++ b)) : TagsEnd b := by
  rintro p r rfl
  exact h (a ++ p) r (List.append_assoc ..).symm

theorem tagsEnd_of_no_mark (h : '<' ∉ t) : TagsEnd t := by
  rintro a r rfl
  exact absurd (List.mem_append_right a List.mem_cons_self) h

/-- Nothing stands behind a last `>`. -/
theorem tagsEnd_append_gt (t : Text) : TagsEnd (t ++ ['>']) := by
  intro a r h
  have hlast := congrArg List.getLast? h
  rw [List.getLast?_append, List.getLast?_append] at hlast
  cases r with
  | nil => cases hlast
  | cons c r =>
    have hr : (c :: r).getLast? = some '>' := by simpa using hlast.symm
    exact List.mem_of_getLast? hr

theorem TagsEnd.append (ha : TagsEnd a) (hb : TagsEnd b) : TagsEnd (a ++ b) := by
  intro x r h
  rcases List.append_eq_append_iff.mp h with ⟨c, -, hc⟩ | ⟨c, hc, hr⟩
  · exact hb c r hc
  · cases c with
    | nil => exact hb [] r hr.symm
    | cons d c =>
      obtain ⟨rfl, rfl⟩ := List.cons.inj hr
      exact List.mem_append_left b (ha x c hc)

theorem tagless_of_no_mark (h : '<' ∉ t) : Tagless t := by
  rintro a r rfl
  exact absurd (List.mem_append_right a List.mem_cons_self) h

theorem tagless_open (h : '>' ∉ r) : Tagless ('<' :: r) := by
  intro a x heq hgt
  cases a with
  | nil => exact h ((List.cons.inj heq).2 ▸ hgt)
  | cons d a =>
    obtain ⟨-, rfl⟩ := List.cons.inj heq
    exact h (List.mem_append_right a (List.mem_cons_of_mem '<' hgt))

theorem tagless_cons (hc : c ≠ '<') (h : Tagless t) : Tagless (c :: t) := by
  intro a r heq
  cases a with
  | nil => exact absurd (List.cons.inj heq).1 hc
  | cons d a => exact h a r (List.cons.inj heq).2

theorem stripTags_cons (hc : c ≠ '<') (r : Text) : stripTags (c :: r) = c :: stripTags r := by
  rw [stripTags, if_neg hc]

/-- A tag goes away through its first `>`. -/
theorem stripTags_tag (hp : '>' ∉ p) (q : Text) : stripTags ('<' :: (p ++ '>' :: q)) = stripTags q := by
  rw [stripTags, if_pos rfl, if_pos (by simp), (cut_char '>' hp q).2.2]

theorem stripTags_open (h : '>' ∉ r) : stripTags ('<' :: r) = '<' :: r := by
  rw [stripTags, if_pos rfl, if_neg h]

/-- What a text begins with: a tag, a `<` that does not end, or another character. -/
@[elab_as_elim]
theorem tag_induction {motive : Text → Prop} (nil : motive [])
    (tag : ∀ p q, '>' ∉ p → motive q → motive ('<' :: (p ++ '>' :: q)))
    (opened : ∀ r, '>' ∉ r → motive ('<' :: r))
    (cons : ∀ c r, c ≠ '<' → motive r → motive (c :: r)) (t : Text) : motive t := by
  fun_induction stripTags t with
  | case1 => exact nil
  | case2 r hgt ih =>
    obtain ⟨p, q, rfl, hp⟩ := List.eq_append_cons_of_mem hgt
    rw [(cut_char '>' hp q).2.2] at ih
    exact tag p q hp ih
  | case3 r hgt => exact opened r hgt
  | case4 c r hc ih => exact cons c r hc ih

theorem stripTags_append (h : TagsEnd a) (b : Text) : stripTags (a ++ b) = stripTags a ++ stripTags b := by
  induction a using tag_induction with
  | nil => rw [List.nil_append, stripTags, List.nil_append]
  | tag p q hp ih =>
    have hq : TagsEnd ('<' :: (p ++ ['>']) ++ q) := by simpa using h
    have happend : '<' :: (p ++ '>' :: q) ++ b = '<' :: (p ++ '>' :: (q ++ b)) := by simp
    rw [happend, stripTags_tag hp, stripTags_tag hp, ih hq.suffix]
  | opened r hr => exact absurd (h [] r rfl) hr
  | cons c r hc ih =>
    have hr : TagsEnd ([c] ++ r) := h
    rw [List.cons_append, stripTags_cons hc, stripTags_cons hc, ih hr.suffix, List.cons_append]

/-- No tag comes up where the pieces around a match meet: an open `<` is only left with all that follows
it, and no `>` is there. -/
theorem tagless_stripTags (t : Text) : Tagless (stripTags t) := by
  induction t using tag_induction with
  | nil =>
    rw [stripTags]
    exact tagless_of_no_mark List.not_mem_nil
  | tag p q hp ih =>
    rw [stripTags_tag hp]
    exact ih
  | opened r hr =>
    rw [stripTags_open hr]
    exact tagless_open hr
  | cons c r hc ih =>
    rw [stripTags_cons hc]
    exact tagless_cons hc ih

theorem stripTags_of_tagless (h : Tagless t) : stripTags t = t := by
  induction t using tag_induction with
  | nil => rw [stripTags]
  | tag p q _ _ => exact absurd (List.mem_append_right p List.mem_cons_self) (h [] _ rfl)
  | opened r hr => exact stripTags_open hr
  | cons c r hc ih => rw [stripTags_cons hc, ih fun a x hr => h (c :: a) x (congrArg (c :: ·) hr)]

theorem stripTags_of_no_mark (h : '<' ∉ t) : stripTags t = t :=
  stripTags_of_tagless (tagless_of_no_mark h)

theorem tagsEnd_of_stripTags (h : '<' ∉ stripTags t) : TagsEnd t := by
  induction t using tag_induction with
  | nil => exact tagsEnd_of_no_mark List.not_mem_nil
  | tag p q hp ih =>
    rw [stripTags_tag hp] at h
    have happend : '<' :: (p ++ '>' :: q) = '<' :: p ++ ['>'] ++ q := by simp
    rw [happend]
    exact (tagsEnd_append_gt _).append (ih h)
  | opened r hr =>
    rw [stripTags_open hr] at h
    exact absurd List.mem_cons_self h
  | cons c r hc ih =>
    rw [stripTags_cons hc, List.mem_cons, not_or] at h
    have hfirst : TagsEnd [c] := tagsEnd_of_no_mark fun hmark => h.1 (List.mem_singleton.mp hmark)
    exact hfirst.append (ih h.2)

/-- A piece is left alone by what follows exactly when its tags end: a `>` behind it would end one that
is open. -/
theorem stripTags_append_iff :
    (∀ b, stripTags (a ++ b) = stripTags a ++ stripTags b) ↔ TagsEnd a := by
  refine ⟨fun h => tagsEnd_of_stripTags fun hmark => ?_, stripTags_append⟩
  have hgt : stripTags ['>'] = ['>'] := stripTags_of_no_mark (by decide)
  have htagless := tagless_stripTags (a ++ ['>'])
  rw [h, hgt] at htagless
  obtain ⟨x, r, hr⟩ := List.append_of_mem hmark
  exact htagless x (r ++ ['>']) (by rw [hr]; simp) (by simp)

/-- A text without tags is one in which the pattern has no match. -/
theorem tagless_iff : Tagless t ↔ ∀ {b m a}, IsTag m → t ≠ b ++ (m ++ a) := by
  constructor
  · rintro h b m a ⟨p, -, rfl⟩ rfl
    exact h b (p ++ ['>'] ++ a) rfl (by simp)
  · intro h a r ht hgt
    obtain ⟨p, q, rfl, hp⟩ := List.eq_append_cons_of_mem hgt
    exact h ⟨p, hp, rfl⟩ (by simpa using ht : t = a ++ ('<' :: (p ++ ['>']) ++ q))

/-- The leftmost match begins at the first `<`: the `>` that ends the match would end a tag from any
`<` before it as well. -/
theorem firstTag_iff :
    FirstTag t before m after ↔ t = before ++ (m ++ after) ∧ IsTag m ∧ '<' ∉ before := by
  constructor
  · intro h
    refine ⟨h.text, h.isTag, fun hmark => ?_⟩
    obtain ⟨b, c, rfl⟩ := List.append_of_mem hmark
    obtain ⟨p, -, hm⟩ := h.isTag
    have hgt : '>' ∈ c ++ m := by simp [hm]
    obtain ⟨d, r, hd, hnot⟩ := List.eq_append_cons_of_mem hgt
    have htext : t = b ++ ('<' :: (d ++ ['>']) ++ (r ++ after)) := by
      rw [h.text, List.append_assoc, List.cons_append, ← List.append_assoc c, hd]
      simp
    have hle := h.leftmost htext ⟨d, hnot, rfl⟩
    rw [List.length_append, List.length_cons] at hle
    omega
  · rintro ⟨rfl, hm, hmark⟩
    refine ⟨rfl, hm, ?_⟩
    rintro b n a heq ⟨p, -, rfl⟩
    rcases List.append_eq_append_iff.mp heq with ⟨c, rfl, -⟩ | ⟨c, rfl, hc⟩
    · simp
    · cases c with
      | nil => simp
      | cons d c =>
        obtain rfl : '<' = d := (List.cons.inj hc).1
        exact absurd (List.mem_append_right b List.mem_cons_self) hmark

theorem FirstTag.stripTags (h : FirstTag t before m after) :
    Text.stripTags t = before ++ Text.stripTags after := by
  obtain ⟨rfl, ⟨p, hp, rfl⟩, hmark⟩ := firstTag_iff.mp h
  have hshape : '<' :: (p ++ ['>']) ++ after = '<' :: (p ++ '>' :: after) := by simp
  rw [stripTags_append (tagsEnd_of_no_mark hmark), stripTags_of_no_mark hmark, hshape, stripTags_tag hp]

theorem Strips.cons (hc : c ≠ '<') (h : Strips t u) : Strips (c :: t) (c :: u) := by
  cases h with
  | done h => exact .done (tagless_iff.mp (tagless_cons hc (tagless_iff.mpr h)))
  | @tag _ before m after _ h hrest =>
    obtain ⟨rfl, hm, hmark⟩ := firstTag_iff.mp h
    have hfirst : FirstTag (c :: (before ++ (m ++ after))) (c :: before) m after :=
      firstTag_iff.mpr ⟨rfl, hm, List.not_mem_cons_of_ne_of_not_mem (Ne.symm hc) hmark⟩
    exact .tag hfirst hrest

theorem strips_stripTags (t : Text) : Strips t (stripTags t) := by
  induction t using tag_induction with
  | nil =>
    rw [stripTags]
    exact .done (tagless_iff.mp (tagless_of_no_mark List.not_mem_nil))
  | tag p q hp ih =>
    rw [stripTags_tag hp]
    have hfirst : FirstTag ('<' :: (p ++ '>' :: q)) [] ('<' :: (p ++ ['>'])) q :=
      firstTag_iff.mpr ⟨by simp, ⟨p, hp, rfl⟩, List.not_mem_nil⟩
    exact .tag hfirst ih
  | opened r hr =>
    rw [stripTags_open hr]
    exact .done (tagless_iff.mp (tagless_open hr))
  | cons c r hc ih =>
    rw [stripTags_cons hc]
    exact ih.cons hc

/-- Taking out tags is exactly the one pass over the matches of the pattern. -/
theorem stripTags_eq_iff : stripTags t = u ↔ Strips t u := by
  constructor
  · rintro rfl
    exact strips_stripTags t
  · intro h
    induction h with
    | done h => exact stripTags_of_tagless (tagless_iff.mpr h)
    | tag h _ ih => rw [h.stripTags, ih]

/-- Text without tags is what one pass over the matches of the pattern leaves. It has no tag, so a second
pass changes nothing; and a text may be cut behind a piece exactly when every tag that begins in the piece
ends there. -/
theorem stripTags_pass (t : Text) :
    (∀ u, stripTags t = u ↔ Strips t u) ∧ (∀ a r, stripTags t = a ++ '<' :: r → '>' ∉ r) ∧
      stripTags (stripTags t) = stripTags t ∧
      ((∀ b, stripTags (t ++ b) = stripTags t ++ stripTags b) ↔ TagsEnd t) :=
  ⟨fun _ => stripTags_eq_iff, tagless_stripTags t, stripTags_of_tagless (tagless_stripTags t),
    stripTags_append_iff⟩

/-- The `<` before a tag belongs to its match, and what comes together around the match is no tag. -/
example : stripTags "a<<b>i>c<d".toList = "ai>c<d".toList := by decide +kernel

end TemplateTree.Text
