import TemplateTree.Proofs.Token.Startless
import TemplateTree.Text.Title

/-! The title of a text as the match of a pattern. Neither tag can overlap itself or the other one, so
a new title that stays on its line and holds no end tag is found in the same place. -/
namespace TemplateTree.Text

variable {here : Text → Bool} {a b c d p r t u w x y : Text} {before title after : Text}

/-- A title between its tags, with what stands around it. -/
def tagged (before title after : Text) : Text :=
  before ++ (titleOpen ++ (title ++ (titleClose ++ after)))

theorem tagged_ne_nil (before title after : Text) : tagged before title after ≠ [] :=
  List.append_ne_nil_of_right_ne_nil _ (List.append_ne_nil_of_left_ne_nil (by decide) _)

/-- The text can stand as a title: it stays on its line and does not end itself. -/
structure FitsTitle (t : Text) : Prop where
  line : '\n' ∉ t
  inside : ¬ titleClose <:+: t

/-- The title is the match of the pattern: its tag is the leftmost one that has an end tag on its line,
and it goes to the nearest end tag. -/
structure Leading (c before title after : Text) : Prop where
  text : c = tagged before title after
  line : '\n' ∉ title
  leftmost : ∀ {b t a}, c = tagged b t a → '\n' ∉ t → before.length ≤ b.length
  nearest : ∀ {t a}, title ++ (titleClose ++ after) = t ++ (titleClose ++ a) →
    title.length ≤ t.length

/-- What is left out at the front of a cut was passed over. -/
theorem passed (h : upTo here x = a ++ b) (hb : b ≠ []) : here (b ++ onward here x) = false := by
  induction x generalizing a with
  | nil =>
    obtain ⟨-, rfl⟩ := List.append_eq_nil_iff.mp h.symm
    exact absurd rfl hb
  | cons c r ih =>
    by_cases hc : here (c :: r) = true
    · obtain ⟨-, rfl⟩ := List.append_eq_nil_iff.mp ((if_pos hc).symm.trans h).symm
      exact absurd rfl hb
    · simp only [upTo, onward, hc, Bool.false_eq_true, if_false] at h ⊢
      cases a with
      | nil =>
        rw [List.nil_append] at h
        rw [← h, List.cons_append, upTo_append_onward]
        simpa using hc
      | cons d a => exact ih (List.cons.inj h).2

theorem length_upTo_le (h : here x = true) : (upTo here (a ++ x)).length ≤ a.length := by
  induction a with
  | nil => rw [List.nil_append, (cut_here (Or.inr h)).1]
  | cons c a ih =>
    rw [List.cons_append, upTo]
    split
    · simp
    · simpa using ih

theorem onward_ne_nil (h : here x = true) (hx : x ≠ []) : onward here (a ++ x) ≠ [] := by
  induction a with
  | nil => rwa [List.nil_append, (cut_here (Or.inr h)).2]
  | cons c a ih =>
    rw [List.cons_append, onward]
    split
    · exact List.cons_ne_nil _ _
    · exact ih

/-- A cut that looks at what is in front of a mark only falls there, or else behind the mark. -/
theorem onward_append (hmark : ∀ b x, b ≠ [] → AtMark x → here (b ++ x) = here b) (a : Text)
    (hx : AtMark x) : onward here (a ++ x) =
      if onward here a = [] then onward here x else onward here a ++ x := by
  induction a with
  | nil => rfl
  | cons c a ih =>
    have hc : here (c :: (a ++ x)) = here (c :: a) := hmark (c :: a) x (List.cons_ne_nil c a) hx
    rw [List.cons_append, onward, onward, hc]
    split
    · rfl
    · exact ih

theorem starts_iff : starts w x = true ↔ ∃ r, x = w ++ r := by
  rw [starts, List.isPrefixOf_iff_prefix]
  exact exists_congr fun _ => eq_comm

/-- A tag that has begun is not completed by a mark. -/
theorem starts_mark (hw : '<' ∉ w) (hb : b ≠ []) (hx : AtMark x) :
    starts ('<' :: w) (b ++ x) = starts ('<' :: w) b := by
  obtain ⟨d, b, rfl⟩ := List.exists_cons_of_ne_nil hb
  simp only [starts, List.cons_append, List.isPrefixOf]
  congr 1
  cases b with
  | cons e b => exact starts_atMark hw (List.cons_ne_nil e b) hx
  | nil =>
    rcases hx with rfl | ⟨r, rfl⟩
    · rfl
    · cases w with
      | nil => rfl
      | cons e w =>
        have he : e ≠ '<' := (List.ne_of_not_mem_cons hw).symm
        simp [List.isPrefixOf, he]

theorem starts_titleOpen (hb : b ≠ []) (hx : AtMark x) :
    starts titleOpen (b ++ x) = starts titleOpen b :=
  starts_mark (by decide : '<' ∉ "title>".toList) hb hx

theorem starts_titleClose (hb : b ≠ []) (hx : AtMark x) :
    starts titleClose (b ++ x) = starts titleClose b :=
  starts_mark (by decide : '<' ∉ "/title>".toList) hb hx

theorem stopsTitle_append (hb : b ≠ []) (hx : AtMark x) : stopsTitle (b ++ x) = stopsTitle b := by
  rw [stopsTitle, stopsTitle, starts_titleClose hb hx, starts_atMark (by decide) hb hx]

theorem atMark_close (a : Text) : AtMark (titleClose ++ a) := Or.inr ⟨_, rfl⟩

theorem atMark_open (a : Text) : AtMark (titleOpen ++ a) := Or.inr ⟨_, rfl⟩

theorem starts_close (a : Text) : starts titleClose (titleClose ++ a) = true := starts_iff.mpr ⟨a, rfl⟩

theorem stopsTitle_close (a : Text) : stopsTitle (titleClose ++ a) = true := by
  rw [stopsTitle, starts_close, Bool.true_or]

/-- A title on its line ends at an end tag. -/
theorem closes_of_line (h : '\n' ∉ t) (a : Text) :
    starts titleClose (onward stopsTitle (t ++ (titleClose ++ a))) = true := by
  induction t with
  | nil =>
    rw [List.nil_append, (cut_here (Or.inr (stopsTitle_close a))).2]
    exact starts_close a
  | cons c t ih =>
    rw [List.mem_cons, not_or] at h
    rw [List.cons_append, onward]
    split
    · next hstop =>
      have hline : starts ['\n'] (c :: (t ++ (titleClose ++ a))) = false := by
        simp [starts, List.isPrefixOf, h.1]
      simpa [stopsTitle, hline] using hstop
    · exact ih h.2

/-- A title that fits ends where it is meant to. -/
theorem FitsTitle.cut (h : FitsTitle t) (a : Text) :
    upTo stopsTitle (t ++ (titleClose ++ a)) = t ∧
      onward stopsTitle (t ++ (titleClose ++ a)) = titleClose ++ a := by
  induction t with
  | nil => exact cut_here (Or.inr (stopsTitle_close a))
  | cons c t ih =>
    have hgo : stopsTitle (c :: t ++ (titleClose ++ a)) = false := by
      rw [stopsTitle_append (List.cons_ne_nil c t) (atMark_close a), stopsTitle, Bool.or_eq_false_iff]
      constructor
      · refine Bool.eq_false_iff.mpr fun hclose => h.inside ?_
        exact (List.isPrefixOf_iff_prefix.mp hclose).isInfix
      · have hc : '\n' ≠ c := (List.ne_of_not_mem_cons h.line)
        simp [starts, List.isPrefixOf, hc]
    have hrest : FitsTitle t :=
      ⟨fun hm => h.line (List.mem_cons_of_mem c hm), fun hi => h.inside (hi.trans (List.suffix_cons c t).isInfix)⟩
    obtain ⟨hup, hon⟩ := ih hrest
    rw [List.cons_append] at hgo ⊢
    simp [upTo, onward, hgo, hup, hon]

/-- What comes before the first stop fits. -/
theorem fitsTitle_upTo (x : Text) : FitsTitle (upTo stopsTitle x) where
  line h := by
    obtain ⟨a, b, hab⟩ := List.append_of_mem h
    have := passed hab (List.cons_ne_nil _ b)
    simp [stopsTitle, starts, List.isPrefixOf] at this
  inside := by
    rintro ⟨a, b, hab⟩
    rw [List.append_assoc] at hab
    have hne : titleClose ++ b ≠ [] := List.cons_ne_nil '<' _
    have hpassed := passed hab.symm hne
    rw [List.append_assoc, stopsTitle_close] at hpassed
    cases hpassed

theorem titleHere?_eq_some_iff :
    titleHere? x = some t ↔ FitsTitle t ∧ ∃ a, x = titleOpen ++ (t ++ (titleClose ++ a)) := by
  constructor
  · intro h
    simp only [titleHere?] at h
    split at h
    · next hboth =>
      obtain ⟨hopen, hclose⟩ := Bool.and_eq_true_iff.mp hboth
      obtain ⟨y, rfl⟩ := starts_iff.mp hopen
      rw [List.drop_left] at h hclose
      obtain rfl := Option.some.inj h
      obtain ⟨a, ha⟩ := starts_iff.mp hclose
      exact ⟨fitsTitle_upTo y, a, by rw [← ha, upTo_append_onward]⟩
    · cases h
  · rintro ⟨hfits, a, rfl⟩
    obtain ⟨hup, hon⟩ := hfits.cut a
    have hopen : starts titleOpen (titleOpen ++ (t ++ (titleClose ++ a))) = true := starts_iff.mpr ⟨_, rfl⟩
    simp only [titleHere?, List.drop_left, hup, hon, hopen, starts_close, Bool.and_self, if_true]

/-- Whether a title begins shows when its opening tag and its end tag do, however far the end is. -/
theorem titleBegins_iff :
    titleBegins x = true ↔ ∃ t a, '\n' ∉ t ∧ x = titleOpen ++ (t ++ (titleClose ++ a)) := by
  constructor
  · intro h
    obtain ⟨t, ht⟩ := Option.isSome_iff_exists.mp h
    obtain ⟨hfits, a, ha⟩ := titleHere?_eq_some_iff.mp ht
    exact ⟨t, a, hfits.line, ha⟩
  · rintro ⟨t, a, ht, rfl⟩
    have hopen : starts titleOpen (titleOpen ++ (t ++ (titleClose ++ a))) = true := starts_iff.mpr ⟨_, rfl⟩
    simp [titleBegins, titleHere?, hopen, closes_of_line ht]

theorem titleBegins_tag (h : '\n' ∉ t) (a : Text) :
    titleBegins (titleOpen ++ (t ++ (titleClose ++ a))) = true := titleBegins_iff.mpr ⟨t, a, h, rfl⟩

theorem FitsTitle.nearest (h : FitsTitle t) {after u a : Text}
    (heq : t ++ (titleClose ++ after) = u ++ (titleClose ++ a)) : t.length ≤ u.length := by
  have hcut := length_upTo_le (a := u) (stopsTitle_close a)
  rwa [← heq, (h.cut after).1] at hcut

/-- A match of the pattern is where the search stops. -/
theorem leading_iff : Leading c before title after ↔ upTo titleBegins c = before ∧
    onward titleBegins c = titleOpen ++ (title ++ (titleClose ++ after)) ∧ FitsTitle title := by
  constructor
  · intro h
    have hhere := titleBegins_tag h.line after
    have hle : (upTo titleBegins c).length ≤ before.length := by
      rw [h.text]
      exact length_upTo_le hhere
    have hcut : upTo titleBegins c ++ onward titleBegins c =
        before ++ (titleOpen ++ (title ++ (titleClose ++ after))) :=
      (upTo_append_onward titleBegins c).trans h.text
    have hne : onward titleBegins c ≠ [] := by
      rw [h.text]
      exact onward_ne_nil hhere (List.append_ne_nil_of_left_ne_nil (by decide) _)
    have hge : before.length ≤ (upTo titleBegins c).length := by
      obtain ⟨t, a, ht, hon⟩ := titleBegins_iff.mp (onward_holds hne)
      refine h.leftmost ?_ ht (a := a)
      rw [tagged, ← hon, upTo_append_onward]
    obtain ⟨hup, hon⟩ := List.append_inj hcut (Nat.le_antisymm hle hge)
    refine ⟨hup, hon, h.line, ?_⟩
    rintro ⟨a, b, hinside⟩
    have hnear : title.length ≤ a.length := by
      refine h.nearest (a := b ++ (titleClose ++ after)) ?_
      rw [← hinside]
      simp only [List.append_assoc]
    have hlength := congrArg List.length hinside
    have hclose : titleClose.length = 8 := rfl
    rw [List.length_append, List.length_append] at hlength
    omega
  · rintro ⟨rfl, hon, hfits⟩
    refine ⟨?_, hfits.line, fun {b t a} htext ht => ?_, hfits.nearest⟩
    · rw [tagged, ← hon, upTo_append_onward]
    · rw [htext]
      exact length_upTo_le (titleBegins_tag ht a)

/-- The title of a text is the match of the pattern. -/
theorem title?_eq_some_iff : title? c = some t ↔ ∃ before after, Leading c before t after := by
  rw [title?, titleHere?_eq_some_iff]
  constructor
  · rintro ⟨hfits, a, ha⟩
    exact ⟨_, a, leading_iff.mpr ⟨rfl, ha, hfits⟩⟩
  · rintro ⟨b, a, h⟩
    obtain ⟨-, hon, hfits⟩ := leading_iff.mp h
    exact ⟨hfits, a, hon⟩

/-- There is a title as soon as there is an opening tag with an end tag on its line. -/
theorem title?_eq_none_iff : title? c = none ↔ ∀ {b t a}, c = tagged b t a → '\n' ∈ t := by
  constructor
  · intro h b t a hc
    by_contra ht
    have hne : onward titleBegins c ≠ [] := by
      rw [hc]
      exact onward_ne_nil (titleBegins_tag ht a) (List.append_ne_nil_of_left_ne_nil (by decide) _)
    have hbegins : (title? c).isSome = true := onward_holds hne
    rw [h] at hbegins
    cases hbegins
  · intro h
    by_contra hne
    obtain ⟨t, ht⟩ := Option.ne_none_iff_exists'.mp hne
    obtain ⟨b, a, hlead⟩ := title?_eq_some_iff.mp ht
    exact hlead.line (h hlead.text)

theorem Leading.setTitle? (h : Leading c before title after) (new : Text) :
    setTitle? new c = some (tagged before new after) := by
  obtain ⟨hup, hon, -⟩ := leading_iff.mp h
  have htitle : title? c = some title := title?_eq_some_iff.mpr ⟨before, after, h⟩
  have hrest : (titleOpen ++ (title ++ (titleClose ++ after))).drop
      (titleOpen.length + title.length + titleClose.length) = after := by
    rw [← List.append_assoc, ← List.append_assoc, ← List.length_append, ← List.length_append,
      List.drop_left]
  rw [Text.setTitle?, htitle, Option.map_some, hup, hon, hrest, tagged]
  simp only [List.append_assoc]

theorem setTitle?_of_none (h : title? c = none) (new : Text) : Text.setTitle? new c = none := by
  rw [Text.setTitle?, h, Option.map_none]

/-- Whether a title begins before another one does not depend on what that one says. -/
theorem titleBegins_front (hd : d ≠ []) (ht : '\n' ∉ t) (hu : '\n' ∉ u) (a : Text) :
    titleBegins (d ++ (titleOpen ++ (t ++ (titleClose ++ a)))) =
      titleBegins (d ++ (titleOpen ++ (u ++ (titleClose ++ a)))) := by
  have hline : ∀ {t : Text}, '\n' ∉ t → '\n' ∉ titleOpen ++ t := by
    intro t ht hmem
    rcases List.mem_append.mp hmem with hopen | hmem
    · exact absurd hopen (by decide)
    · exact ht hmem
  -- What stands before the tag decides, unless it opens a title that goes on beyond the tag.
  have hfront : ∀ {t : Text}, '\n' ∉ t → titleBegins (d ++ (titleOpen ++ (t ++ (titleClose ++ a)))) =
      (starts titleOpen d && (onward stopsTitle (d.drop titleOpen.length) = [] ||
        starts titleClose (onward stopsTitle (d.drop titleOpen.length)))) := by
    intro t ht
    have hmark := atMark_open (t ++ (titleClose ++ a))
    by_cases hopen : starts titleOpen d = true
    · obtain ⟨e, rfl⟩ := starts_iff.mp hopen
      have hhere : ∀ z, starts titleOpen (titleOpen ++ z) = true := fun z => starts_iff.mpr ⟨z, rfl⟩
      have hclose := closes_of_line (hline ht) a
      rw [List.append_assoc] at hclose
      have hcut := onward_append (fun _ _ => stopsTitle_append) e hmark
      rw [titleBegins, titleHere?, List.append_assoc]
      simp only [List.drop_left, hhere, Bool.true_and, hcut]
      by_cases he : onward stopsTitle e = []
      · simp [he, hclose]
      · rw [if_neg he, starts_titleClose he hmark, decide_eq_false he, Bool.false_or]
        split <;> simp [*]
    · rw [titleBegins, titleHere?, starts_titleOpen hd hmark]
      simp [hopen]
  rw [hfront ht, hfront hu]

/-- The match stays where it is when its title is exchanged for one that fits. -/
theorem Leading.replace (h : Leading c before title after) (hu : FitsTitle u) :
    Leading (tagged before u after) before u after := by
  obtain ⟨hup, hon, hfits⟩ := leading_iff.mp h
  have hbefore : upTo titleBegins (before ++ (titleOpen ++ (title ++ (titleClose ++ after)))) = before := by
    rw [← hon, ← hup, upTo_append_onward, hup]
  obtain ⟨hup', hon'⟩ := cut_swap (x := titleOpen ++ (u ++ (titleClose ++ after)))
    (fun d hd hno => (titleBegins_front hd hu.line hfits.line after).trans hno) hbefore
  obtain ⟨hnil, hhere⟩ := cut_here (Or.inr (titleBegins_tag hu.line after))
  refine leading_iff.mpr ⟨?_, ?_, hu⟩
  · rw [tagged, hup', hnil, List.append_nil]
  · rw [tagged, hon', hhere]

end TemplateTree.Text
