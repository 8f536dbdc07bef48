import Mathlib.Data.Nat.Choose.Basic
import TemplateTree.CommandLine.Run
import TemplateTree.Proofs.View.Ownership

/-! The scopes that a report shows, and how often it shows each. A search finds an inner scope again
inside every scope around it, and only in the outermost row does the report leave out what it found
inside. -/
namespace TemplateTree

universe u

namespace Forest

variable {α : Type u} {f : Forest α}

theorem map_label_rows (depth : Nat) (f : Forest α) :
    (f.rows depth).map Prod.snd = f.preorder := by
  induction f generalizing depth with
  | nil => rfl
  | cons a kids rest ihk ihr => rw [rows, preorder, List.map_cons, List.map_append, ihk, ihr]

theorem le_of_mem_rows {r : Nat × α} {depth : Nat} (h : r ∈ f.rows depth) : depth ≤ r.1 := by
  induction f generalizing depth with
  | nil => cases h
  | cons a kids rest ihk ihr =>
    rcases List.mem_cons.mp h with rfl | h
    · exact Nat.le_refl _
    · rcases List.mem_append.mp h with h | h
      · exact Nat.le_of_succ_le (ihk h)
      · exact ihr h

/-- The labels that stand directly below the outermost row. -/
def seconds : Forest α → List α
  | nil => []
  | cons _ kids rest => kids.roots ++ seconds rest

theorem mem_rows_self {a : α} {d : Nat} : (d, a) ∈ f.rows d ↔ a ∈ f.roots := by
  induction f with
  | nil => simp [rows, roots]
  | cons b kids rest _ ih =>
    have hkids : (d, a) ∉ kids.rows (d + 1) := fun h => Nat.not_succ_le_self d (le_of_mem_rows h)
    rw [rows, roots, List.mem_cons, List.mem_append, List.mem_cons, ih, Prod.mk.injEq]
    constructor
    · rintro (⟨-, rfl⟩ | h | h)
      · exact Or.inl rfl
      · exact absurd h hkids
      · exact Or.inr h
    · rintro (rfl | h)
      · exact Or.inl ⟨rfl, rfl⟩
      · exact Or.inr (Or.inr h)

theorem mem_rows_succ {a : α} {d : Nat} : (d + 1, a) ∈ f.rows d ↔ a ∈ f.seconds := by
  induction f with
  | nil => simp [rows, seconds]
  | cons b kids rest _ ih =>
    rw [rows, seconds, List.mem_cons, List.mem_append, List.mem_append, ih, mem_rows_self]
    exact or_iff_right fun h => Nat.succ_ne_self d (congrArg Prod.fst h)

/-- Where no label stands twice, a label is the first one, or below it only, or beside it only. -/
theorem mem_lineages_cons {a : α} {above : List α} {kids rest : Forest α} {e : Lineage α}
    (h : (cons a kids rest).preorder.Nodup) (he : e ∈ (cons a kids rest).lineages above) :
    (e = ⟨above, a⟩ ∧ a ∉ kids.preorder ∧ a ∉ rest.preorder) ∨
      (e ∈ kids.lineages (a :: above) ∧ kids.preorder.Nodup ∧ a ≠ e.label ∧ e.label ∉ rest.preorder) ∨
      (e ∈ rest.lineages above ∧ rest.preorder.Nodup ∧ a ≠ e.label ∧ e.label ∉ kids.preorder) := by
  obtain ⟨hself, hnodup⟩ := List.nodup_cons.mp h
  obtain ⟨hkids, hrest, hdisjoint⟩ := List.nodup_append'.mp hnodup
  rw [List.mem_append, not_or] at hself
  rcases List.mem_cons.mp he with rfl | he
  · exact Or.inl ⟨rfl, hself⟩
  rcases List.mem_append.mp he with he | he
  · have hin := mem_preorder_of_lineages he
    exact Or.inr (Or.inl ⟨he, hkids, fun ha => hself.1 (ha ▸ hin), fun hr => hdisjoint hin hr⟩)
  · have hin := mem_preorder_of_lineages he
    exact Or.inr (Or.inr ⟨he, hrest, fun ha => hself.2 (ha ▸ hin), fun hk => hdisjoint hk hin⟩)

end Forest

variable {above : List Occurrence} {f kids rest : Forest Occurrence} {o c : Occurrence}
  {e : Lineage Occurrence} {r : Nat × Occurrence} {hidden : List (Option NodeId)}

namespace Scope

/-- The scopes of a forest in pre-order, each once and at its depth. -/
def listing (above : List Occurrence) (f : Forest Occurrence) : List (Nat × Occurrence) :=
  ((f.lineages above).filter (·.label.isScope)).map fun e => (e.depth, e.label)

/-- The scopes of a forest as a report shows them: below an outermost scope, all that the search found
inside it. -/
def shown : Forest Occurrence → List (Nat × Occurrence)
  | .nil => []
  | .cons o kids rest =>
    (if o.isScope then (0, o) :: (tree kids).rows 1 else shown kids) ++ shown rest

/-- How often a scope is shown at a depth, by the number of scopes around it: once for every choice of
the scopes to be shown around it below the outermost one. -/
def times : Nat → Nat → Nat
  | 0, 0 => 1
  | 0, _ + 1 => 0
  | _ + 1, 0 => 0
  | around + 1, depth + 1 => around.choose depth

theorem listing_cons : listing above (.cons o kids rest) =
    (if o.isScope then [(above.countP Occurrence.isScope, o)] else []) ++
      (listing (o :: above) kids ++ listing above rest) := by
  rw [listing, Forest.lineages, List.filter_cons, List.filter_append]
  cases ho : o.isScope with
  | true => simp [listing, Lineage.depth]
  | false => simp [listing]

theorem shown_scope (ho : o.isScope = true) :
    shown (.cons o kids rest) = (0, o) :: (tree kids).rows 1 ++ shown rest := by
  rw [shown, if_pos ho]

theorem shown_plain (ho : o.isScope = false) :
    shown (.cons o kids rest) = shown kids ++ shown rest := by
  rw [shown, ho, if_neg Bool.false_ne_true]

theorem mem_rows_tree {d : Nat} (h : r ∈ (tree f).rows d) :
    r.2 ∈ f.preorder ∧ r.2.isScope = true := by
  apply mem_tree
  rw [← Forest.map_label_rows d]
  exact List.mem_map_of_mem h

theorem mem_shown (h : r ∈ shown f) : r.2 ∈ f.preorder ∧ r.2.isScope = true := by
  induction f with
  | nil => cases h
  | cons o kids rest ihk ihr =>
    rw [shown, List.mem_append] at h
    rw [Forest.mem_preorder_cons]
    rcases h with h | h
    · split at h
      · next ho =>
        rcases List.mem_cons.mp h with rfl | h
        · exact ⟨Or.inl rfl, ho⟩
        · exact (mem_rows_tree h).imp_left fun hk => Or.inr (Or.inl hk)
      · exact (ihk h).imp_left fun hk => Or.inr (Or.inl hk)
    · exact (ihr h).imp_left fun hr => Or.inr (Or.inr hr)

theorem mem_listing : r ∈ listing above f ↔
    ∃ e ∈ f.lineages above, e.label.isScope = true ∧ r = (e.depth, e.label) := by
  rw [listing, List.mem_map]
  constructor
  · rintro ⟨e, he, rfl⟩
    exact ⟨e, (List.mem_filter.mp he).1, (List.mem_filter.mp he).2, rfl⟩
  · rintro ⟨e, he, hscope, rfl⟩
    exact ⟨e, List.mem_filter.mpr ⟨he, hscope⟩, rfl⟩

/-- Every scope is among those below the top at its own depth. -/
theorem listing_sublist_rows (above : List Occurrence) (f : Forest Occurrence) :
    (listing above f).Sublist ((tree f).rows (above.countP Occurrence.isScope)) := by
  induction f generalizing above with
  | nil => exact .slnil
  | cons o kids rest ihk ihr =>
    have hkids := ihk (o :: above)
    rw [listing_cons]
    cases ho : o.isScope with
    | true =>
      rw [countP_scope ho] at hkids
      rw [tree_scope ho, Forest.rows, Forest.rows_append, if_pos rfl]
      exact (hkids.append ((ihr above).trans (List.sublist_append_right ..))).cons_cons _
    | false =>
      rw [countP_plain ho] at hkids
      rw [tree_plain ho, Forest.rows_append, if_neg Bool.false_ne_true]
      exact hkids.append (ihr above)

/-- The report shows every scope where it belongs, and in pre-order. -/
theorem listing_sublist_shown (h : above.countP Occurrence.isScope = 0) :
    (listing above f).Sublist (shown f) := by
  induction f generalizing above with
  | nil => exact .slnil
  | cons o kids rest ihk ihr =>
    rw [listing_cons]
    cases ho : o.isScope with
    | true =>
      have hkids := listing_sublist_rows (o :: above) kids
      rw [countP_scope ho, h] at hkids
      rw [shown_scope ho, if_pos rfl, h, List.cons_append]
      exact (hkids.append (ihr h)).cons_cons _
    | false =>
      rw [shown_plain ho, if_neg Bool.false_ne_true]
      exact (ihk ((countP_plain ho).trans h)).append (ihr h)

theorem depth_le (he : e ∈ f.lineages above) : above.countP Occurrence.isScope ≤ e.depth := by
  induction f generalizing above with
  | nil => cases he
  | cons o kids rest ihk ihr =>
    rcases List.mem_cons.mp he with rfl | he
    · exact Nat.le_refl _
    · rcases List.mem_append.mp he with he | he
      · exact Nat.le_trans (List.Sublist.countP_le (List.sublist_cons_self o above)) (ihk he)
      · exact ihr he

theorem count_rows_eq_zero (hc : c ∉ f.preorder) (d i : Nat) :
    ((tree f).rows d).count (i, c) = 0 :=
  List.count_eq_zero.mpr fun h => hc (mem_rows_tree h).1

theorem count_rows_below {d i : Nat} (h : i < d) : ((tree f).rows d).count (i, c) = 0 :=
  List.count_eq_zero.mpr fun hr => Nat.not_lt.mpr (Forest.le_of_mem_rows hr) h

theorem count_shown_eq_zero (hc : c ∉ f.preorder) (d : Nat) : (shown f).count (d, c) = 0 :=
  List.count_eq_zero.mpr fun h => hc (mem_shown h).1

theorem count_rows_scope (ho : o.isScope = true) (hne : o ≠ c) (d i : Nat) :
    ((tree (.cons o kids rest)).rows d).count (i, c) = ((tree kids).rows (d + 1)).count (i, c) +
      (((tree kids).rows d).count (i, c) + ((tree rest).rows d).count (i, c)) := by
  rw [tree_scope ho, Forest.rows, Forest.rows_append,
    List.count_cons_of_ne fun h => hne (congrArg Prod.snd h), List.count_append, List.count_append]

theorem count_rows_plain (ho : o.isScope = false) (d i : Nat) :
    ((tree (.cons o kids rest)).rows d).count (i, c) =
      ((tree kids).rows d).count (i, c) + ((tree rest).rows d).count (i, c) := by
  rw [tree_plain ho, Forest.rows_append, List.count_append]

/-- Every choice of the scopes around a scope is a place where the search finds it. -/
theorem count_rows (h : f.preorder.Nodup) (he : e ∈ f.lineages above)
    (hscope : e.label.isScope = true) :
    ∃ between, e.depth = above.countP Occurrence.isScope + between ∧
      ∀ d i, ((tree f).rows d).count (d + i, e.label) = between.choose i := by
  induction f generalizing above with
  | nil => cases he
  | cons o kids rest ihk ihr =>
    rcases Forest.mem_lineages_cons h he with
      ⟨rfl, hkids, hrest⟩ | ⟨he, hkids, hne, hrest⟩ | ⟨he, hrest, hne, hkids⟩
    · refine ⟨0, rfl, fun d i => ?_⟩
      rw [tree_scope hscope, Forest.rows, Forest.rows_append, List.count_cons, List.count_append,
        List.count_append, count_rows_eq_zero hkids, count_rows_eq_zero hkids,
        count_rows_eq_zero hrest]
      cases i <;> simp
    · obtain ⟨between, hdepth, hcount⟩ := ihk hkids he
      cases ho : o.isScope with
      | false =>
        refine ⟨between, by rw [hdepth, countP_plain ho], fun d i => ?_⟩
        rw [count_rows_plain ho, hcount, count_rows_eq_zero hrest, Nat.add_zero]
      | true =>
        refine ⟨between + 1, by rw [hdepth, countP_scope ho]; omega, fun d i => ?_⟩
        rw [count_rows_scope ho hne, hcount, count_rows_eq_zero hrest, Nat.add_zero]
        -- The scope is found below the first one, or else beside it.
        cases i with
        | zero =>
          have habsent : d + 0 < d + 1 := Nat.lt_succ_self d
          rw [count_rows_below habsent, Nat.choose_zero_right, Nat.choose_zero_right]
        | succ i =>
          have hdeeper : d + (i + 1) = d + 1 + i := by omega
          rw [hdeeper, hcount, Nat.choose_succ_succ, Nat.add_zero]
    · obtain ⟨between, hdepth, hcount⟩ := ihr hrest he
      refine ⟨between, hdepth, fun d i => ?_⟩
      cases ho : o.isScope with
      | false => rw [count_rows_plain ho, hcount, count_rows_eq_zero hkids, Nat.zero_add]
      | true =>
        rw [count_rows_scope ho hne, hcount, count_rows_eq_zero hkids, count_rows_eq_zero hkids,
          Nat.zero_add, Nat.zero_add]

/-- A scope is found directly below an outermost one exactly when another one is around it. -/
theorem mem_seconds_tree (h : f.preorder.Nodup) (he : e ∈ f.lineages [])
    (hscope : e.label.isScope = true) : e.label ∈ (tree f).seconds ↔ e.depth ≠ 0 := by
  obtain ⟨between, hdepth, hcount⟩ := count_rows h he hscope
  have hbetween : e.depth = between := hdepth.trans (Nat.zero_add between)
  have honce := hcount 0 1
  rw [Nat.choose_one_right] at honce
  rw [← Forest.mem_rows_succ (d := 0), ← List.count_pos_iff, honce, hbetween, Nat.pos_iff_ne_zero]

/-- How often the report shows a scope. -/
theorem count_shown (h : f.preorder.Nodup) (habove : above.countP Occurrence.isScope = 0)
    (he : e ∈ f.lineages above) (hscope : e.label.isScope = true) (d : Nat) :
    (shown f).count (d, e.label) = times e.depth d := by
  induction f generalizing above with
  | nil => cases he
  | cons o kids rest ihk ihr =>
    rcases Forest.mem_lineages_cons h he with
      ⟨rfl, hkids, hrest⟩ | ⟨he, hkids, hne, hrest⟩ | ⟨he, hrest, hne, hkids⟩
    · have hdepth : (⟨above, o⟩ : Lineage Occurrence).depth = 0 := habove
      rw [shown_scope hscope, hdepth, List.cons_append, List.count_cons, List.count_append,
        count_rows_eq_zero hkids, count_shown_eq_zero hrest]
      cases d <;> simp [times]
    · cases ho : o.isScope with
      | false =>
        rw [shown_plain ho, List.count_append, count_shown_eq_zero hrest, Nat.add_zero]
        exact ihk hkids ((countP_plain ho).trans habove) he
      | true =>
        obtain ⟨between, hdepth, hcount⟩ := count_rows hkids he hscope
        rw [countP_scope ho, habove, Nat.zero_add, Nat.add_comm] at hdepth
        rw [shown_scope ho, hdepth, List.cons_append,
          List.count_cons_of_ne fun heq => hne (congrArg Prod.snd heq), List.count_append,
          count_shown_eq_zero hrest, Nat.add_zero]
        cases d with
        | zero => exact count_rows_below Nat.one_pos
        | succ d =>
          have hbelow : d + 1 = 1 + d := Nat.add_comm d 1
          rw [times, ← hcount 1 d, hbelow]
    · have hlater := ihr hrest habove he
      cases ho : o.isScope with
      | false => rw [shown_plain ho, List.count_append, hlater, count_shown_eq_zero hkids, Nat.zero_add]
      | true =>
        rw [shown_scope ho, List.cons_append,
          List.count_cons_of_ne fun heq => hne (congrArg Prod.snd heq), List.count_append, hlater,
          count_rows_eq_zero hkids, Nat.zero_add]

theorem count_listing (h : f.preorder.Nodup) (he : e ∈ f.lineages above)
    (hscope : e.label.isScope = true) (d : Nat) :
    (listing above f).count (d, e.label) = if d = e.depth then 1 else 0 := by
  have hlabels : ((listing above f).map Prod.snd).Nodup := by
    rw [listing, List.map_map]
    have hsub : (((f.lineages above).filter (·.label.isScope)).map (·.label)).Sublist f.preorder := by
      rw [← Forest.map_label_lineages above]
      exact List.filter_sublist.map _
    exact h.sublist hsub
  split
  · next hd =>
    rw [hd]
    exact List.count_eq_one_of_mem hlabels.of_map (mem_listing.mpr ⟨e, he, hscope, rfl⟩)
  · next hd =>
    refine List.count_eq_zero.mpr fun hr => hd ?_
    obtain ⟨e', he', -, heq⟩ := mem_listing.mp hr
    obtain ⟨hdepth, hlabel⟩ := Prod.mk.inj heq
    rw [hdepth, Forest.lineage_inj h he he' hlabel]

theorem times_eq_iff (around : Nat) :
    (∀ d, times around d = if d = around then 1 else 0) ↔ around ≤ 1 := by
  match around with
  | 0 => exact ⟨fun _ => Nat.zero_le 1, fun _ d => by cases d <;> rfl⟩
  | 1 =>
    refine ⟨fun _ => Nat.le_refl 1, fun _ d => ?_⟩
    match d with
    | 0 => rfl
    | 1 => rfl
    | _ + 2 => rfl
  | around + 2 =>
    refine ⟨fun h => ?_, fun h => absurd h (by omega)⟩
    have honce := h 1
    rw [if_neg (by omega)] at honce
    cases honce.symm.trans (Nat.choose_zero_right (around + 1))

/-- The report shows each scope once exactly when no scope is inside two others. -/
theorem shown_eq_listing_iff (h : f.preorder.Nodup) : shown f = listing [] f ↔
    ∀ e ∈ f.lineages [], e.label.isScope = true → e.depth ≤ 1 := by
  constructor
  · intro heq e he hscope
    refine (times_eq_iff e.depth).mp fun d => ?_
    rw [← count_shown h rfl he hscope, heq, count_listing h he hscope]
  · intro hdepth
    -- The listing is a part of what is shown, and no scope is shown more often than it is listed.
    refine ((listing_sublist_shown rfl).eq_of_length ?_).symm
    apply List.Perm.length_eq
    refine List.perm_iff_count.mpr fun r => ?_
    by_cases hr : r.2 ∈ f.preorder ∧ r.2.isScope = true
    · have hlabel : r.2 ∈ (f.lineages []).map (·.label) := by
        rw [Forest.map_label_lineages]
        exact hr.1
      obtain ⟨e, he, hel⟩ := List.mem_map.mp hlabel
      obtain ⟨d, c⟩ := r
      obtain rfl : e.label = c := hel
      rw [count_listing h he hr.2, count_shown h rfl he hr.2]
      exact ((times_eq_iff e.depth).mpr (hdepth e he hr.2) d).symm
    · rw [List.count_eq_zero.mpr fun hs => hr (mem_shown hs), List.count_eq_zero.mpr fun hl => hr ?_]
      exact mem_shown ((listing_sublist_shown rfl).subset hl)

end Scope

/-- The lines of a part of the rows are all the lines only when it is all the rows. -/
theorem eq_of_lines_eq {α : Type u} {rows rows' : List α} {line : α → Text}
    (h : rows.Sublist rows') (hline : ∀ r, line r ≠ [])
    (heq : rows.flatMap line = rows'.flatMap line) : rows = rows' := by
  induction h with
  | slnil => rfl
  | @cons rows rows' r h _ =>
    have hle := (h.flatMap line).length_le
    have hlength := congrArg List.length heq
    rw [List.flatMap_cons, List.length_append] at hlength
    have hpos := List.length_pos_of_ne_nil (hline r)
    omega
  | cons_cons r _ ih =>
    rw [List.flatMap_cons, List.flatMap_cons] at heq
    rw [ih (List.append_cancel_left heq)]

namespace CommandLine.Report

open Scope

variable {g : Occurrence → Scope}

/-- The lines of scopes of a forest, each at its depth and with the properties that belong to it. -/
def linesOf (f : Forest Occurrence) (rows : List (Nat × Occurrence)) : Text :=
  rows.flatMap fun r => scopeLine r.1 (ofMember [] f r.2)

theorem scopeLine_ne_nil (depth : Nat) (a : Scope) : scopeLine depth a ≠ [] := by
  rw [scopeLine]
  exact List.append_ne_nil_of_right_ne_nil _ (List.cons_ne_nil _ _)

theorem scopeLines_eq (depth : Nat) (found : Forest Scope) : scopeLines depth found =
    (found.rows depth).flatMap fun r => scopeLine r.1 r.2 := by
  induction found generalizing depth with
  | nil => rfl
  | cons a inside rest ihi ihr =>
    rw [scopeLines, Forest.rows, List.flatMap_cons, List.flatMap_append, ihi, ihr, List.append_assoc]

theorem nested_map (hg : ∀ c, (g c).view = c.view) (f : Forest Occurrence) :
    nested (f.map g) = f.seconds.map (some ·.id) := by
  induction f with
  | nil => rfl
  | cons o kids rest _ ih =>
    rw [Forest.map, nested, Forest.seconds, List.map_append, ih, Forest.roots_map, List.map_map]
    congr 2
    funext c
    exact congrArg View.focus (hg c)

theorem outermost_append (hidden : List (Option NodeId)) (found found' : Forest Scope) :
    outermost hidden (found ++ found') = outermost hidden found ++ outermost hidden found' := by
  induction found with
  | nil => rfl
  | cons a inside rest _ ih =>
    rw [Forest.cons_append, outermost, outermost, ih]
    split
    · rfl
    · rw [← List.append_assoc]

theorem outermost_eq_nil {found : Forest Scope} (h : ∀ a ∈ found.roots, a.view.focus ∈ hidden) :
    outermost hidden found = [] := by
  induction found with
  | nil => rfl
  | cons a inside rest _ ih =>
    rw [outermost, if_pos (h a List.mem_cons_self)]
    exact ih fun b hb => h b (List.mem_cons_of_mem a hb)

/-- With all inner scopes left out of the outermost row, the lines are those of the scopes shown. -/
theorem outermost_tree (hg : ∀ c, (g c).view = c.view)
    (habove : above.countP Occurrence.isScope = 0)
    (hhidden : ∀ e ∈ f.lineages above, e.label.isScope = true →
      (some e.label.id ∈ hidden ↔ e.depth ≠ 0)) :
    outermost hidden ((tree f).map g) = (shown f).flatMap fun r => scopeLine r.1 (g r.2) := by
  have hfocus : ∀ c, (g c).view.focus = some c.id := fun c => congrArg View.focus (hg c)
  induction f generalizing above with
  | nil => rfl
  | cons o kids rest ihk ihr =>
    have hkids : ∀ e ∈ kids.lineages (o :: above), e.label.isScope = true →
        (some e.label.id ∈ hidden ↔ e.depth ≠ 0) := fun e he =>
      hhidden e (List.mem_cons_of_mem _ (List.mem_append_left _ he))
    have hrest := ihr habove fun e he =>
      hhidden e (List.mem_cons_of_mem _ (List.mem_append_right _ he))
    cases ho : o.isScope with
    | false =>
      rw [tree_plain ho, Forest.map_append, outermost_append, shown_plain ho, List.flatMap_append,
        ihk ((countP_plain ho).trans habove) hkids, hrest]
    | true =>
      have hout : (g o).view.focus ∉ hidden := by
        have hself := hhidden ⟨above, o⟩ List.mem_cons_self ho
        rw [hfocus, hself]
        exact fun hdepth => hdepth habove
      -- What the search found inside follows once more in the same row, and is left out there.
      have hnil : outermost hidden ((tree kids).map g) = [] := by
        refine outermost_eq_nil fun a ha => ?_
        rw [Forest.roots_map] at ha
        obtain ⟨c, hc, rfl⟩ := List.mem_map.mp ha
        obtain ⟨hin, hscope⟩ := mem_tree (Forest.mem_preorder_of_roots hc)
        rw [← Forest.map_label_lineages (o :: above)] at hin
        obtain ⟨e, he, rfl⟩ := List.mem_map.mp hin
        rw [hfocus, hkids e he hscope]
        have hdepth := depth_le he
        rw [countP_scope ho] at hdepth
        omega
      rw [tree_scope ho, Forest.map, outermost, if_neg hout, Forest.map_append, outermost_append, hnil,
        List.nil_append, hrest, shown_scope ho, List.cons_append, List.flatMap_cons,
        List.flatMap_append, scopeLines_eq, Forest.rows_map, List.flatMap_map, List.append_assoc]

/-- The lines of the report on a list under which no node stands twice. -/
theorem outermost_scopes {v : View} {s : Store} (h : s.Once v.list) :
    outermost (nested (v.scopes s)) (v.scopes s) =
      linesOf (s.forest v.list) (shown (s.forest v.list)) := by
  have hids : ((s.forest v.list).preorder.map (·.id)).Nodup := h s.nodes.size
  have hnodup := hids.of_map
  have hfound : v.scopes s = (tree (s.forest v.list)).map (ofMember [] (s.forest v.list)) :=
    find_eq ⟨hnodup, fun _ _ => by simp⟩
  rw [hfound, nested_map fun _ => rfl]
  refine outermost_tree (fun _ => rfl) List.countP_nil fun e he hscope => ?_
  rw [← mem_seconds_tree hnodup he hscope, List.mem_map]
  constructor
  · rintro ⟨c, hc, heq⟩
    have hin := (mem_rows_tree (Forest.mem_rows_succ (d := 0) |>.mpr hc)).1
    have hlabel := Forest.mem_preorder_of_lineages he
    rwa [← List.inj_on_of_nodup_map hids hin hlabel (Option.some.inj heq)]
  · exact fun hc => ⟨e.label, hc, rfl⟩

/-- The report on a list under which no node stands twice. -/
theorem describe_eq (options : Options) {v : View} {s : Store} (h : s.Once v.list) :
    ∃ more, options.describe v s =
      "title: ".toList ++ (v.title? s).getD "(none)".toList ++ ['\n'] ++ "scopes:\n".toList ++
        linesOf (s.forest v.list) (shown (s.forest v.list)) ++ "containers: ".toList ++ more := by
  have hreport : render v s =
      "title: ".toList ++ (v.title? s).getD "(none)".toList ++ ['\n'] ++ "scopes:\n".toList ++
        outermost (nested (v.scopes s)) (v.scopes s) ++ "containers: ".toList ++
        (names (v.named s .container) ++ ['\n'] ++ "partials: ".toList ++
          names (v.named s .fragment) ++ ['\n']) := by
    rw [← List.append_assoc, ← List.append_assoc, ← List.append_assoc, ← List.append_assoc]
    rfl
  have hmore : ∃ more, options.describe v s = render v s ++ more := ⟨_, List.append_assoc ..⟩
  obtain ⟨more, hmore⟩ := hmore
  rw [hmore, hreport, outermost_scopes h, List.append_assoc]
  exact ⟨_, rfl⟩

/-- The scopes that are reported for a template. Each one is shown at its depth, in pre-order and with
the properties that belong to it, and besides, where other scopes are around it, as often again as they
allow. So the report lists each scope once exactly when no scope is inside two others. -/
theorem run_scopes (options : Options) {bytes : List UInt8} {m : Markup}
    (h : Markup.parseBytes options.config bytes = .ok m) :
    let v := (Store.empty.plantView m.forest).1
    let s := (Store.empty.plantView m.forest).2
    let f := s.forest v.list
    (options.run (.ok bytes)).code = 0 ∧
      (∃ more, (options.run (.ok bytes)).output =
        "title: ".toList ++ (v.title? s).getD "(none)".toList ++ ['\n'] ++ "scopes:\n".toList ++
          linesOf f (shown f) ++ "containers: ".toList ++ more) ∧
      (listing [] f).Sublist (shown f) ∧
      (∀ r ∈ shown f, r.2 ∈ f.preorder ∧ r.2.isScope = true) ∧
      (∀ e ∈ f.lineages [], e.label.isScope = true →
        ∀ depth, (shown f).count (depth, e.label) = times e.depth depth) ∧
      (linesOf f (shown f) = linesOf f (listing [] f) ↔
        ∀ e ∈ f.lineages [], e.label.isScope = true → e.depth ≤ 1) := by
  intro v s f
  have honce : s.Once v.list := Store.once_plantList Store.sound_empty m.forest
  have hnodup : f.preorder.Nodup := List.Nodup.of_map _ (honce s.nodes.size)
  have hrun : options.run (.ok bytes) = ⟨0, options.describe v s, []⟩ := by
    rw [Options.run, h]
  have hsublist : (listing [] f).Sublist (shown f) := listing_sublist_shown rfl
  refine ⟨congrArg Outcome.code hrun, ?_, hsublist, fun r hr => mem_shown hr,
    fun e he hscope => count_shown hnodup rfl he hscope, ?_⟩
  · rw [hrun]
    exact describe_eq options honce
  · rw [← shown_eq_listing_iff hnodup]
    constructor
    · exact fun heq => (eq_of_lines_eq hsublist (fun r => scopeLine_ne_nil _ _) heq.symm).symm
    · exact fun heq => congrArg (linesOf f) heq

/-- A scope inside another one is listed once, below it. -/
theorem run_scopes_two : ∃ m,
    let bytes := "<ul data-scope=a data-prop=x><li data-scope=b></li></ul>".toList.map fun c =>
      UInt8.ofNat c.toNat
    let v := (Store.empty.plantView m.forest).1
    let s := (Store.empty.plantView m.forest).2
    let f := s.forest v.list
    Markup.parseBytes ({} : Options).config bytes = .ok m ∧
      linesOf f (shown f) = linesOf f (listing [] f) ∧
      linesOf f (shown f) = "  a [x]\n    b\n".toList := by
  let input := "<ul data-scope=a data-prop=x><li data-scope=b></li></ul>".toList
  let m := Markup.ofElements {} (Elements.ofTokens (Token.scan input))
  have hparse : Markup.parseBytes ({} : Options).config
      (input.map fun c => UInt8.ofNat c.toNat) = .ok m := by
    have hdecode : Utf8.decode (input.map fun c => UInt8.ofNat c.toNat) = .ok input := by
      decide +kernel
    rw [Markup.parseBytes, hdecode]
    exact Markup.parse_eq_ok_iff.mpr ⟨by decide +kernel, by decide +kernel, rfl⟩
  obtain ⟨-, -, -, -, -, hlines⟩ := run_scopes {} hparse
  exact ⟨m, hparse, hlines.mpr (by decide +kernel), by decide +kernel⟩

/-- The innermost of three scopes is listed again beside itself. -/
theorem run_scopes_three :
    let bytes := "<a data-scope=a><b data-scope=b><c data-scope=c></c></b></a>".toList.map fun c =>
      UInt8.ofNat c.toNat
    ∃ m, Markup.parseBytes ({} : Options).config bytes = .ok m ∧
      (({} : Options).run (.ok bytes)).output = ("title: (none)\nscopes:\n  a\n    b\n      c\n" ++
        "    c\ncontainers: \npartials: \n").toList ∧
      let f := (Store.empty.plantView m.forest).2.forest (Store.empty.plantView m.forest).1.list
      linesOf f (listing [] f) = "  a\n    b\n      c\n".toList := by
  let input := "<a data-scope=a><b data-scope=b><c data-scope=c></c></b></a>".toList
  have hdecode : Utf8.decode (input.map fun c => UInt8.ofNat c.toNat) = .ok input := by
    decide +kernel
  refine ⟨Markup.ofElements {} (Elements.ofTokens (Token.scan input)), ?_, by decide +kernel,
    by decide +kernel⟩
  rw [Markup.parseBytes, hdecode]
  exact Markup.parse_eq_ok_iff.mpr ⟨by decide +kernel, by decide +kernel, rfl⟩

end CommandLine.Report
end TemplateTree
