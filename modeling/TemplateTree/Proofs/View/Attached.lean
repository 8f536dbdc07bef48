import TemplateTree.Proofs.View.Revision
import TemplateTree.Proofs.View.Shape

/-! Views whose node stands in their list. It stays there until it is taken out of that very list,
whatever happens elsewhere, and a view whose node is gone leaves the store alone. -/
namespace TemplateTree

variable {s t : Store} {v w : View} {e : Edit} {c : Content} {n f : NodeId} {l : ListId}
  {o : Operation} {os before : List Operation} {q : Query}

namespace View

/-- The node that the view is about has a position in the view's list. -/
def Attached (v : View) (s : Store) : Prop :=
  ∃ n, v.node? s = some n ∧ (s.position? v.list n).isSome = true

/-- The edit takes a node out of a list: the node is removed or replaced where it stands, or the whole
list is what is inside the view's node and gives way. -/
def TakesOut (v : View) (s : Store) (l : ListId) (n : NodeId) : Edit → Prop
  | .remove | .replace _ => v.list = l ∧ v.node? s = some n
  | .clear | .setInner _ => v.inner? s = some l
  | _ => False

end View

namespace Operation

/-- Besides edits, only the handling of lists as such can take a node out. -/
def TakesOut (s : Store) (l : ListId) (n : NodeId) : Operation → Prop
  | edit v e => v.TakesOut s l n e
  | removeFrom k m => k = l ∧ m = n
  | clearList k => k = l
  | _ => False

/-- The operation handles a list as such and not through a view. -/
def IsRaw : Operation → Prop
  | removeFrom .. | clearList _ => True
  | _ => False

/-- The store after a run of operations. -/
def applyAll (s : Store) (os : List Operation) : Store := os.foldl (fun s o => o.apply s) s

theorem exists_edit (ho : ¬ o.IsRaw) (h : o.TakesOut s l n) :
    ∃ x e, o = .edit x e ∧ x.TakesOut s l n e := by
  cases o with
  | edit x e => exact ⟨x, e, rfl, h⟩
  | removeFrom | clearList => exact absurd trivial ho
  | _ => exact h.elim

end Operation

/-- The view is attached in the store and after each first part of the run. -/
def View.AttachedThrough (w : View) (s : Store) (os : List Operation) : Prop :=
  ∀ front, front <+: os → w.Attached (Operation.applyAll s front)

namespace Store

theorem isSome_position?_iff : (s.position? l n).isSome = true ↔ n ∈ s.list l := by
  rw [position?]
  split
  · next hn => exact iff_of_true rfl hn
  · next hn => exact iff_of_false Bool.false_ne_true hn

/-- What is put into a list leaves the nodes that stand in it there. -/
theorem mem_insert (hn : n ∈ s.list l) (i : Nat) (c : Content) : n ∈ (s.insert l i c).list l := by
  have hl : s.HasList l := hasList_of_mem hn
  rw [insert_eq_setList hl, list_setList_self (hl.mono (extends_supply s c))]
  exact mem_splice.mpr (Or.inl hn)

theorem mem_insertInto (hn : n ∈ s.list l) (k : ListId) (i : Nat) (c : Content) :
    n ∈ (s.insertInto k i c).1.list l := by
  rw [insertInto]
  split
  · exact hn
  · by_cases hk : l = k
    · subst hk
      exact mem_insert hn i c
    · rw [list_insert_of_ne (hasList_of_mem hn) hk]
      exact hn

theorem mem_removeFrom (hn : n ∈ s.list l) {k : ListId} (h : ¬ (k = l ∧ f = n)) :
    n ∈ (s.removeFrom k f).list l := by
  rw [removeFrom]
  by_cases hk : l = k
  · subst hk
    have hf : n ≠ f := fun hf => h ⟨rfl, hf.symm⟩
    rw [list_setList_self (hasList_of_mem hn)]
    exact List.mem_filter.mpr ⟨hn, decide_eq_true hf⟩
  · rw [list_setList_of_ne hk]
    exact hn

theorem Extends.mem (h : s.Extends t) (hn : n ∈ s.list l) : n ∈ t.list l := by
  rw [h.list l (hasList_of_mem hn)]
  exact hn

end Store

namespace View

open Store

theorem attached_iff (hf : w.focus = some n) : w.Attached s ↔ n ∈ s.list w.list := by
  have hnode : w.node? s = some n := by rw [node?, hf, Option.some_or]
  rw [Attached, hnode]
  simp only [Option.some.injEq, exists_eq_left', isSome_position?_iff]

theorem mem_insertBeside (hn : n ∈ s.list l) (v : View) (offset : Nat) (c : Content) :
    n ∈ (v.insertBeside s offset c).1.list l := by
  have hput (i : Nat) : n ∈ (s.insert v.list i c).list l := by
    by_cases hl : l = v.list
    · subst hl
      exact mem_insert hn i c
    · rw [list_insert_of_ne (hasList_of_mem hn) hl]
      exact hn
  rw [insertBeside]
  split
  · exact hn
  · split
    · exact hput _
    · split
      · exact hn
      · exact hput _

/-- An edit that does not take the node out of the list leaves it there. -/
theorem mem_edit (hn : n ∈ s.list l) (h : ¬ v.TakesOut s l n e) : n ∈ (v.edit s e).1.list l := by
  have hk : s.HasList l := hasList_of_mem hn
  by_cases hw : v.written? s e = some l
  · cases e with
    | setAttribute | removeAttribute | setTitle => cases hw
    | clear | setInner => exact absurd hw h
    | append c | prepend c =>
      have hl : v.inner? s = some l := hw
      simp only [edit, append, prepend, hl]
      exact mem_insertInto hn l _ c
    | after c | before c => exact mem_insertBeside hn v _ c
    | remove =>
      simp only [edit, remove]
      split
      · exact hn
      · next f hf =>
        have hkeep : n ∈ (s.removeFrom v.list f).list l :=
          mem_removeFrom hn fun hout => h ⟨hout.1, hf.trans (congrArg some hout.2)⟩
        split
        · exact hkeep
        · exact hn
    | replace c =>
      obtain rfl : v.list = l := Option.some.inj hw
      simp only [edit, replace]
      split
      · exact hn
      · split
        · exact mem_insert hn 0 c
        · next f i hfound =>
          obtain ⟨m, hm, hpos⟩ := Option.bind_eq_some_iff.mp hfound
          obtain ⟨j, -, hpair⟩ := Option.map_eq_some_iff.mp hpos
          obtain ⟨rfl, rfl⟩ := Prod.mk.inj hpair
          refine mem_insert (mem_removeFrom hn fun hout => ?_) j c
          exact h ⟨rfl, hm.trans (congrArg some hout.2)⟩
  · rw [list_edit_of_ne hk hw]
    exact hn

/-- Through a view whose node has left its list, nothing is removed and nothing is put beside. -/
theorem edit_detached (hf : w.focus = some n) (hn : n ∉ s.list w.list) (c : Content) :
    (w.edit s .remove).1 = s ∧ (w.edit s (.after c)).1 = s ∧ (w.edit s (.before c)).1 = s := by
  have hnode : w.node? s = some n := by rw [node?, hf, Option.some_or]
  have hbeside (offset : Nat) : (w.insertBeside s offset c).1 = s := by
    rw [insertBeside]
    split
    · rfl
    · simp [hnode, position?, hn]
  refine ⟨?_, hbeside 1, hbeside 0⟩
  simp [edit, remove, hnode, hn]

theorem not_mem_remove (hf : w.focus = some n) : n ∉ (w.edit s .remove).1.list w.list := by
  have hnode : w.node? s = some n := by rw [node?, hf, Option.some_or]
  by_cases hn : n ∈ s.list w.list
  · simp [edit, remove, hnode, hn, removeFrom, list_setList_self (hasList_of_mem hn)]
  · rw [(edit_detached hf hn (.nodes [])).1]
    exact hn

/-- What a query finds stands where it was found. Only the node of the view itself may have left the
view's list by then, and its own property is found all the same. -/
theorem attached_answers (hq : q ≠ .clone) (hw : w ∈ v.answers s q) : ∃ n, w.focus = some n ∧
    (n ∈ s.list w.list ∨ q = .properties ∧ w = ⟨v.list, v.node? s⟩ ∧ v.node? s = some n) := by
  have stands {k : ListId} {levels : Nat} {o : Occurrence}
      (ho : o ∈ (s.unfold levels k).preorder) : o.id ∈ s.list o.owner := (occurrence_sound ho).1
  by_cases hwalk : q = .nodes
  · subst hwalk
    obtain ⟨o, ho, rfl⟩ := List.mem_map.mp hw
    exact ⟨o.id, rfl, Or.inl (stands ho)⟩
  rcases answers_found hwalk hw with ⟨hclone, -⟩ | ⟨o, ho, rfl, -⟩ | ⟨hq, n, hn, o, ho, rfl, -⟩
  · exact absurd hclone hq
  · exact ⟨o.id, rfl, Or.inl (stands ho)⟩
  · rcases Forest.mem_preorder_cons.mp ho with rfl | ho | ho
    · exact ⟨n, rfl, Or.inr ⟨hq, by rw [Occurrence.view, hn], hn⟩⟩
    · exact ⟨o.id, rfl, Or.inl (stands ho)⟩
    · cases ho

end View

namespace Operation

open Store

theorem mem_apply (hn : n ∈ s.list l) (h : ¬ o.TakesOut s l n) : n ∈ (o.apply s).list l := by
  have parsed (r : Except ParseError Markup) : n ∈ (plantParsed s r).list l := by
    cases r with
    | error => exact hn
    | ok m => exact (extends_plantList s m.forest).mem hn
  cases o with
  | parse | parseBytes => exact parsed _
  | duplicate v => exact (extends_plantList s _).mem hn
  | newNode label children => exact (extends_addNode s _).mem hn
  | newList ns => exact (extends_addList s ns).mem hn
  | edit v e => exact View.mem_edit hn h
  | setContent | setAttributes => exact hn
  | removeFrom k m => exact mem_removeFrom hn h
  | clearList k =>
    rw [apply, list_setList_of_ne (Ne.symm h)]
    exact hn

end Operation

namespace View

open Operation Store

theorem AttachedThrough.attached (h : w.AttachedThrough s os) : w.Attached (applyAll s os) :=
  h os List.prefix_rfl

theorem attachedThrough_nil (h : w.Attached s) : w.AttachedThrough s [] := by
  intro front hfront
  rw [List.prefix_nil.mp hfront]
  exact h

theorem AttachedThrough.cons (h : w.Attached s) (hos : w.AttachedThrough (o.apply s) os) :
    w.AttachedThrough s (o :: os) := by
  intro front hfront
  rcases List.prefix_cons_iff.mp hfront with rfl | ⟨rest, rfl, hrest⟩
  · exact h
  · exact hos rest hrest

/-- Along a run a view is attached until an operation of the run takes its node out of its list. -/
theorem attachedThrough_or (hf : w.focus = some n) (h : w.Attached s) (os : List Operation) :
    w.AttachedThrough s os ∨ ∃ before o later, os = before ++ o :: later ∧
      w.AttachedThrough s before ∧ o.TakesOut (applyAll s before) w.list n := by
  induction os generalizing s with
  | nil => exact Or.inl (attachedThrough_nil h)
  | cons o os ih =>
    by_cases htakes : o.TakesOut s w.list n
    · exact Or.inr ⟨[], o, os, rfl, attachedThrough_nil h, htakes⟩
    · have hnext : w.Attached (o.apply s) :=
        (attached_iff hf).mpr (o.mem_apply ((attached_iff hf).mp h) htakes)
      rcases ih hnext with hstays | ⟨before, p, later, rfl, hbefore, hp⟩
      · exact Or.inl (hstays.cons h)
      · exact Or.inr ⟨o :: before, p, later, rfl, hbefore.cons h, hp⟩

/-- The view that a query answers is attached, unless it is the queried view's own node, which has left
its list, as a property. From any store in which it is attached it stays so along every run of edits and
of what else is done with documents, until an edit of that run takes its node out of its list. While it
is not attached, removing and putting something beside change nothing, so a second removal never does. -/
theorem attached_run (hq : q ≠ .clone) (hw : w ∈ v.answers s q) : ∃ n, w.focus = some n ∧
    (w.Attached s ∨ q = .properties ∧ w = ⟨v.list, v.node? s⟩ ∧ ¬ v.Attached s) ∧
    (∀ t os, w.Attached t → (∀ o ∈ os, ¬ o.IsRaw) →
      w.AttachedThrough t os ∨ ∃ before x e later, os = before ++ .edit x e :: later ∧
        w.AttachedThrough t before ∧ x.TakesOut (applyAll t before) w.list n e) ∧
    ∀ t, (¬ w.Attached t → ∀ c, (w.edit t .remove).1 = t ∧ (w.edit t (.after c)).1 = t ∧
        (w.edit t (.before c)).1 = t) ∧
      (w.edit (w.edit t .remove).1 .remove).1 = (w.edit t .remove).1 := by
  obtain ⟨n, hf, hfound⟩ := attached_answers hq hw
  refine ⟨n, hf, ?_, fun t os ht hos => ?_, fun t => ⟨fun ht c => ?_, ?_⟩⟩
  · by_cases hn : n ∈ s.list w.list
    · exact Or.inl ((attached_iff hf).mpr hn)
    · obtain ⟨hprops, rfl, hnode⟩ := hfound.resolve_left hn
      refine Or.inr ⟨hprops, rfl, ?_⟩
      rintro ⟨m, hm, hpos⟩
      rw [hnode] at hm
      obtain rfl := Option.some.inj hm
      exact hn (isSome_position?_iff.mp hpos)
  · refine (attachedThrough_or hf ht os).imp_right ?_
    rintro ⟨before, o, later, rfl, hbefore, htakes⟩
    obtain ⟨x, e, rfl, hx⟩ := exists_edit (hos o (by simp)) htakes
    exact ⟨before, x, e, later, rfl, hbefore, hx⟩
  · exact edit_detached hf (fun hn => ht ((attached_iff hf).mpr hn)) c
  · exact (edit_detached hf (not_mem_remove hf) (.nodes [])).1

/-- A property is found, put beside a text, removed, and out of the way of what is put beside it then. -/
theorem attached_run_property :
    let s := (Operation.parse {} "<p data-scope=a>x<b data-prop=y>z</b></p>".toList).apply empty
    let v : View := ⟨⟨8⟩, none⟩
    let w : View := ⟨⟨5⟩, some ⟨4⟩⟩
    let q : Query := .property "a".toList "y".toList
    let os : List Operation := [.edit w (.before (.text "u".toList)), .edit w .remove]
    let t := applyAll s os
    q ≠ .clone ∧ w ∈ v.answers s q ∧ w.Attached s ∧ (∀ o ∈ os, ¬ o.IsRaw) ∧ ¬ w.Attached t ∧
      (∃ before x e later, os = before ++ .edit x e :: later ∧ w.AttachedThrough s before ∧
        x.TakesOut (applyAll s before) w.list ⟨4⟩ e) ∧
      (w.edit t (.after (.text "u".toList))).1 = t ∧
      v.markup t = "<p data-scope=\"a\">xu</p>".toList := by
  intro s v w q os t
  have hq : q ≠ .clone := nofun
  have hw : w ∈ v.answers s q := by decide +kernel
  have hos : ∀ o ∈ os, ¬ o.IsRaw := by simp [os, IsRaw]
  obtain ⟨n, hn, hfound, hruns, hstill⟩ := attached_run hq hw
  obtain rfl : (⟨4⟩ : NodeId) = n := Option.some.inj hn
  have hprops : q ≠ .properties := nofun
  have hs : w.Attached s := hfound.resolve_right fun h => hprops h.1
  have hout : (⟨4⟩ : NodeId) ∉ t.list w.list := by decide +kernel
  have ht : ¬ w.Attached t := fun h => hout ((attached_iff rfl).mp h)
  have htaken := (hruns s os hs hos).resolve_left fun h => ht h.attached
  exact ⟨hq, hw, hs, hos, ht, htaken, ((hstill t).1 ht (.text "u".toList)).2.1, by decide +kernel⟩

/-- An element that was removed is still found as its own property, in a list where it no longer
stands. -/
theorem properties_of_removed :
    let parsed := (Operation.parse {} "<p data-prop=a>x</p><q data-prop=b>y</q>".toList).apply empty
    let v : View := ⟨⟨8⟩, some ⟨3⟩⟩
    let s := (v.edit parsed .remove).1
    empty.Run s ∧ v ∈ v.answers s .properties ∧ v.node? s = some ⟨3⟩ ∧ s.list v.list = [⟨7⟩] ∧
      s.position? v.list ⟨3⟩ = none ∧ ¬ v.Attached s := by
  intro parsed v s
  have hrun : parsed.Run s := by
    refine run_apply parsed (.edit v .remove) ⟨⟨?_, fun n hn => ?_⟩, fun c hc => by cases hc⟩
    · exact (by decide +kernel : 8 < parsed.lists.size)
    · obtain rfl := Option.some.inj hn
      exact (by decide +kernel : 3 < parsed.nodes.size)
  have hlist : s.list v.list = [⟨7⟩] := by decide +kernel
  exact ⟨(run_apply empty (.parse {} _) trivial).trans hrun, by decide +kernel, rfl, hlist,
    by decide +kernel, fun h => not_mem_remove rfl ((attached_iff rfl).mp h)⟩

end View
end TemplateTree
