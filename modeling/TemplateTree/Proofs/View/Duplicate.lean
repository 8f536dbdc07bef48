import TemplateTree.Proofs.Store.Copied
import TemplateTree.Proofs.View.Locality
import TemplateTree.Proofs.View.Replay
import TemplateTree.Proofs.View.Shape

/-! Duplicates of views. A duplicate is about the copy of the first place of its node, as long as that
node stands in the view's list or below it; the duplicate of a view whose node has left is about the
first node of the copy. -/
namespace TemplateTree

variable {s t : Store} {v : View} {n m : NodeId} {l : ListId} {o o' : Occurrence} {e : Edit}

/-- What is inside the first tree of a row. -/
def Forest.inside : Forest Label → Text
  | .nil => []
  | .cons _ inner _ => inner.render

namespace View

open Store

/-- What is inside a node is read off the labels below it. -/
theorem html_eq_inside (hs : s.Sound) (hn : v.node? s = some n) :
    v.html s = (s.labels (s.node n).children).inside := by
  rw [labels, forest_eq hs.closed hs.acyclic]
  cases hlist : s.list (s.node n).children with
  | nil =>
    have hnone : v.inner? s = none := by simp [inner?, slot?, hn, hlist]
    rw [html, hnone]
    rfl
  | cons slot ns =>
    have hhead : (s.list (s.node n).children).head? = some slot := by rw [hlist, List.head?_cons]
    exact html_eq (inner?_eq_some_iff.mpr ⟨n, slot, hn, hhead, rfl⟩)

/-! What the copy is. -/

theorem sound_duplicate (hs : s.Sound) (v : View) : (v.duplicate s).2.Sound := hs.plantList _

/-- Every node of a list reads as its copy. -/
theorem reads_duplicate (hs : s.Sound) (v : View) :
    (s.forest v.list).Rel (Occurrence.Reads s (v.duplicate s).2)
      ((v.duplicate s).2.forest (v.duplicate s).1.list) :=
  (hs.whole _).rel_of_labels ((v.sound_duplicate hs).whole _) (labels_plantList s (s.labels v.list)).symm

/-- The copy of a node is looked for in the order in which the nodes stand. -/
theorem focus_duplicate_split (hs : s.Sound) {front back front' back' : List Occurrence}
    (hsource : (s.forest v.list).preorder = front ++ o :: back)
    (hcopy : ((v.duplicate s).2.forest (v.duplicate s).1.list).preorder = front' ++ o' :: back')
    (hlength : front.length = front'.length) (hfront : ∀ x ∈ front, x.id ≠ o.id)
    (hn : v.focus = some o.id) : (v.duplicate s).1.focus = some o'.id := by
  have hids : (s.plantList (s.labels v.list)).2.1.preorder =
      front'.map (·.id) ++ o'.id :: back'.map (·.id) := by
    rw [← ids_preorder_plantList hs, ← List.map_cons, ← List.map_append]
    exact congrArg _ hcopy
  -- what stands in front of the node is zipped with what stands in front of its copy
  have hmiss : ((front.zip (front'.map (·.id))).find? (·.1.id = o.id)) = none := by
    refine List.find?_eq_none.mpr fun c hc => ?_
    simpa using hfront c.1 (List.of_mem_zip hc).1
  rw [focus_duplicate, hn, Option.bind_some, hids, hsource, List.zip_append (by simpa using hlength),
    List.find?_append, hmiss, List.zip_cons_cons, Option.none_or]
  exact congrArg (Option.map Prod.snd) (List.find?_cons_of_pos (decide_eq_true rfl))

/-- The duplicate of a view whose node is reached is about the copy of the node where it stands first. -/
theorem focus_duplicate_reached (hs : s.Sound) (hn : v.focus = some n) (h : s.Reaches v.list n) :
    let c := (v.duplicate s).1
    let t := (v.duplicate s).2
    ∃ front o back front' o' back', (s.forest v.list).preorder = front ++ o :: back ∧
      (t.forest c.list).preorder = front' ++ o' :: back' ∧ front.length = front'.length ∧
      o.id = n ∧ (∀ x ∈ front, x.id ≠ n) ∧ c.focus = some o'.id ∧
      t.renderNode o'.id = s.renderNode n ∧ c.html t = v.html s := by
  intro c t
  -- a node that is shared stands at several places: take the first of them
  obtain ⟨x, hx, hid⟩ := (exists_occurrence_iff hs.closed hs.acyclic).mpr h
  have hfound : ((s.forest v.list).preorder.find? (·.id = n)).isSome = true :=
    List.find?_isSome.mpr ⟨x, hx, decide_eq_true hid⟩
  obtain ⟨o, ho⟩ := Option.isSome_iff_exists.mp hfound
  obtain ⟨hon, front, back, hsource, hmiss⟩ := List.find?_eq_some_iff_append.mp ho
  obtain rfl : o.id = n := of_decide_eq_true hon
  have hfront : ∀ x ∈ front, x.id ≠ o.id := fun x hx => by simpa using hmiss x hx
  obtain ⟨front', o', back', hcopy, hlength, hreads⟩ :=
    Related.split (hsource ▸ (v.reads_duplicate hs).preorder)
  have hnode : o.node = s.node o.id :=
    (occurrence_sound (hsource ▸ List.mem_append_right front List.mem_cons_self)).2
  have hnode' : o'.node = t.node o'.id :=
    (occurrence_sound (hcopy ▸ List.mem_append_right front' List.mem_cons_self)).2
  have hfocus : c.focus = some o'.id := focus_duplicate_split hs hsource hcopy hlength hfront hn
  have hhtml : c.html t = v.html s := by
    have hv : v.node? s = some o.id := by rw [node?, hn, Option.some_or]
    have hc : c.node? t = some o'.id := by rw [node?, hfocus, Option.some_or]
    rw [html_eq_inside hs hv, html_eq_inside (v.sound_duplicate hs) hc, ← hnode, ← hnode', hreads.2]
  exact ⟨front, o, back, front', o', back', hsource, hcopy, hlength, rfl, hfront, hfocus,
    hreads.renderNode hnode hnode', hhtml⟩

theorem focus_duplicate_eq_none (hs : s.Sound) (hn : v.focus = some n) (h : ¬ s.Reaches v.list n) :
    (v.duplicate s).1.focus = none := by
  rw [focus_duplicate, hn, Option.bind_some, Option.map_eq_none_iff, List.find?_eq_none]
  intro c hc hid
  have hcid : c.1.id = n := of_decide_eq_true hid
  exact h ((exists_occurrence_iff hs.closed hs.acyclic).mp ⟨c.1, (List.of_mem_zip hc).1, hcid⟩)

/-- The focus is kept exactly when it is reached. -/
theorem isSome_focus_duplicate (hs : s.Sound) (hn : v.focus = some n) :
    (v.duplicate s).1.focus.isSome = true ↔ s.Reaches v.list n := by
  constructor
  · intro h
    by_contra hr
    rw [focus_duplicate_eq_none hs hn hr] at h
    cases h
  · intro hr
    obtain ⟨_, _, _, _, o, _, -, -, -, -, -, ho, -⟩ := focus_duplicate_reached hs hn hr
    exact Option.isSome_iff_exists.mpr ⟨o.id, ho⟩

/-- The first node of a list reads as the first node of the copy. -/
theorem head_duplicate (hs : s.Sound) (v : View) :
    ((v.duplicate s).2.list (v.duplicate s).1.list).head?.map (v.duplicate s).2.renderNode =
      (s.list v.list).head?.map s.renderNode := by
  have head {s : Store} (hs : s.Sound) (l : ListId) :
      (s.list l).head? = (s.forest l).roots.head?.map (·.id) := by
    rw [← roots_forest hs l, Forest.roots_map, List.head?_map]
  have node {s : Store} {l : ListId} {o : Occurrence} (ho : (s.forest l).roots.head? = some o) :
      o.node = s.node o.id :=
    (occurrence_sound (Forest.mem_preorder_of_roots (List.mem_of_mem_head? ho))).2
  rw [head hs, head (v.sound_duplicate hs)]
  rcases Related.none_or_some (Related.head? (v.reads_duplicate hs).roots) with
    ⟨h, h'⟩ | ⟨o, o', h, h', hreads⟩
  · rw [h, h']
    rfl
  · rw [h, h', Option.map_some, Option.map_some, Option.map_some, Option.map_some,
      hreads.renderNode (node h) (node h')]

/-- A duplicate is written in the same rows as its source. It is a tree of new nodes, whatever is shared
in the source: every node stands there once, over a list of its own. If the view's node stands in the
view's list or below it, the duplicate is about the copy at the first place of the node, and shows the
same there. -/
theorem duplicate_exact (hs : s.Sound) (v : View) :
    let c := (v.duplicate s).1
    let t := (v.duplicate s).2
    let source := (s.forest v.list).preorder
    let copy := (t.forest c.list).preorder
    (t.labels c.list).rows 0 = (s.labels v.list).rows 0 ∧
      (copy.map (·.id)).Nodup ∧ (c.list :: copy.map (·.node.children)).Nodup ∧
      t.Sound ∧ s.Extends t ∧ ¬ s.HasList c.list ∧
      (∀ o ∈ copy, ¬ s.HasNode o.id ∧ ¬ s.HasList o.node.children) ∧
      ∀ n, v.focus = some n → s.Reaches v.list n →
        ∃ front o back front' o' back', source = front ++ o :: back ∧ copy = front' ++ o' :: back' ∧
          front.length = front'.length ∧ o.id = n ∧ (∀ x ∈ front, x.id ≠ n) ∧
          c.focus = some o'.id ∧ t.renderNode o'.id = s.renderNode n ∧ c.html t = v.html s := by
  intro c t source copy
  have hunshared : t.Unshared c.list := unshared_plantList hs (s.labels v.list)
  have hnew : ¬ s.HasList c.list := not_hasList_plantList s (s.labels v.list)
  exact ⟨congrArg (Forest.rows 0) (labels_plantList s (s.labels v.list)), hunshared.nodes,
    hunshared.lists, v.sound_duplicate hs, extends_plantList .., hnew, fun o ho => new_plantList hs _ ho,
    fun n hn hreach => focus_duplicate_reached hs hn hreach⟩

/-- A node that stands twice in a list is copied twice, and the first copy is the one that counts. -/
theorem duplicate_exact_twice :
    let s := (Operation.newList [⟨3⟩, ⟨3⟩]).apply
      ((Operation.parse {} "<p data-scope=a>x</p>".toList).apply empty)
    let v : View := ⟨⟨5⟩, some ⟨3⟩⟩
    let c := (v.duplicate s).1
    let t := (v.duplicate s).2
    let copy := (t.forest c.list).preorder
    s.Sound ∧ s.Reaches v.list ⟨3⟩ ∧ ((s.forest v.list).preorder.map (·.id)).count ⟨3⟩ = 2 ∧
      (copy.map (·.id)).Nodup ∧ c.focus = (copy.map (·.id)).head? ∧
      ∃ n, c.focus = some n ∧ ¬ s.HasNode n ∧ t.renderNode n = s.renderNode ⟨3⟩ ∧
        c.html t = "x".toList := by
  intro s v c t copy
  have hs : s.Sound := by
    refine Operation.sound_apply (sound_empty.run (run_apply empty (.parse {} _) trivial)) _ ?_
    intro n hn
    obtain rfl : n = ⟨3⟩ := by simpa using hn
    exact (by decide +kernel : 3 < s.nodes.size)
  have hin : (⟨3⟩ : NodeId) ∈ s.list v.list := by decide +kernel
  have hr : s.Reaches v.list ⟨3⟩ := ⟨⟨3⟩, hin, .refl⟩
  obtain ⟨-, hnodup, -, -, -, -, hnew, hfirst⟩ := duplicate_exact hs v
  obtain ⟨_, _, _, front, o, back, -, hcopy, -, -, -, hfocus, hrender, hhtml⟩ := hfirst ⟨3⟩ rfl hr
  have ho : o ∈ (t.forest c.list).preorder :=
    hcopy ▸ List.mem_append_right front List.mem_cons_self
  exact ⟨hs, hr, by decide +kernel, hnodup, by decide +kernel, o.id, hfocus, (hnew o ho).1, hrender,
    hhtml.trans (by decide +kernel)⟩

end View

/-- The edit is about the view's node: about its attributes, or about all that is inside. -/
def Edit.OfNode : Edit → Prop
  | .setAttribute _ _ | .removeAttribute _ | .clear | .setInner _ => True
  | _ => False

namespace View

open Store

/-- An edit of a node gives the node a new label or writes to the list inside it, if it does anything,
and adds to the store what it needs. -/
theorem edit_ofNode_cases (hn : v.node? s = some n) (he : e.OfNode) :
    ∃ t, s.Extends t ∧ ((v.edit s e).1 = t ∨ (∃ label, (v.edit s e).1 = t.setLabel n label) ∨
      ∃ l ns, v.inner? s = some l ∧ (v.edit s e).1 = t.setList l ns) := by
  cases e with
  | setAttribute key value =>
    refine ⟨s, .refl s, Or.inr (Or.inl ?_)⟩
    simp only [edit, setAttribute, hn]
    exact ⟨_, rfl⟩
  | removeAttribute key =>
    refine ⟨s, .refl s, ?_⟩
    simp only [edit, removeAttribute, hn]
    split
    · exact Or.inr (Or.inl ⟨_, rfl⟩)
    · exact Or.inl rfl
  | clear =>
    refine ⟨s, .refl s, ?_⟩
    simp only [edit, clear]
    split
    · exact Or.inl rfl
    · next l hl => exact Or.inr (Or.inr ⟨l, [], hl, rfl⟩)
  | setInner content =>
    simp only [edit, setInner]
    split
    · exact ⟨s, .refl s, Or.inl rfl⟩
    · next l hl => exact ⟨_, extends_addLeaf s content, Or.inr (Or.inr ⟨l, _, hl, rfl⟩)⟩
  | _ => exact he.elim

theorem node_edit_ofNode (hn : v.node? s = some n) (he : e.OfNode) (hm : s.HasNode m) (hne : m ≠ n) :
    (v.edit s e).1.node m = s.node m := by
  obtain ⟨t, hst, hedit | ⟨label, hedit⟩ | ⟨l, ns, -, hedit⟩⟩ := edit_ofNode_cases hn he
  · rw [hedit, hst.node m hm]
  · rw [hedit, node_setLabel_of_ne hne, hst.node m hm]
  · rw [hedit, node_setList, hst.node m hm]

/-- Where the node and the list inside it are new, nothing old is changed. -/
theorem extends_edit (hst : s.Extends t) (hn : v.node? t = some n) (he : e.OfNode) (hnew : ¬ s.HasNode n)
    (hinner : ∀ l, v.inner? t = some l → ¬ s.HasList l) : s.Extends (v.edit t e).1 := by
  obtain ⟨u, htu, hedit | ⟨label, hedit⟩ | ⟨l, ns, hl, hedit⟩⟩ := edit_ofNode_cases hn he
  · rw [hedit]
    exact hst.trans htu
  · rw [hedit]
    exact (hst.trans htu).setLabel hnew label
  · rw [hedit]
    exact (hst.trans htu).setList (hinner l hl) ns

theorem list_edit_ofNode (he : e.OfNode) (hl : s.HasList l) (hne : v.inner? s ≠ some l) :
    (v.edit s e).1.list l = s.list l := by
  refine list_edit_of_ne hl ?_
  cases e with
  | setAttribute | removeAttribute => exact (Option.some_ne_none l).symm
  | clear | setInner => exact hne
  | _ => exact he.elim

/-- The list inside the focus of a duplicate is new. -/
theorem inner?_duplicate (hs : s.Sound) {v : View}
    (ho : o ∈ ((v.duplicate s).2.forest (v.duplicate s).1.list).preorder)
    (hfocus : (v.duplicate s).1.focus = some o.id)
    (hl : (v.duplicate s).1.inner? (v.duplicate s).2 = some l) : ¬ s.HasList l := by
  have ht := v.sound_duplicate hs
  obtain ⟨n, slot, hn, hslot, rfl⟩ := inner?_eq_some_iff.mp hl
  rw [node?, hfocus, Option.some_or] at hn
  obtain rfl := Option.some.inj hn
  obtain ⟨root, hroot, hbelow⟩ := (exists_occurrence_iff ht.closed ht.acyclic).mp ⟨o, ho, rfl⟩
  obtain ⟨p, hp, rfl⟩ := (exists_occurrence_iff ht.closed ht.acyclic).mpr
    ⟨root, hroot, hbelow.tail (List.mem_of_mem_head? hslot)⟩
  rw [← (occurrence_sound hp).2]
  exact (new_plantList hs _ hp).2

/-- A duplicate is about a node exactly when the node of its source is reached from the list of its
source. Otherwise it is about the copy of the first node of the list, which is another one. What it is
about is new and shows the same as the node of the source, and an edit of it leaves alone all that was
there before and the rest of the copy. -/
theorem duplicate_of_focused (hs : s.Sound) (v : View) (hn : v.focus = some n) :
    let c := (v.duplicate s).1
    let t := (v.duplicate s).2
    (c.focus.isSome = true ↔ s.Reaches v.list n) ∧
      (¬ s.Reaches v.list n → n ∉ s.list v.list ∧
        (c.node? t).map t.renderNode = (s.list v.list).head?.map s.renderNode) ∧
      ∀ n', c.focus = some n' →
        ¬ s.HasNode n' ∧ t.renderNode n' = s.renderNode n ∧ c.html t = v.html s ∧
        ∀ e : Edit, e.OfNode →
          s.Extends (c.edit t e).1 ∧
          (∀ m, t.HasNode m → m ≠ n' → (c.edit t e).1.node m = t.node m) ∧
          ∀ l, t.HasList l → c.inner? t ≠ some l → (c.edit t e).1.list l = t.list l := by
  intro c t
  have hfocus : c.focus.isSome = true ↔ s.Reaches v.list n := isSome_focus_duplicate hs hn
  refine ⟨hfocus, fun hr => ⟨fun hmem => hr ⟨n, hmem, .refl⟩, ?_⟩, fun n' hn' => ?_⟩
  · have hnone : c.focus = none := focus_duplicate_eq_none hs hn hr
    rw [node?, hnone, Option.none_or]
    exact v.head_duplicate hs
  · have hr : s.Reaches v.list n := hfocus.mp (Option.isSome_iff_exists.mpr ⟨n', hn'⟩)
    obtain ⟨_, _, _, front, o', back, -, hcopy, -, -, -, ho', hrender, hhtml⟩ :=
      focus_duplicate_reached hs hn hr
    obtain rfl : o'.id = n' := Option.some.inj (ho'.symm.trans hn')
    have hin : o' ∈ (t.forest c.list).preorder :=
      hcopy ▸ List.mem_append_right front List.mem_cons_self
    have hnew : ¬ s.HasNode o'.id := (new_plantList hs _ hin).1
    have hnode : c.node? t = some o'.id := by rw [node?, hn', Option.some_or]
    refine ⟨hnew, hrender, hhtml, fun e he => ⟨?_, fun m hm hne => node_edit_ofNode hnode he hm hne,
      fun l hl hne => list_edit_ofNode he hl hne⟩⟩
    exact extends_edit (extends_plantList ..) hnode he hnew fun l hl => inner?_duplicate hs hin hn' hl

/-- The duplicate of the view of a first element, and what is put into it. -/
theorem duplicate_of_focused_first :
    let s := (Operation.parse {} "<p data-prop=a>x</p><q data-prop=b>y</q>".toList).apply empty
    let v : View := ⟨⟨8⟩, some ⟨3⟩⟩
    let c := (v.duplicate s).1
    let t := (v.duplicate s).2
    let u := (c.edit t (.setInner "z".toList)).1
    s.Sound ∧ s.Reaches v.list ⟨3⟩ ∧ s.Extends u ∧
      c.markup u = "<p data-prop=\"a\">z</p><q data-prop=\"b\">y</q>".toList ∧
      ∃ n, c.focus = some n ∧ t.renderNode n = "<p data-prop=\"a\">x</p>".toList := by
  intro s v c t u
  have hs : s.Sound := sound_empty.run (run_apply empty (.parse {} _) trivial)
  have hin : (⟨3⟩ : NodeId) ∈ s.list v.list := by decide +kernel
  have hr : s.Reaches v.list ⟨3⟩ := ⟨⟨3⟩, hin, .refl⟩
  obtain ⟨hfocus, -, hcopy⟩ := duplicate_of_focused hs v (n := ⟨3⟩) rfl
  obtain ⟨n, hn⟩ := Option.isSome_iff_exists.mp (hfocus.mpr hr)
  obtain ⟨-, hrender, -, hedit⟩ := hcopy n hn
  exact ⟨hs, hr, (hedit (.setInner "z".toList) trivial).1, by decide +kernel, n, hn,
    hrender.trans (by decide +kernel)⟩

/-- The duplicate of a view whose element was removed is about the element that was behind it, and what
is meant for the one is done to the other. -/
theorem duplicate_of_removed :
    let parsed := (Operation.parse {} "<p data-prop=a>x</p><q data-prop=b>y</q>".toList).apply empty
    let v : View := ⟨⟨8⟩, some ⟨3⟩⟩
    let s := (v.edit parsed .remove).1
    let c := (v.duplicate s).1
    let t := (v.duplicate s).2
    empty.Run s ∧ (v.node? s).map s.renderNode = some "<p data-prop=\"a\">x</p>".toList ∧
      c.focus = none ∧ (c.node? t).map t.renderNode = some "<q data-prop=\"b\">y</q>".toList ∧
      c.markup (c.edit t (.setAttribute .prop "z".toList)).1 = "<q data-prop=\"z\">y</q>".toList := by
  intro parsed v s c t
  have hrun : parsed.Run s := by
    refine run_apply parsed (.edit v .remove) ⟨⟨?_, fun n hn => ?_⟩, fun c hc => by cases hc⟩
    · exact (by decide +kernel : 8 < parsed.lists.size)
    · obtain rfl := Option.some.inj hn
      exact (by decide +kernel : 3 < parsed.nodes.size)
  exact ⟨(run_apply empty (.parse {} _) trivial).trans hrun, by decide +kernel, by decide +kernel,
    by decide +kernel, by decide +kernel⟩

end View
end TemplateTree
