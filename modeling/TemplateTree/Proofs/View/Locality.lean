import TemplateTree.Proofs.Store.Places

/-! Edits inside a node, seen from any view of the store. What is written changes at the places where
the list inside the node is reached, and nowhere else. -/
namespace TemplateTree

variable {s t : Store} {v d : View} {n : NodeId} {l : ListId} {front back : List NodeId} {m : Text}

namespace Store

theorem SameBut.setList (s : Store) (l : ListId) (ns : List NodeId) : s.SameBut (s.setList l ns) l :=
  ⟨fun n _ => node_setList s l ns n, fun _ _ hne => list_setList_of_ne hne⟩

theorem SameBut.trans {u : Store} (hst : s.SameBut t l) (htu : t.SameBut u l)
    (hx : s.Extends t) : s.SameBut u l where
  node n hn := (htu.node n (hn.mono hx)).trans (hst.node n hn)
  list k hk hne := (htu.list k (hk.mono hx) hne).trans (hst.list k hk hne)

theorem Extends.sameBut (h : s.Extends t) (l : ListId) : s.SameBut t l :=
  ⟨h.node, fun k hk _ => h.list k hk⟩

/-- Puts a new text between nodes of a list, in place of all that is in the list. -/
def splice (s : Store) (l : ListId) (front : List NodeId) (m : Text) (back : List NodeId) : Store :=
  (s.addLeaf m).2.setList l (front ++ (s.addLeaf m).1 :: back)

theorem sameBut_splice (s : Store) (l : ListId) (front : List NodeId) (m : Text)
    (back : List NodeId) : s.SameBut (s.splice l front m back) l :=
  ((extends_addLeaf s m).sameBut l).trans (.setList _ l _) (extends_addLeaf s m)

theorem Sound.splice (hs : s.Sound) (hl : s.HasList l) (hf : front ⊆ s.list l)
    (hb : back ⊆ s.list l) (m : Text) : (s.splice l front m back).Sound := by
  have hadd := hs.addLeaf m
  have hx := extends_addLeaf s m
  have hmem : ∀ n ∈ front ++ (s.addLeaf m).1 :: back, n ∈ s.list l ∨ n = (s.addLeaf m).1 := by
    intro n hn
    rcases List.mem_append.mp hn with hn | hn
    · exact Or.inl (hf hn)
    · rcases List.mem_cons.mp hn with hn | hn
      · exact Or.inr hn
      · exact Or.inl (hb hn)
  constructor
  · refine closed_setList hadd.closed (fun n hn => ?_)
    rcases hmem n hn with hn | rfl
    · exact (hs.closed.member l n hn).mono hx
    · exact hasNode_addLeaf s m
  · refine acyclic_setList hadd.acyclic (hl.mono hx) (fun n hn => ?_)
    rcases hmem n hn with hn | rfl
    · exact Or.inl (by rwa [list_addLeaf hl])
    · exact Or.inr (not_owns_addLeaf s m hl)

theorem list_splice (hl : s.HasList l) (front : List NodeId) (m : Text) (back : List NodeId) :
    (s.splice l front m back).list l = front ++ (s.addLeaf m).1 :: back :=
  list_setList_self (hl.mono (extends_addLeaf s m))

/-- The new text is written as it is. -/
theorem renderNode_splice (hs : s.Sound) (hl : s.HasList l) (hf : front ⊆ s.list l)
    (hb : back ⊆ s.list l) (m : Text) :
    (s.splice l front m back).renderNode (s.addLeaf m).1 = m := by
  have hnode : (s.splice l front m back).node (s.addLeaf m).1 = ⟨Label.leaf m, (s.addList []).1⟩ :=
    (node_setList _ _ _ _).trans (node_addLeaf s m)
  have hempty : (s.splice l front m back).list (s.addList []).1 = [] := by
    have hne : (s.addList []).1 ≠ l := by
      rintro rfl
      exact Nat.lt_irrefl _ hl
    exact (list_setList_of_ne hne).trans (list_addList_self s [])
  rw [renderNode_of_leaf (by rw [hnode]), hnode, render_labels (hs.splice hl hf hb m), hempty]
  exact List.append_nil m

theorem render_splice (hs : s.Sound) (hl : s.HasList l) (hf : front ⊆ s.list l)
    (hb : back ⊆ s.list l) (m : Text) : ((s.splice l front m back).labels l).render =
      front.flatMap s.renderNode ++ (m ++ back.flatMap s.renderNode) := by
  have ht := hs.splice hl hf hb m
  have hsame : ∀ ns ⊆ s.list l, ns.flatMap (s.splice l front m back).renderNode =
      ns.flatMap s.renderNode := fun ns hns => List.flatMap_congr fun n hn =>
    (sameBut_splice s l front m back).renderNode hs ht (hns hn)
  rw [render_labels ht, list_splice hl, List.flatMap_append, List.flatMap_cons,
    renderNode_splice hs hl hf hb, hsame front hf, hsame back hb]

/-- The three ways to put a text inside. -/
theorem setInner_eq_splice (s : Store) (l : ListId) (m : Text) :
    (s.addLeaf m).2.setList l [(s.addLeaf m).1] = s.splice l [] m [] := rfl

theorem insert_eq_splice (hl : s.HasList l) (hsplit : s.list l = front ++ back) (m : Text) :
    s.insert l front.length (.text m) = s.splice l front m back := by
  rw [insert_text, list_addLeaf hl, hsplit, List.take_left, List.drop_left, splice, List.append_assoc]
  rfl

theorem append_eq_splice (hl : s.HasList l) (m : Text) :
    s.insert l (s.list l).length (.text m) = s.splice l (s.list l) m [] :=
  insert_eq_splice hl (List.append_nil _).symm m

theorem prepend_eq_splice (hl : s.HasList l) (m : Text) :
    s.insert l 0 (.text m) = s.splice l [] m (s.list l) := by
  have hsplit : s.list l = [] ++ s.list l := rfl
  exact insert_eq_splice hl hsplit m

end Store

namespace View

open Store

theorem inner?_eq_some_iff : v.inner? s = some l ↔ ∃ n slot, v.node? s = some n ∧
    (s.list (s.node n).children).head? = some slot ∧ (s.node slot).children = l := by
  simp only [inner?, slot?, Option.map_eq_some_iff, Option.bind_eq_some_iff]
  constructor
  · rintro ⟨slot, ⟨n, hn, hslot⟩, rfl⟩
    exact ⟨n, slot, hn, hslot, rfl⟩
  · rintro ⟨n, slot, hn, hslot, rfl⟩
    exact ⟨slot, ⟨n, hn, hslot⟩, rfl⟩

/-- Writing to the list inside a node does not change which list that is. -/
theorem inner?_of_sameBut (hs : s.Sound) (hl : v.inner? s = some l) (h : s.SameBut t l) :
    v.inner? t = some l := by
  obtain ⟨n, slot, hn, hslot, rfl⟩ := inner?_eq_some_iff.mp hl
  have hchild : s.Child n slot := List.mem_of_mem_head? hslot
  have hin : s.HasNode n := hasNode_of_child hchild
  have howns : s.Owns n (s.node slot).children := ⟨slot, .single hchild, rfl⟩
  have hnode : v.node? t = some n := by
    rw [node?] at hn ⊢
    cases hf : v.focus with
    | some m =>
      rw [hf] at hn
      exact hn
    | none =>
      rw [hf, Option.none_or] at hn
      have hmem := List.mem_of_mem_head? hn
      have hne : v.list ≠ (s.node slot).children := fun he =>
        not_owns_of_mem hs.acyclic (he ▸ hmem) howns
      rw [h.list v.list (hasList_of_mem hmem) hne]
      exact hn
  have hslots : (s.node n).children ≠ (s.node slot).children := fun he =>
    not_owns_of_mem hs.acyclic (he ▸ hchild) (s.owns_children slot)
  refine inner?_eq_some_iff.mpr ⟨n, slot, hnode, ?_, ?_⟩
  · rw [h.node n hin, h.list _ (hs.closed.children n hin) hslots]
    exact hslot
  · rw [h.node slot (hs.closed.member _ slot hchild)]

theorem html_eq (hl : v.inner? s = some l) : v.html s = (s.labels l).render := by
  rw [html, hl]
  rfl

/-- What is written for a view of the store is fixed pieces of text with what is inside the node
between them: two pieces when the list inside is reached once, and one when it is not reached. An edit
of what is inside leaves the pieces as they are. -/
theorem markup_edit_inner (hs : s.Sound) (hl : v.inner? s = some l) (hd : s.HasList d.list) :
    ∃ pieces : List Text, pieces.length = (s.reachedLists d.list).count l + 1 ∧
      d.markup s = (v.html s).intercalate pieces ∧
      d.markup (v.edit s .clear).1 = ([] : Text).intercalate pieces ∧
      ∀ m : Text,
        d.markup (v.edit s (.setInner m)).1 = m.intercalate pieces ∧
        d.markup (v.edit s (.append (.text m))).1 = (v.html s ++ m).intercalate pieces ∧
        d.markup (v.edit s (.prepend (.text m))).1 = (m ++ v.html s).intercalate pieces ∧
        v.html (v.edit s (.setInner m)).1 = m ∧
        v.text (v.edit s (.setInner m)).1 = Text.stripTags m := by
  have hin : s.HasList l := hasList_inner hs hl
  obtain ⟨g, ⟨pieces, hlen, hpieces⟩, hg⟩ := exists_gapped hs l hd
  have hold : v.html s = (s.list l).flatMap s.renderNode := by rw [html_eq hl, render_labels hs]
  have splice (front back : List NodeId) (hf : front ⊆ s.list l) (hb : back ⊆ s.list l) (m : Text) :
      d.markup (s.splice l front m back) =
        (front.flatMap s.renderNode ++ (m ++ back.flatMap s.renderNode)).intercalate pieces := by
    rw [markup, hg _ (hs.splice hin hf hb m) (sameBut_splice ..), hpieces,
      render_splice hs hin hf hb]
  -- every edit but clearing splices a text into the list, so all of them fill the same gaps
  refine ⟨pieces, hlen, ?_, ?_, fun m => ?_⟩
  · rw [markup, hg s hs (.refl s l), hpieces, html_eq hl]
  · have ht : (s.setList l []).Sound := hs.shrink (List.nil_subset _)
    simp only [edit, clear, hl]
    rw [markup, hg _ ht (.setList s l []), hpieces, render_labels ht, list_setList_self hin]
    rfl
  · have hset : (v.edit s (.setInner m)).1 = s.splice l [] m [] := by
      simp only [edit, setInner, hl, setInner_eq_splice]
    have hhtml : v.html (v.edit s (.setInner m)).1 = m := by
      rw [hset, html_eq (inner?_of_sameBut hs hl (sameBut_splice ..)),
        render_splice hs hin (List.nil_subset _) (List.nil_subset _)]
      simp
    refine ⟨?_, ?_, ?_, hhtml, by rw [text, hhtml]⟩
    · rw [hset, splice _ _ (List.nil_subset _) (List.nil_subset _)]
      simp
    · have happend : (v.edit s (.append (.text m))).1 = s.splice l (s.list l) m [] := by
        simp [edit, append, hl, insertInto, Content.wouldContainItself, append_eq_splice hin]
      rw [happend, splice _ _ (List.Subset.refl _) (List.nil_subset _), hold]
      simp
    · have hprepend : (v.edit s (.prepend (.text m))).1 = s.splice l [] m (s.list l) := by
        simp [edit, prepend, hl, insertInto, Content.wouldContainItself, prepend_eq_splice hin]
      rw [hprepend, splice _ _ (List.nil_subset _) (List.Subset.refl _), hold]
      simp

/-- A node that stands in its list twice is written twice, and so is what is put inside it. -/
theorem markup_edit_inner_twice :
    let parsed := (Operation.parse {} "<p data-scope=a>x</p>".toList).apply empty
    let d : View := ⟨⟨4⟩, none⟩
    let v : View := ⟨⟨4⟩, some ⟨3⟩⟩
    let s := (d.edit parsed (.after (.nodes [⟨3⟩]))).1
    s.Sound ∧ v.inner? s = some ⟨1⟩ ∧ s.HasList d.list ∧
      ∃ p q r : Text, d.markup s = p ++ ("x".toList ++ (q ++ ("x".toList ++ r))) ∧
        ∀ m : Text, d.markup (v.edit s (.setInner m)).1 = p ++ (m ++ (q ++ (m ++ r))) := by
  let parsed := (Operation.parse {} "<p data-scope=a>x</p>".toList).apply empty
  let d : View := ⟨⟨4⟩, none⟩
  let v : View := ⟨⟨4⟩, some ⟨3⟩⟩
  let s := (d.edit parsed (.after (.nodes [⟨3⟩]))).1
  have hs : s.Sound := by
    refine sound_edit (sound_empty.run (run_apply empty (.parse {} _) trivial)) ?_ ?_
    · exact ⟨(by decide +kernel : 4 < parsed.lists.size), fun n hn => by cases hn⟩
    · intro c hc n hn
      cases hc
      rw [List.mem_singleton.mp hn]
      exact (by decide +kernel : 3 < parsed.nodes.size)
  have hl : v.inner? s = some ⟨1⟩ := by decide +kernel
  have hd : s.HasList d.list := (by decide +kernel : 4 < s.lists.size)
  have htwice : (s.reachedLists d.list).count ⟨1⟩ = 2 := by decide +kernel
  have hhtml : v.html s = "x".toList := by decide +kernel
  obtain ⟨pieces, hlen, hnow, -, hset⟩ := markup_edit_inner hs hl hd
  rw [htwice] at hlen
  obtain ⟨p, q, r, rfl⟩ := List.length_eq_three.mp hlen
  have hfill (x : Text) : x.intercalate [p, q, r] = p ++ (x ++ (q ++ (x ++ r))) := by simp
  rw [hhtml, hfill] at hnow
  exact ⟨hs, hl, hd, p, q, r, hnow, fun m => (hset m).1.trans (hfill m)⟩

end View
end TemplateTree
