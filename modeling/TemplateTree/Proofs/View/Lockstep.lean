import TemplateTree.Proofs.View.History
import TemplateTree.Proofs.View.Query

/-! The same edit through paired views of alike stores leaves them alike, and touches only what is
paired or new. -/
namespace TemplateTree

open List (Forall₂)

variable {R : Pairing} {s t : Store} {v w : View} {n n' : NodeId} {l l' : ListId}
  {c c' : Content}

/-- Where an insertion puts its content. -/
inductive Place
  | append
  | prepend
  | after
  | before
  | replace
  deriving DecidableEq, Repr

def Place.edit (content : Content) : Place → Edit
  | append => .append content
  | prepend => .prepend content
  | after => .after content
  | before => .before content
  | replace => .replace content

namespace Pairing

inductive ContentRel (R : Pairing) : Content → Content → Prop
  | text (content : Text) : ContentRel R (.text content) (.text content)
  | nodes {ns ns' : List NodeId} (h : Forall₂ R.node ns ns') : ContentRel R (.nodes ns) (.nodes ns')

/-- The same edit, with paired nodes where it inserts nodes. -/
inductive EditRel (R : Pairing) : Edit → Edit → Prop
  | same (e : Edit) (h : e.content? = none) : EditRel R e e
  | insertion {c c' : Content} (place : Place) (h : R.ContentRel c c') :
    EditRel R (place.edit c) (place.edit c')

end Pairing

namespace Store

/-- The first store becomes the second one, which is alike to the third, and keeps what is not
paired. -/
def Alongside (R : Pairing) (s s' t' : Store) : Prop :=
  ∃ R', Alike R' s' t' ∧ Advance R s R' s'

namespace Alike

theorem unchanged (h : Alike R s t) : Alongside R s s t := ⟨R, h, .refl R s⟩

theorem labelled (h : Alike R s t) (hn : R.node n n') (label : Label) :
    Alongside R s (s.setLabel n label) (t.setLabel n' label) :=
  ⟨R, h.setLabel hn label, Advance.setLabel hn label⟩

theorem relisted (h : Alike R s t) (hl : R.list l l') {ns ns' : List NodeId}
    (hns : Forall₂ R.node ns ns') : Alongside R s (s.setList l ns) (t.setList l' ns') :=
  ⟨R, h.setList hl hns, Advance.setList hl ns⟩

theorem node?_cases (h : Alike R s t) (hv : R.ViewRel v w) :
    (v.node? s = none ∧ w.node? t = none) ∨
      ∃ n n', v.node? s = some n ∧ w.node? t = some n' ∧ R.node n n' :=
  Related.none_or_some (h.node? hv)

theorem inner?_cases (h : Alike R s t) (hv : R.ViewRel v w) :
    (v.inner? s = none ∧ w.inner? t = none) ∨
      ∃ l l', v.inner? s = some l ∧ w.inner? t = some l' ∧ R.list l l' := by
  rw [View.inner?, View.inner?, View.slot?, View.slot?]
  rcases h.node?_cases hv with ⟨hn, hm⟩ | ⟨n, n', hn, hm, hnode⟩
  · exact Or.inl (by simp [hn, hm])
  · rw [hn, hm]
    have hslots := Related.head? (h.members (h.children hnode))
    rcases Related.none_or_some hslots with ⟨hs, ht⟩ | ⟨a, b, hs, ht, hslot⟩
    · exact Or.inl (by simp [hs, ht])
    · exact Or.inr ⟨_, _, by simp [hs], by simp [ht], h.children hslot⟩

theorem owns (h : Alike R s t) (hs : s.Sound) (ht : t.Sound) (hn : R.node n n') (hl : R.list l l') :
    s.owns n l = t.owns n' l' := by
  have below := (h.forest hs ht (h.children hn)).preorder
  have hself : decide ((s.node n).children = l) = decide ((t.node n').children = l') :=
    decide_eq_decide.mpr (h.list_inj (h.children hn) hl)
  rw [Store.owns, Store.owns, hself]
  refine congrArg _ (Related.any below (fun o o' ho => ?_))
  exact decide_eq_decide.mpr (h.list_inj ho.children hl)

theorem wouldContainItself (h : Alike R s t) (hs : s.Sound) (ht : t.Sound) (hc : R.ContentRel c c')
    (hl : R.list l l') : c.wouldContainItself s l = c'.wouldContainItself t l' := by
  cases hc with
  | text content => rfl
  | nodes hns => exact Related.any hns (fun a b hab => h.owns hs ht hab hl)

/-- A node stands where its partner stands. -/
theorem mem_and_idxOf (h : Alike R s t) (hl : R.list l l') (hn : R.node n n') :
    (n ∈ s.list l ↔ n' ∈ t.list l') ∧ (s.list l).idxOf n = (t.list l').idxOf n' := by
  have same : ∀ {as bs : List NodeId}, Forall₂ R.node as bs →
      (n ∈ as ↔ n' ∈ bs) ∧ as.idxOf n = bs.idxOf n' := by
    intro as bs hab
    induction hab with
    | nil => simp
    | @cons a b _ _ hab _ ih =>
      have hinj := h.node_inj hab hn
      have heq : (a == n) = (b == n') := by
        rw [Bool.eq_iff_iff, beq_iff_eq, beq_iff_eq]
        exact hinj
      rw [List.mem_cons, List.mem_cons, List.idxOf_cons, List.idxOf_cons, heq, ih.1, ih.2,
        eq_comm, hinj, eq_comm]
      exact ⟨Iff.rfl, rfl⟩
  exact same (h.members hl)

theorem position? (h : Alike R s t) (hl : R.list l l') (hn : R.node n n') :
    s.position? l n = t.position? l' n' := by
  obtain ⟨hmem, hidx⟩ := h.mem_and_idxOf hl hn
  simp only [Store.position?, hmem, hidx]

theorem removeFrom (h : Alike R s t) (hl : R.list l l') (hn : R.node n n') :
    Alike R (s.removeFrom l n) (t.removeFrom l' n') := by
  refine h.setList hl (List.rel_filter (fun a b hab => ?_) (h.members hl))
  simp [h.node_inj hab hn]

/-- A leaf in each of them. -/
theorem addLeaf (h : Alike R s t) (content : Text) : ∃ R',
    Alike R' (s.addLeaf content).2 (t.addLeaf content).2 ∧
      Advance R s R' (s.addLeaf content).2 ∧ R'.node (s.addLeaf content).1 (t.addLeaf content).1 :=
  h.addOver .nil (Label.leaf content)

theorem insert (h : Alike R s t) (hl : R.list l l') (hc : R.ContentRel c c') (i : Nat) :
    Alongside R s (s.insert l i c) (t.insert l' i c') := by
  have splice : ∀ {P : Pairing} {as bs ns ns' : List NodeId}, Forall₂ P.node as bs →
      Forall₂ P.node ns ns' →
      Forall₂ P.node (as.take i ++ ns ++ as.drop i) (bs.take i ++ ns' ++ bs.drop i) := by
    intro P as bs ns ns' hab hns
    exact List.rel_append (List.rel_append (List.forall₂_take i hab) hns) (List.forall₂_drop i hab)
  cases hc with
  | text content =>
    obtain ⟨R₁, h₁, hadv, hnew⟩ := h.addLeaf content
    have hl₁ := hadv.list hl
    exact ⟨R₁, h₁.setList hl₁ (splice (h₁.members hl₁) (.cons hnew .nil)),
      hadv.trans (Advance.setList hl₁ _)⟩
  | nodes hns => exact h.relisted hl (splice (h.members hl) hns)

/-- An insertion that is refused, or carried out at the same index. -/
theorem insertInto (h : Alike R s t) (hs : s.Sound) (ht : t.Sound) (hl : R.list l l')
    (hc : R.ContentRel c c') (i : Nat) :
    Alongside R s (s.insertInto l i c).1 (t.insertInto l' i c').1 := by
  rw [Store.insertInto, Store.insertInto, h.wouldContainItself hs ht hc hl]
  split
  · exact h.unchanged
  · exact h.insert hl hc i

theorem insertBeside (h : Alike R s t) (hs : s.Sound) (ht : t.Sound) (hv : R.ViewRel v w)
    (hc : R.ContentRel c c') (offset : Nat) :
    Alongside R s (v.insertBeside s offset c).1 (w.insertBeside t offset c').1 := by
  rw [View.insertBeside, View.insertBeside, h.wouldContainItself hs ht hc hv.list]
  split
  · exact h.unchanged
  · rcases h.node?_cases hv with ⟨hn, hm⟩ | ⟨n, n', hn, hm, hnode⟩
    · rw [hn, hm, (h.members hv.list).length_eq]
      exact h.insert hv.list hc _
    · simp only [hn, hm, h.position? hv.list hnode]
      split
      · exact h.unchanged
      · exact h.insert hv.list hc _

theorem replace (h : Alike R s t) (hs : s.Sound) (ht : t.Sound) (hv : R.ViewRel v w)
    (hc : R.ContentRel c c') : Alongside R s (v.replace s c).1 (w.replace t c').1 := by
  rw [View.replace, View.replace, h.wouldContainItself hs ht hc hv.list]
  split
  · exact h.unchanged
  · rcases h.node?_cases hv with ⟨hn, hm⟩ | ⟨n, n', hn, hm, hnode⟩
    · rw [hn, hm]
      exact h.insert hv.list hc 0
    · simp only [hn, hm, Option.bind_some, h.position? hv.list hnode]
      cases t.position? w.list n' with
      | none => exact h.insert hv.list hc 0
      | some i =>
        obtain ⟨R', h', hadv⟩ := (h.removeFrom hv.list hnode).insert hv.list hc i
        exact ⟨R', h', (Advance.setList hv.list _).trans hadv⟩

/-- The first title is found in paired nodes. -/
theorem setTitle?_found (h : Alike R s t) (hs : s.Sound) (ht : t.Sound) (hl : R.list l l')
    (title : Text) : Option.Rel (fun p p' => R.node p.1 p'.1 ∧ p.2 = p'.2)
      ((s.forest l).preorder.findSome? fun o =>
        (Text.setTitle? title o.node.label.content).map fun content => (o.id, content))
      ((t.forest l').preorder.findSome? fun o =>
        (Text.setTitle? title o.node.label.content).map fun content => (o.id, content)) := by
  refine Related.findSome? (h.forest hs ht hl).preorder (fun o o' ho => ?_)
  rw [ho.label]
  cases Text.setTitle? title o'.node.label.content with
  | none => exact .none
  | some content => exact .some ⟨ho.id, rfl⟩

theorem setContent (h : Alike R s t) (hn : R.node n n') (content : Text) :
    Alike R (s.setContent n content) (t.setContent n' content) := by
  have heq : t.setContent n' content = t.setLabel n' { (s.node n).label with content } := by
    rw [Store.setContent, h.label hn]
  rw [heq]
  exact h.setLabel hn _

theorem setTitle (h : Alike R s t) (hs : s.Sound) (ht : t.Sound) (hv : R.ViewRel v w)
    (title : Text) : Alongside R s (v.setTitle s title).1 (w.setTitle t title).1 := by
  have found := h.setTitle?_found hs ht hv.list title
  simp only [View.setTitle]
  revert found
  generalize List.findSome? _ (s.forest v.list).preorder = p
  generalize List.findSome? _ (t.forest w.list).preorder = p'
  intro found
  cases found with
  | none => exact h.unchanged
  | @some a b hab =>
    obtain ⟨n, content⟩ := a
    obtain ⟨n', content'⟩ := b
    obtain ⟨hnode, rfl⟩ := hab
    exact ⟨R, h.setContent hnode content, Advance.setLabel hnode _⟩

/-- The same insertion at the same place. -/
theorem insertion (h : Alike R s t) (hs : s.Sound) (ht : t.Sound) (hv : R.ViewRel v w)
    (hc : R.ContentRel c c') (place : Place) :
    Alongside R s (v.edit s (place.edit c)).1 (w.edit t (place.edit c')).1 := by
  cases place with
  | after => exact h.insertBeside hs ht hv hc 1
  | before => exact h.insertBeside hs ht hv hc 0
  | replace => exact h.replace hs ht hv hc
  | append | prepend =>
    rcases h.inner?_cases hv with ⟨hl, hm⟩ | ⟨l, l', hl, hm, hlist⟩
    · simp only [Place.edit, View.edit, View.append, View.prepend, hl, hm]
      exact h.unchanged
    · simp only [Place.edit, View.edit, View.append, View.prepend, hl, hm,
        (h.members hlist).length_eq]
      exact h.insertInto hs ht hlist hc _

/-- One step of both stores. -/
theorem edit (h : Alike R s t) (hs : s.Sound) (ht : t.Sound) (hv : R.ViewRel v w) {e e' : Edit}
    (he : R.EditRel e e') : Alongside R s (v.edit s e).1 (w.edit t e').1 := by
  cases he with
  | insertion place hc => exact h.insertion hs ht hv hc place
  | same e hnone =>
    cases e with
    | setAttribute key value =>
      rcases h.node?_cases hv with ⟨hn, hm⟩ | ⟨n, n', hn, hm, hnode⟩
      · simp only [View.edit, View.setAttribute, hn, hm]
        exact h.unchanged
      · simp only [View.edit, View.setAttribute, hn, hm, Store.setAttributes, ← h.label hnode]
        exact h.labelled hnode _
    | removeAttribute key =>
      rcases h.node?_cases hv with ⟨hn, hm⟩ | ⟨n, n', hn, hm, hnode⟩
      · simp only [View.edit, View.removeAttribute, hn, hm]
        exact h.unchanged
      · simp only [View.edit, View.removeAttribute, hn, hm, Store.setAttributes, ← h.label hnode]
        split
        · exact h.labelled hnode _
        · exact h.unchanged
    | remove =>
      rcases h.node?_cases hv with ⟨hn, hm⟩ | ⟨n, n', hn, hm, hnode⟩
      · simp only [View.edit, View.remove, hn, hm]
        exact h.unchanged
      · have hmem := (h.mem_and_idxOf hv.list hnode).1
        simp only [View.edit, View.remove, hn, hm, hmem]
        split
        · exact ⟨R, h.removeFrom hv.list hnode, Advance.setList hv.list _⟩
        · exact h.unchanged
    | clear =>
      rcases h.inner?_cases hv with ⟨hl, hm⟩ | ⟨l, l', hl, hm, hlist⟩
      · simp only [View.edit, View.clear, hl, hm]
        exact h.unchanged
      · simp only [View.edit, View.clear, hl, hm]
        exact h.relisted hlist .nil
    | setInner content =>
      rcases h.inner?_cases hv with ⟨hl, hm⟩ | ⟨l, l', hl, hm, hlist⟩
      · simp only [View.edit, View.setInner, hl, hm]
        exact h.unchanged
      · obtain ⟨R₁, h₁, hadv, hnew⟩ := h.addLeaf content
        have hlist₁ := hadv.list hlist
        simp only [View.edit, View.setInner, hl, hm]
        exact ⟨R₁, h₁.setList hlist₁ (.cons hnew .nil), hadv.trans (Advance.setList hlist₁ _)⟩
    | setTitle title => exact h.setTitle hs ht hv title
    | _ => simp [Edit.content?] at hnone

/-- Copies of paired views are paired, whatever else is; with nothing else paired, all that is paired
is new. -/
theorem duplicate {P : Pairing} (h : Alike R s t) (hs : s.Sound) (ht : t.Sound) (hv : R.ViewRel v w)
    (hP : Alike P s t) : ∃ P', Alike P' (v.duplicate s).2 (w.duplicate t).2 ∧
      Advance P s P' (v.duplicate s).2 ∧ P'.ViewRel (v.duplicate s).1 (w.duplicate t).1 := by
  have hsource := h.forest hs ht hv.list
  have hsame : (t.forest w.list).map (·.node.label) = (s.forest v.list).map (·.node.label) :=
    (hsource.map_eq (fun _ _ ho => ho.label)).symm
  obtain ⟨P', h', hadv, hlist, hids⟩ := hP.plantList ((s.forest v.list).map (·.node.label))
  simp only [View.duplicate, hsame]
  refine ⟨P', h', hadv, hlist, ?_⟩
  have hzip := Related.zip hsource.preorder hids.preorder
  rcases Related.none_or_some hv.focus with ⟨hf, hg⟩ | ⟨n, n', hf, hg, hnode⟩
  · rw [hf, hg]
    exact .none
  · rw [hf, hg]
    refine Related.map? (Related.find? hzip (fun a b hab => ?_)) (fun _ _ hab => hab.2)
    exact decide_eq_decide.mpr (h.node_inj hab.1.id hnode)

end Alike
end Store
end TemplateTree
