import TemplateTree.Proofs.View.Insertion
import TemplateTree.View.Edit
import TemplateTree.Markup.Parse

/-! Histories of a store. Whatever is read, copied, made and edited, no node comes to stand below
itself, and the check for that refuses nothing else. -/
namespace TemplateTree

variable {s t : Store} {v : View} {e : Edit} {c : Content} {n : NodeId} {l : ListId}

namespace View

theorem sound_setInner (hs : s.Sound) (h : v.inner? s = some l) (content : Text) :
    ((s.addLeaf content).2.setList l [(s.addLeaf content).1]).Sound := by
  have hadd := hs.addLeaf content
  have hl : s.HasList l := hasList_inner hs h
  have hnew : ∀ m ∈ [(s.addLeaf content).1], m = (s.addLeaf content).1 := by simp
  constructor
  · refine Store.closed_setList hadd.closed (fun m hm => ?_)
    rw [hnew m hm]
    exact Store.hasNode_addLeaf s content
  · refine Store.acyclic_setList hadd.acyclic (hl.mono (Store.extends_addLeaf s content))
      (fun m hm => Or.inr ?_)
    rw [hnew m hm]
    exact Store.not_owns_addLeaf s content hl

/-- An edit that inserts into a list that exists. -/
theorem sound_insertion (hs : s.Sound) (hv : v.InUse s) (he : e.InUse s)
    (hc : e.content? = some c) (ht : v.target? s e = some l) : (v.edit s e).1.Sound := by
  rcases edit_cases hc ht with ⟨-, heq⟩ | ⟨hw, -, hput | ⟨-, heq⟩⟩
  · rw [heq]
    exact hs
  · refine ⟨hput.closed hs (he c hc), (hput.acyclic_iff hs (hv.target hs ht)).mpr ?_⟩
    intro n hn ho
    have := (Store.wouldContainItself_iff hs).mpr ⟨n, hn, ho⟩
    rw [hw] at this
    cases this
  · rw [heq]
    exact hs

theorem sound_edit (hs : s.Sound) (hv : v.InUse s) (he : e.InUse s) : (v.edit s e).1.Sound := by
  cases e with
  | setAttribute key value =>
    simp only [edit, setAttribute]
    split
    · exact hs
    · exact hs.setLabel _ _
  | removeAttribute key =>
    simp only [edit, removeAttribute]
    split
    · exact hs
    · split
      · exact hs.setLabel _ _
      · exact hs
  | remove =>
    simp only [edit, remove]
    split
    · exact hs
    · split
      · exact hs.shrink List.filter_sublist.subset
      · exact hs
  | clear =>
    simp only [edit, clear]
    split
    · exact hs
    · exact hs.shrink (List.nil_subset _)
  | setInner content =>
    simp only [edit, setInner]
    split
    · exact hs
    · next h => exact sound_setInner hs h content
  | setTitle title =>
    simp only [edit, setTitle]
    split
    · exact hs
    · exact hs.setLabel _ _
  | append c | prepend c =>
    cases ht : v.inner? s with
    | none =>
      simp only [edit, append, prepend, ht]
      exact hs
    | some l => exact sound_insertion hs hv he rfl ht
  | after c | before c | replace c => exact sound_insertion hs hv he rfl rfl

end View

/-- What changes a store. Queries read it only, and a copy of a list is a duplicate of a view of the
whole list. -/
inductive Operation
  | parse (config : Config) (input : Text)
  | parseBytes (config : Config) (bytes : List UInt8)
  | duplicate (v : View)
  | newNode (label : Label) (children : ListId)
  | newList (ns : List NodeId)
  | edit (v : View) (e : Edit)
  | setContent (n : NodeId) (content : Text)
  | setAttributes (n : NodeId) (attributes : Attributes)
  | removeFrom (l : ListId) (n : NodeId)
  | clearList (l : ListId)

namespace Operation

/-- What an operation puts somewhere is in use. -/
def InUse (s : Store) : Operation → Prop
  | newNode _ children => s.HasList children
  | newList ns => ∀ n ∈ ns, s.HasNode n
  | edit v e => v.InUse s ∧ e.InUse s
  | _ => True

/-- A failed parse leaves the store as it is. -/
def plantParsed (s : Store) : Except ParseError Markup → Store
  | .ok m => (s.plantView m.forest).2
  | .error _ => s

def apply (s : Store) : Operation → Store
  | parse config input => plantParsed s (Markup.parse config input)
  | parseBytes config bytes => plantParsed s (Markup.parseBytes config bytes)
  | duplicate v => (v.duplicate s).2
  | newNode label children => (s.addNode ⟨label, children⟩).2
  | newList ns => (s.addList ns).2
  | edit v e => (v.edit s e).1
  | setContent n content => s.setContent n content
  | setAttributes n attributes => s.setAttributes n attributes
  | removeFrom l n => s.removeFrom l n
  | clearList l => s.setList l []

theorem sound_plantParsed (hs : s.Sound) (r : Except ParseError Markup) :
    (plantParsed s r).Sound := by
  cases r with
  | error => exact hs
  | ok m => exact hs.plantList m.forest

theorem sound_apply (hs : s.Sound) (o : Operation) (ho : o.InUse s) : (o.apply s).Sound := by
  cases o with
  | parse | parseBytes => exact sound_plantParsed hs _
  | duplicate v => exact hs.plantList _
  | newNode label children => exact hs.addNode ho
  | newList ns => exact hs.addList ho
  | edit v e => exact View.sound_edit hs ho.1 ho.2
  | setContent | setAttributes => exact hs.setLabel _ _
  | removeFrom l n => exact hs.shrink List.filter_sublist.subset
  | clearList l => exact hs.shrink (List.nil_subset _)

end Operation

/-- One store comes from the other by one operation. -/
def Store.Step (s t : Store) : Prop := ∃ o : Operation, o.InUse s ∧ t = o.apply s

def Store.Run : Store → Store → Prop := Relation.ReflTransGen Store.Step

namespace Store

theorem sound_empty : empty.Sound where
  closed := ⟨fun n hn => absurd hn (Nat.not_lt_zero _), fun l n hn => by simp [list, empty] at hn⟩
  acyclic n h := by
    obtain ⟨m, hm, -⟩ := Relation.TransGen.head'_iff.mp h
    simp [Child, list, empty] at hm

theorem Sound.run (hs : s.Sound) (h : s.Run t) : t.Sound := by
  induction h with
  | refl => exact hs
  | tail _ hstep ih =>
    obtain ⟨o, ho, rfl⟩ := hstep
    exact o.sound_apply ih ho

theorem run_apply (s : Store) (o : Operation) (ho : o.InUse s) : s.Run (o.apply s) :=
  .single ⟨o, ho, rfl⟩

/-- One of the nodes owns the list exactly when putting the content there would make a cycle, at
whatever place and whatever leaves the list for it. -/
theorem owns_iff_putInto (hs : s.Sound) (hl : s.HasList l) :
    (∃ n ∈ c.shared, s.Owns n l) ↔ ∀ u, s.PutInto l c u → ¬ u.Acyclic := by
  constructor
  · rintro ⟨n, hn, ho⟩ u hu ha
    exact (hu.acyclic_iff hs hl).mp ha n hn ho
  · intro h
    by_contra hno
    refine h _ (putInto_insert s l 0 c) ((acyclic_insert_iff hs hl 0 c).mpr ?_)
    intro n hn ho
    exact hno ⟨n, hn, ho⟩

/-- However a store came about from one without cycles, it has none, and a traversal ends before the
levels do. An insertion into a list that exists is refused, with the store as it was, exactly when it
would make a cycle. Otherwise it is carried out, unless the node it should go beside has left the
list. -/
theorem acyclic_run (hs : s.Sound) (h : s.Run t) :
    t.Acyclic ∧ (∀ l levels, t.nodes.size ≤ levels → t.unfold levels l = t.forest l) ∧
      ∀ (v : View) (e : Edit) (c : Content) (l : ListId), v.InUse t → e.InUse t →
        e.content? = some c → v.target? t e = some l →
        (.wouldContainItself ∈ (v.edit t e).2 ↔ ∃ n ∈ c.shared, t.Owns n l) ∧
        ((∃ n ∈ c.shared, t.Owns n l) ↔ ∀ u, t.PutInto l c u → ¬ u.Acyclic) ∧
        (.wouldContainItself ∈ (v.edit t e).2 → (v.edit t e).1 = t) ∧
        (.wouldContainItself ∉ (v.edit t e).2 →
          t.PutInto l c (v.edit t e).1 ∨ v.Stranded t e ∧ (v.edit t e).1 = t) := by
  have ht : t.Sound := hs.run h
  refine ⟨ht.acyclic, fun l levels hle => unfold_of_le ht.closed ht.acyclic hle l, ?_⟩
  intro v e c l hv he hc htarget
  have howns := wouldContainItself_iff (c := c) (l := l) ht
  refine ⟨?_, owns_iff_putInto ht (hv.target ht htarget), ?_⟩
  · rw [← howns]
    rcases View.edit_cases hc htarget with ⟨hw, heq⟩ | ⟨hw, hev, -⟩
    · simp [hw, heq]
    · simp [hw, hev]
  · rcases View.edit_cases hc htarget with ⟨-, heq⟩ | ⟨-, hev, hdone⟩
    · exact ⟨fun _ => by rw [heq], fun hno => absurd (by simp [heq]) hno⟩
    · exact ⟨fun hyes => absurd hyes hev, fun _ => hdone⟩

/-- The root of a document may not become part of itself. -/
theorem append_root_to_itself :
    let s := (Operation.parse {} "<p data-scope=a>x</p>".toList).apply empty
    let root : NodeId := ⟨3⟩
    let v : View := ⟨⟨4⟩, none⟩
    v.markup s = "<p data-scope=\"a\">x</p>".toList ∧ s.list v.list = [root] ∧ s.Acyclic ∧
      (∃ n ∈ (Content.nodes [root]).shared, s.Owns n ⟨1⟩) ∧
      (v.edit s (.append (.nodes [root]))).1 = s := by
  let s := (Operation.parse {} "<p data-scope=a>x</p>".toList).apply empty
  let root : NodeId := ⟨3⟩
  let v : View := ⟨⟨4⟩, none⟩
  have hlist : s.list v.list = [root] := by decide +kernel
  obtain ⟨ha, -, hall⟩ := acyclic_run sound_empty (run_apply empty (.parse {} _) trivial : empty.Run s)
  have hv : v.InUse s := ⟨(by decide +kernel : 4 < s.lists.size), fun n hn => by cases hn⟩
  have he : (Edit.append (.nodes [root])).InUse s := by
    intro c hc n hn
    cases hc
    rw [List.mem_singleton.mp hn]
    exact (by decide +kernel : 3 < s.nodes.size)
  obtain ⟨howns, -, hsame, -⟩ := hall v _ _ ⟨1⟩ hv he rfl (by decide +kernel)
  have hev : .wouldContainItself ∈ (v.edit s (.append (.nodes [root]))).2 := by decide +kernel
  exact ⟨by decide +kernel, hlist, ha, howns.mp hev, hsame hev⟩

/-- A view whose node was removed has an empty list; a text beside that node goes nowhere, although
it would make no cycle. -/
theorem after_removed_node :
    let parsed := (Operation.parse {} "x".toList).apply empty
    let v : View := ⟨⟨1⟩, some ⟨0⟩⟩
    let s := (v.edit parsed .remove).1
    let e : Edit := .after (.text "t".toList)
    s.Sound ∧ v.InUse s ∧ e.InUse s ∧ v.target? s e = some v.list ∧ s.list v.list = [] ∧
      (∀ u, s.PutInto v.list (.text "t".toList) u → u.Acyclic) ∧
      v.edit s e = (s, [.detachedSibling]) := by
  let parsed := (Operation.parse {} "x".toList).apply empty
  let v : View := ⟨⟨1⟩, some ⟨0⟩⟩
  let s := (v.edit parsed .remove).1
  have hin (s' : Store) (hn : 0 < s'.nodes.size) (hl : 1 < s'.lists.size) : v.InUse s' :=
    ⟨hl, fun n hf => by cases hf; exact hn⟩
  have hs : s.Sound := by
    refine View.sound_edit (sound_empty.run (run_apply empty (.parse {} _) trivial)) ?_ ?_
    · exact hin parsed (by decide +kernel) (by decide +kernel)
    · intro c hc
      cases hc
  have hv : v.InUse s := hin s (by decide +kernel) (by decide +kernel)
  refine ⟨hs, hv, ?_, rfl, by decide +kernel, ?_, by decide +kernel⟩
  · intro c hc n hn
    cases hc
    simp [Content.shared] at hn
  · intro u hu
    refine (hu.acyclic_iff hs hv.list).mpr ?_
    simp [Content.shared]

end Store
end TemplateTree
