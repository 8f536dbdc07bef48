import TemplateTree.Proofs.Store.Once
import TemplateTree.Proofs.Text.Title
import TemplateTree.Proofs.View.History
import TemplateTree.View.Title

/-! Where the title of a view stands, and what setting it writes. The new title is read back, no other
node says anything else, and a second title takes the place of the first. -/
namespace TemplateTree

open Text

variable {s t : Store} {v : View} {n m : NodeId} {l : ListId}
  {a b title before after new u content : Text}

namespace Store

/-- One node says something else, and that is all that has changed. -/
structure Rewritten (s : Store) (n : NodeId) (content : Text) (t : Store) : Prop where
  lists : t.lists = s.lists
  size : t.nodes.size = s.nodes.size
  others : ∀ m, m ≠ n → t.node m = s.node m
  node : t.node n = ⟨⟨content, (s.node n).label.attributes⟩, (s.node n).children⟩

theorem hasNode_of_content (h : (s.node n).label.content ≠ []) : s.HasNode n := by
  by_contra hn
  rw [node_of_not_hasNode hn] at h
  exact h rfl

theorem rewritten_setContent (hn : s.HasNode n) (content : Text) :
    s.Rewritten n content (s.setContent n content) where
  lists := rfl
  size := Array.size_setIfInBounds
  others _ hm := node_setLabel_of_ne hm _
  node := node_setLabel_self hn _

theorem setContent_setContent (hn : s.HasNode n) (a b : Text) :
    (s.setContent n a).setContent n b = s.setContent n b := by
  have hnode : (s.setContent n a).node n = _ := node_setLabel_self hn _
  rw [setContent, hnode, setLabel, hnode, setContent, setContent, setLabel, setLabel,
    Array.setIfInBounds_setIfInBounds]

/-- The nodes under a list in the order of the traversal, each as often as it is reached. -/
def visited (s : Store) (l : ListId) : List NodeId := (s.forest l).preorder.map (·.id)

theorem visited_setContent (s : Store) (n : NodeId) (content : Text) (l : ListId) :
    (s.setContent n content).visited l = s.visited l := by
  have below (levels : Nat) : ((s.setContent n content).unfold levels l).preorder.map (·.id) =
      (s.unfold levels l).preorder.map (·.id) := by
    induction levels generalizing l with
    | zero => rfl
    | succ levels ih =>
      rw [ids_unfold_succ, ids_unfold_succ]
      refine List.flatMap_congr fun m _ => ?_
      rw [ih, setContent, children_setLabel]
  have hsize : (s.setContent n content).nodes.size = s.nodes.size := Array.size_setIfInBounds
  rw [visited, forest, hsize, below]
  rfl

theorem mem_visited_iff (hs : s.Sound) : n ∈ s.visited l ↔ s.Reaches l n := by
  rw [← exists_occurrence_iff hs.closed hs.acyclic, visited, List.mem_map]

/-- A search among the occurrences looks at each node by its name. -/
theorem findSome?_visited {α : Type} (f : NodeId → Node → Option α) (l : ListId) :
    ((s.forest l).preorder.findSome? fun o => f o.id o.node) =
      (s.visited l).findSome? fun n => f n (s.node n) := by
  have hpairs : (s.forest l).preorder.map (fun o => (o.id, o.node)) =
      (s.visited l).map fun n => (n, s.node n) := by
    rw [visited, List.map_map]
    refine List.map_congr_left fun o ho => ?_
    rw [Function.comp_apply, (occurrence_sound ho).2]
  have hfound := congrArg (List.findSome? fun p => f p.1 p.2) hpairs
  rwa [List.findSome?_map, List.findSome?_map] at hfound

end Store

namespace View

open Store

/-- The title of the view stands in this node: no node before it has a title, and the pattern matches
there in what it says. -/
structure TitleAt (v : View) (s : Store) (n : NodeId) (before title after : Text) : Prop where
  first : ∃ earlier later, s.visited v.list = earlier ++ n :: later ∧
    ∀ m ∈ earlier, Text.title? (s.node m).label.content = none
  leading : Leading (s.node n).label.content before title after

theorem title?_visited (v : View) (s : Store) : v.title? s =
    (s.visited v.list).findSome? fun n => Text.title? (s.node n).label.content :=
  findSome?_visited (fun _ node => Text.title? node.label.content) v.list

theorem TitleAt.hasNode (h : v.TitleAt s n before title after) : s.HasNode n := by
  refine hasNode_of_content ?_
  rw [h.leading.text]
  exact tagged_ne_nil before title after

theorem title?_eq_some_iff : v.title? s = some title ↔
    ∃ n before after, v.TitleAt s n before title after := by
  rw [title?_visited, List.findSome?_eq_some_iff]
  constructor
  · rintro ⟨earlier, n, later, hsplit, htitle, hno⟩
    obtain ⟨before, after, hlead⟩ := Text.title?_eq_some_iff.mp htitle
    exact ⟨n, before, after, ⟨earlier, later, hsplit, hno⟩, hlead⟩
  · rintro ⟨n, before, after, ⟨earlier, later, hsplit, hno⟩, hlead⟩
    exact ⟨earlier, n, later, hsplit, Text.title?_eq_some_iff.mpr ⟨before, after, hlead⟩, hno⟩

theorem TitleAt.setTitle (h : v.TitleAt s n before title after) (new : Text) :
    v.setTitle s new = (s.setContent n (tagged before new after), [.titleSet new]) := by
  obtain ⟨earlier, later, hsplit, hno⟩ := h.first
  have hnone : (earlier.findSome? fun m =>
      (Text.setTitle? new (s.node m).label.content).map fun content => (m, content)) = none := by
    rw [List.findSome?_eq_none_iff]
    intro m hm
    rw [setTitle?_of_none (hno m hm), Option.map_none]
  have hfound : ((s.forest v.list).preorder.findSome? fun o =>
      (Text.setTitle? new o.node.label.content).map fun content => (o.id, content)) =
        some (n, tagged before new after) := by
    rw [findSome?_visited fun m node => (Text.setTitle? new node.label.content).map fun c => (m, c),
      hsplit, List.findSome?_append, hnone, Option.none_or, List.findSome?_cons, h.leading.setTitle?]
    rfl
  simp only [View.setTitle, hfound]

theorem setTitle_of_none (h : v.title? s = none) (new : Text) : v.setTitle s new = (s, [.noTitle]) := by
  rw [title?_visited, List.findSome?_eq_none_iff] at h
  have hfound : ((s.forest v.list).preorder.findSome? fun o =>
      (Text.setTitle? new o.node.label.content).map fun content => (o.id, content)) = none := by
    rw [findSome?_visited fun m node => (Text.setTitle? new node.label.content).map fun c => (m, c),
      List.findSome?_eq_none_iff]
    intro m hm
    rw [setTitle?_of_none (h m hm), Option.map_none]
  simp only [View.setTitle, hfound]

/-- A title that fits stands where the old one stood. -/
theorem TitleAt.setContent (h : v.TitleAt s n before title after) (hnew : FitsTitle new) :
    v.TitleAt (s.setContent n (tagged before new after)) n before new after := by
  have hwrite := rewritten_setContent h.hasNode (tagged before new after)
  obtain ⟨earlier, later, hsplit, hno⟩ := h.first
  refine ⟨⟨earlier, later, (visited_setContent ..).trans hsplit, fun m hm => ?_⟩, ?_⟩
  · have hne : m ≠ n := by
      rintro rfl
      have hsome := Text.title?_eq_some_iff.mpr ⟨before, after, h.leading⟩
      rw [hno m hm] at hsome
      cases hsome
    rw [hwrite.others m hne]
    exact hno m hm
  · rw [hwrite.node]
    exact h.leading.replace hnew

/-- There is a title exactly when some node has an opening tag with an end tag on its line. It is the
leftmost one of the first such node. A new title goes between these two tags, is read back, and gives way
to the next one; without a title nothing is written. -/
theorem title_setTitle (hs : s.Sound) (v : View) :
    ((v.title? s).isSome = true ↔ ∃ n b t a, s.Reaches v.list n ∧
      (s.node n).label.content = tagged b t a ∧ '\n' ∉ t) ∧
    (∀ title, v.title? s = some title → ∃ n before after, v.TitleAt s n before title after ∧
      ∀ t, FitsTitle t → v.title? (v.setTitle s t).1 = some t ∧
        s.Rewritten n (tagged before t after) (v.setTitle s t).1 ∧
        ∀ u, FitsTitle u → v.setTitle (v.setTitle s t).1 u = v.setTitle s u) ∧
    (v.title? s = none → ∀ t, (v.setTitle s t).1 = s) := by
  refine ⟨⟨fun h => ?_, ?_⟩, fun title h => ?_, fun h t => by rw [setTitle_of_none h]⟩
  · obtain ⟨title, h⟩ := Option.isSome_iff_exists.mp h
    obtain ⟨n, b, a, hat⟩ := title?_eq_some_iff.mp h
    obtain ⟨earlier, later, hsplit, -⟩ := hat.first
    have hn : n ∈ s.visited v.list := by simp [hsplit]
    exact ⟨n, b, title, a, (mem_visited_iff hs).mp hn, hat.leading.text, hat.leading.line⟩
  · rintro ⟨n, b, t, a, hn, htext, ht⟩
    rw [title?_visited, List.findSome?_isSome_iff]
    refine ⟨n, (mem_visited_iff hs).mpr hn, ?_⟩
    by_contra hnone
    exact ht (Text.title?_eq_none_iff.mp (by simpa using hnone) htext)
  · obtain ⟨n, before, after, hat⟩ := title?_eq_some_iff.mp h
    refine ⟨n, before, after, hat, fun t ht => ?_⟩
    rw [hat.setTitle t]
    refine ⟨title?_eq_some_iff.mpr ⟨n, before, after, hat.setContent ht⟩,
      rewritten_setContent hat.hasNode _, fun u _ => ?_⟩
    rw [(hat.setContent ht).setTitle u, hat.setTitle u, setContent_setContent hat.hasNode]

/-- The first pair of tags is broken by a line end. The new title begins like another title and is read
back whole. -/
theorem title_setTitle_broken :
    let s := (Operation.parse {} "<title>a\n</title><title>b</title><title>c</title>".toList).apply empty
    let v : View := ⟨⟨1⟩, none⟩
    let new := "<title>$1".toList
    s.Sound ∧ v.title? s = some ['b'] ∧ FitsTitle new ∧ v.title? (v.setTitle s new).1 = some new ∧
      v.markup (v.setTitle s new).1 =
        "<title>a\n</title><title><title>$1</title><title>c</title>".toList := by
  intro s v new
  have hs : s.Sound := sound_empty.run (run_apply empty (.parse {} _) trivial)
  have hb : v.title? s = some ['b'] := by decide +kernel
  have hnew : FitsTitle new := ⟨by decide, by decide⟩
  obtain ⟨n, before, after, -, hset⟩ := (title_setTitle hs v).2.1 ['b'] hb
  exact ⟨hs, hb, hnew, (hset new hnew).1, by decide +kernel⟩

end View
end TemplateTree
