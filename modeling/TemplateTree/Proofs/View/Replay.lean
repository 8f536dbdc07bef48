import TemplateTree.Proofs.Store.Twins
import TemplateTree.Proofs.View.Lockstep
import TemplateTree.Proofs.View.Session

/-! The same edits on a document and on its duplicate, asked for by the same queries. Both show the same
after every step, as long as nothing in the document is shared. -/
namespace TemplateTree

open List (Forall₂)

variable {R : Pairing} {s t : Store} {v w d c : View} {n : NodeId} {l : ListId}

/-- How a document is asked for the place of an edit. -/
inductive Address
  | document
  | scope (name : Text) (i : Nat)
  | property (scopeName name : Text) (i : Nat)
  | container (name : Text)
  | fragment (name : Text)
  deriving DecidableEq, Repr

def View.locate (d : View) (s : Store) : Address → Option View
  | .document => some d
  | .scope name i => (d.scope s name)[i]?
  | .property scopeName name i => (d.property s scopeName name)[i]?
  | .container name => d.named? s .container name
  | .fragment name => d.named? s .fragment name

/-- An edit at an address. What it inserts, if it does, is a text. -/
structure Task where
  address : Address
  edit : Edit
  textual : ∀ c, edit.content? = some c → ∃ content, c = .text content

/-- A task whose address is not found does nothing. -/
def Task.perform (task : Task) (d : View) (s : Store) : Store :=
  ((d.locate s task.address).map fun v => (v.edit s task.edit).1).getD s

/-- What a view shows: its list, the node that it is about, and what is inside. -/
structure Look where
  markup : Text
  node? : Option Text
  html : Text
  deriving DecidableEq, Repr

def View.look (v : View) (s : Store) : Look := ⟨v.markup s, (v.node? s).map s.renderNode, v.html s⟩

structure ScopeLook where
  name : Text
  look : Look
  properties : List (Text × Look)
  deriving DecidableEq, Repr

def Scope.look (s : Store) (a : Scope) : ScopeLook :=
  ⟨a.name, a.view.look s, a.properties.map fun p => (p.name, p.view.look s)⟩

/-- What a document shows, and all that it answers. -/
structure Display where
  look : Look
  title? : Option Text
  scopes : Forest ScopeLook
  containers : List (Text × Look)
  fragments : List (Text × Look)
  deriving DecidableEq, Repr

def View.display (d : View) (s : Store) : Display where
  look := d.look s
  title? := d.title? s
  scopes := (d.scopes s).map (·.look s)
  containers := (d.named s .container).map fun e => (e.1, e.2.look s)
  fragments := (d.named s .fragment).map fun e => (e.1, e.2.look s)

/-- What the document shows at first and after each of the tasks. -/
def View.replay (d : View) (s : Store) : List Task → List Display
  | [] => [d.display s]
  | task :: rest => d.display s :: d.replay (task.perform d s) rest

theorem Pairing.editRel_self {e : Edit}
    (h : ∀ c, e.content? = some c → ∃ content, c = .text content) : R.EditRel e e := by
  cases e with
  | append c =>
    obtain ⟨content, rfl⟩ := h c rfl
    exact .insertion .append (.text content)
  | prepend c =>
    obtain ⟨content, rfl⟩ := h c rfl
    exact .insertion .prepend (.text content)
  | after c =>
    obtain ⟨content, rfl⟩ := h c rfl
    exact .insertion .after (.text content)
  | before c =>
    obtain ⟨content, rfl⟩ := h c rfl
    exact .insertion .before (.text content)
  | replace c =>
    obtain ⟨content, rfl⟩ := h c rfl
    exact .insertion .replace (.text content)
  | _ => exact .same _ rfl

namespace Store.Alike

variable (h : Alike R s t) (hs : s.Sound) (ht : t.Sound)

include h hs ht

theorem renderNode {n n' : NodeId} (hn : R.node n n') : s.renderNode n = t.renderNode n' := by
  rw [Store.renderNode, Store.renderNode, h.label hn, h.labels hs ht (h.children hn)]

theorem html (hv : R.ViewRel v w) : v.html s = w.html t := by
  rw [View.html, View.html]
  rcases h.inner?_cases hv with ⟨hl, hm⟩ | ⟨l, l', hl, hm, hlist⟩
  · rw [hl, hm]
    rfl
  · rw [hl, hm, Option.map_some, Option.map_some, h.labels hs ht hlist]

theorem look (hv : R.ViewRel v w) : v.look s = w.look t := by
  have hnode : (v.node? s).map s.renderNode = (w.node? t).map t.renderNode := by
    rcases h.node?_cases hv with ⟨hn, hm⟩ | ⟨n, n', hn, hm, hnode⟩
    · rw [hn, hm]
      rfl
    · rw [hn, hm, Option.map_some, Option.map_some, h.renderNode hs ht hnode]
  rw [View.look, View.look, h.markup hs ht hv, hnode, h.html hs ht hv]

theorem scopeLook {a b : Scope} (hab : R.ScopeRel a b) : a.look s = b.look t := by
  rw [Scope.look, Scope.look, hab.name, h.look hs ht hab.view,
    Related.map_eq hab.properties fun p q hpq => by rw [hpq.name, h.look hs ht hpq.view]]

theorem title? (hv : R.ViewRel v w) : v.title? s = w.title? t := by
  have hfound := Related.findSome? (q := Eq) (f := fun o => Text.title? o.node.label.content)
    (g := fun o => Text.title? o.node.label.content) (h.forest hs ht hv.list).preorder
    fun o o' ho => by
      rw [ho.label]
      cases Text.title? o'.node.label.content with
      | none => exact .none
      | some title => exact .some rfl
  rcases Related.none_or_some hfound with ⟨hs, ht⟩ | ⟨a, b, hs, ht, rfl⟩
  · exact hs.trans ht.symm
  · exact hs.trans ht.symm

theorem named (hv : R.ViewRel v w) (key : AttrKey) :
    Forall₂ R.NamedRel (v.named s key) (w.named t key) :=
  Pairing.ofOccurrences key (h.forest hs ht hv.list).preorder

theorem display (hv : R.ViewRel v w) : v.display s = w.display t := by
  have named (key : AttrKey) : (v.named s key).map (fun e => (e.1, e.2.look s)) =
      (w.named t key).map fun e => (e.1, e.2.look t) :=
    Related.map_eq (h.named hs ht hv key) fun e e' he => by rw [he.name, h.look hs ht he.view]
  rw [View.display, View.display, h.look hs ht hv, h.title? hs ht hv, named, named,
    (h.scopes hs ht hv).map_eq fun a b hab => h.scopeLook hs ht hab]

/-- An address leads to paired views. -/
theorem locate (hv : R.ViewRel v w) (a : Address) :
    Option.Rel R.ViewRel (v.locate s a) (w.locate t a) := by
  have hnamed (key : AttrKey) (name : Text) :
      Option.Rel R.ViewRel (v.named? s key name) (w.named? t key name) :=
    Related.lookup ((h.named hs ht hv key).imp fun _ _ he => ⟨he.name, he.view⟩) name
  cases a with
  | document => exact .some hv
  | scope name i => exact Related.getElem? (h.answers hs ht hv (.scope name)) i
  | property scopeName name i =>
    exact Related.getElem? (h.answers hs ht hv (.property scopeName name)) i
  | container name => exact hnamed .container name
  | fragment name => exact hnamed .fragment name

/-- A task does the same through paired documents. -/
theorem perform (hv : R.ViewRel d c) (task : Task) :
    Alongside R s (task.perform d s) (task.perform c t) ∧ (task.perform d s).Sound ∧
      (task.perform c t).Sound := by
  have he : R.EditRel task.edit task.edit := Pairing.editRel_self task.textual
  obtain ⟨heu, heu'⟩ := h.inUse_edit he
  rw [Task.perform, Task.perform]
  rcases Related.none_or_some (h.locate hs ht hv task.address) with ⟨hn, hm⟩ | ⟨v, w, hn, hm, hvw⟩
  · rw [hn, hm]
    exact ⟨h.unchanged, hs, ht⟩
  · rw [hn, hm]
    obtain ⟨hvu, hwu⟩ := h.inUse hvw
    exact ⟨h.edit hs ht hvw he, View.sound_edit hs hvu heu, View.sound_edit ht hwu heu'⟩

/-- Paired documents show the same along all tasks. -/
theorem replay (hv : R.ViewRel d c) (tasks : List Task) : d.replay s tasks = c.replay t tasks := by
  induction tasks generalizing R s t with
  | nil => rw [View.replay, View.replay, h.display hs ht hv]
  | cons task rest ih =>
    obtain ⟨⟨R', h', hadv⟩, hs', ht'⟩ := h.perform hs ht hv task
    rw [View.replay, View.replay, h.display hs ht hv, ih h' hs' ht' (hv.mono hadv)]

end Store.Alike

theorem Store.Reaches.hasNode (h : s.Reaches l n) (hc : s.Closed) : s.HasNode n := by
  obtain ⟨m, hm, hr⟩ := h
  rcases hr.cases_tail with rfl | ⟨a, -, ha⟩
  · exact hc.member l _ hm
  · exact hc.member _ _ ha

namespace View

open Store

/-- The copy of a node is found where the node is. -/
theorem find_copy {source : List Occurrence} {copies : List NodeId} {ps : List (NodeId × NodeId)}
    (hfst : ps.map Prod.fst = source.map (·.id)) (hsnd : ps.map Prod.snd = copies)
    (hn : ∃ o ∈ source, o.id = n) :
    ∃ n', (n, n') ∈ ps ∧ ((source.zip copies).find? (·.1.id = n)).map (·.2) = some n' := by
  have hpairs : ps = (source.zip copies).map fun c => (c.1.id, c.2) := by
    rw [List.zip_of_prod hfst hsnd, List.zip_map_left]
    rfl
  cases hfind : (source.zip copies).find? (·.1.id = n) with
  | none =>
    obtain ⟨o, ho, rfl⟩ := hn
    have hmem : o.id ∈ ps.map Prod.fst := hfst ▸ List.mem_map_of_mem ho
    rw [hpairs, List.map_map] at hmem
    obtain ⟨c, hc, he⟩ := List.mem_map.mp hmem
    exact absurd (decide_eq_true he) (List.find?_eq_none.mp hfind c hc)
  | some c =>
    have hid : c.1.id = n := by simpa using List.find?_some hfind
    refine ⟨c.2, ?_, rfl⟩
    rw [hpairs, ← hid]
    exact List.mem_map_of_mem (List.mem_of_find?_eq_some hfind)

theorem focus_duplicate (d : View) (s : Store) : (d.duplicate s).1.focus = d.focus.bind fun n =>
    (((s.forest d.list).preorder.zip (s.plantList (s.labels d.list)).2.1.preorder).find?
      (·.1.id = n)).map (·.2) := rfl

/-- A document in which nothing is shared is alike to its duplicate. -/
theorem alike_duplicate (hs : s.Sound) (hl : s.HasList d.list) (hu : s.Unshared d.list)
    (hf : ∀ n, d.focus = some n → s.Reaches d.list n) :
    ∃ R : Pairing, Alike R s (d.duplicate s).2 ∧ R.ViewRel d (d.duplicate s).1 := by
  obtain ⟨ps, hfst, hsnd, halike⟩ := hu.alike_plantList hs hl
  refine ⟨_, halike, List.mem_cons_self, ?_⟩
  rw [focus_duplicate]
  cases hfocus : d.focus with
  | none => exact .none
  | some n =>
    have hn := (exists_occurrence_iff hs.closed hs.acyclic).mpr (hf n hfocus)
    obtain ⟨n', hpair, hcopy⟩ := find_copy hfst hsnd hn
    rw [Option.bind_some, hcopy]
    exact .some hpair

/-- The same tasks, carried out on a document in which nothing is shared and on its duplicate, show the
same after every step; and it makes no difference for the document that it was duplicated. -/
theorem replay_duplicate (hs : s.Sound) (hl : s.HasList d.list) (hu : s.Unshared d.list)
    (hf : ∀ n, d.focus = some n → s.Reaches d.list n) (tasks : List Task) :
    (d.duplicate s).1.replay (d.duplicate s).2 tasks = d.replay s tasks ∧
      d.replay (d.duplicate s).2 tasks = d.replay s tasks := by
  have ht : (d.duplicate s).2.Sound := hs.plantList _
  have hself := alike_inUse hs.closed (.refl s) (extends_plantList s (s.labels d.list))
  have hd : d.InUse s := ⟨hl, fun n hn => (hf n hn).hasNode hs.closed⟩
  obtain ⟨R, halike, hview⟩ := d.alike_duplicate hs hl hu hf
  exact ⟨(halike.replay hs ht hview tasks).symm, (hself.replay hs ht hd.viewRel tasks).symm⟩

/-- Edits of a scope, beside a property, of the title and of the document itself. -/
theorem replay_duplicate_list :
    let input : Text := "<ul data-scope=s><li data-prop=a>x</ul><title>t</title>".toList
    let s := (Operation.parse {} input).apply empty
    let d : View := ⟨⟨8⟩, some ⟨6⟩⟩
    let tasks : List Task :=
      [⟨.scope "s".toList 0, .append (.text "y".toList), by simp [Edit.content?]⟩,
        ⟨.property "s".toList "a".toList 0, .after (.text "z".toList), by simp [Edit.content?]⟩,
        ⟨.document, .setTitle "u".toList, by simp [Edit.content?]⟩,
        ⟨.document, .remove, by simp [Edit.content?]⟩]
    s.Unshared d.list ∧ s.Reaches d.list ⟨6⟩ ∧
      (d.duplicate s).1.replay (d.duplicate s).2 tasks = d.replay s tasks ∧
      ((d.duplicate s).1.replay (d.duplicate s).2 tasks).map (·.look.markup) =
        ["<ul data-scope=\"s\"><li data-prop=\"a\">x</li></ul><title>t</title>".toList,
          "<ul data-scope=\"s\"><li data-prop=\"a\">x</li>y</ul><title>t</title>".toList,
          "<ul data-scope=\"s\"><li data-prop=\"a\">x</li>zy</ul><title>t</title>".toList,
          "<ul data-scope=\"s\"><li data-prop=\"a\">x</li>zy</ul><title>u</title>".toList,
          "<title>u</title>".toList] := by
  intro input s d tasks
  have hs : s.Sound := sound_empty.run (run_apply empty (.parse {} _) trivial)
  have hl : s.HasList d.list := (by decide +kernel : 8 < s.lists.size)
  have hu : s.Unshared d.list := ⟨by decide +kernel, by decide +kernel⟩
  have hroot : (⟨6⟩ : NodeId) ∈ s.list d.list := by decide +kernel
  have hr : s.Reaches d.list ⟨6⟩ := ⟨⟨6⟩, hroot, .refl⟩
  have hf : ∀ n, d.focus = some n → s.Reaches d.list n := by
    intro n hn
    cases hn
    exact hr
  have hsame := (d.replay_duplicate hs hl hu hf tasks).1
  refine ⟨hu, hr, hsame, ?_⟩
  rw [hsame]
  decide +kernel

end View
end TemplateTree
