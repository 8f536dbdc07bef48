import TemplateTree.Proofs.View.History
import TemplateTree.View.Outline

/-! Outlines as the front of a walk. Whatever is cut off, what comes before it is as in the full outline,
and after each element the walk is back at the level of that element. -/
namespace TemplateTree

variable {s : Store} {o : Outline} {depth : Nat}

namespace Outline

/-- A node that the walk comes to, the number of elements around it, and the slot if it has one. -/
structure Visit where
  depth : Nat
  label : Label
  slot : Option Label
  deriving DecidableEq, Repr

def indentOf (depth : Nat) : Text := List.replicate (2 * depth) ' '

namespace Visit

/-- What is shown of the node. A blank text is not shown. -/
def shown? (v : Visit) : Option Text :=
  match v.slot with
  | none => Outline.shown? v.label.content
  | some slot => some (openingTag v.label slot)

def line? (v : Visit) : Option Text := v.shown?.map (indentOf v.depth ++ ·)

end Visit

/-- The walk without an end: below an element are the children of its slot. -/
def visits (depth : Nat) : Forest Label → List Visit
  | .nil => []
  | .cons l .nil rest => ⟨depth, l, none⟩ :: visits depth rest
  | .cons l (.cons slot inner _) rest =>
    ⟨depth, l, some slot⟩ :: (visits (depth + 1) inner ++ visits depth rest)

/-- The outline after as many of the visits as are left. -/
def visitAll (o : Outline) (vs : List Visit) : Outline :=
  { o with lines := o.lines ++ (vs.take o.left).filterMap Visit.line?, left := o.left - vs.length }

theorem visitAll_nil (o : Outline) : o.visitAll [] = o := by simp [visitAll]

theorem visitAll_append (o : Outline) (vs ws : List Visit) :
    o.visitAll (vs ++ ws) = (o.visitAll vs).visitAll ws := by
  simp [visitAll, List.take_append, Nat.sub_sub]

/-- When the outline is full, no visit adds anything. -/
theorem visitAll_of_full (h : o.left = 0) (vs : List Visit) : o.visitAll vs = o := by
  cases o
  cases h
  simp [visitAll]

theorem visitAll_singleton (hleft : o.left ≠ 0) (v : Visit) :
    o.visitAll [v] = ⟨o.lines ++ v.line?.toList, o.indent, o.left - 1⟩ := by
  have htake : [v].take o.left = [v] := List.take_of_length_le (Nat.one_le_iff_ne_zero.mpr hleft)
  have hline : [v].filterMap Visit.line? = v.line?.toList := by
    cases h : v.line? <;> simp [h]
  rw [visitAll, htake, hline]
  rfl

/-- A text is visited, shown or not. -/
theorem visit_text (hleft : o.left ≠ 0) (hin : o.indent = indentOf depth) (l : Label) :
    o.visit.addText l.content = o.visitAll [⟨depth, l, none⟩] := by
  rw [visitAll_singleton hleft, addText, Visit.line?, Visit.shown?]
  cases shown? l.content with
  | none => simp [visit]
  | some line => simp [visit, add, hin]

theorem visit_element (hleft : o.left ≠ 0) (hin : o.indent = indentOf depth) (l slot : Label) :
    o.visit.add (openingTag l slot) = o.visitAll [⟨depth, l, some slot⟩] := by
  rw [visitAll_singleton hleft, Visit.line?, Visit.shown?]
  simp [visit, add, hin]

theorem indent_enter (hin : o.indent = indentOf depth) : o.enter.indent = indentOf (depth + 1) := by
  change o.indent ++ margin = _
  rw [hin, indentOf, indentOf, Nat.mul_add, List.replicate_add]
  rfl

/-- Back from below an element, with whatever was visited there. -/
theorem leave_enter (o : Outline) (vs : List Visit) : (o.enter.visitAll vs).leave = o.visitAll vs := by
  simp [leave, visitAll, enter]

/-- The walk of a forest makes its visits in order until the outline is full. -/
theorem walk_eq (f : Forest Label) (o : Outline) (hin : o.indent = indentOf depth) :
    walk f o = o.visitAll (visits depth f) := by
  fun_induction walk f o generalizing depth with
  | case1 o => exact (visitAll_nil o).symm
  | case2 l rest o hfull => exact (visitAll_of_full hfull _).symm
  | case3 l rest o hleft ih =>
    rw [visits, ← List.singleton_append, visitAll_append, ← visit_text hleft hin]
    have hback : (o.visit.addText l.content).indent = indentOf depth := by
      rw [visit_text hleft hin]
      exact hin
    exact ih hback
  | case4 l slot inner beside rest o hfull => exact (visitAll_of_full hfull _).symm
  | case5 l slot inner beside rest o hleft ihinner ihrest =>
    have hopen : (o.visit.add (openingTag l slot)).indent = indentOf depth := hin
    have hinner := ihinner (indent_enter hopen)
    rw [hinner, leave_enter] at ihrest ⊢
    rw [visits, ← List.singleton_append, visitAll_append, visitAll_append, ← visit_element hleft hin]
    exact ihrest hopen

end Outline

namespace Store

/-- The visits to what a list holds and what is below. -/
def visits (s : Store) (depth : Nat) (l : ListId) : List Outline.Visit :=
  Outline.visits depth (s.labels l)

/-- The visits to a node: itself, and what is below the first of its children. -/
def visitsTo (s : Store) (depth : Nat) (n : NodeId) : List Outline.Visit :=
  match (s.list (s.node n).children).head? with
  | none => [⟨depth, (s.node n).label, none⟩]
  | some slot => ⟨depth, (s.node n).label, some (s.node slot).label⟩ ::
      s.visits (depth + 1) (s.node slot).children

theorem visits_eq (hc : s.Closed) (hs : s.Acyclic) (depth : Nat) (l : ListId) :
    s.visits depth l = (s.list l).flatMap (s.visitsTo depth) := by
  rw [visits, labels_eq hc hs]
  induction s.list l with
  | nil => rfl
  | cons n ns ih =>
    rw [Forest.ofList, List.flatMap_cons, ← ih, visitsTo, labels_eq hc hs (s.node n).children]
    cases s.list (s.node n).children with
    | nil => rfl
    | cons slot beside => rfl

end Store

namespace View

open Outline Store

/-- An outline shows the first visits of a walk that goes through a list node by node, and through the
children of its slot after each node that has one. The walk of any list at any level goes on where
the outline was, and leaves it at that level. A larger outline only adds lines. -/
theorem outline_visits (hs : s.Sound) (v : View) :
    (∀ depth l, s.visits depth l = (s.list l).flatMap (s.visitsTo depth)) ∧
    (∀ depth l o, o.indent = indentOf depth → walk (s.labels l) o =
      { o with lines := o.lines ++ ((s.visits depth l).take o.left).filterMap Visit.line?
               left := o.left - (s.visits depth l).length }) ∧
    ∀ cap, v.outline s cap = ((s.visits 0 v.list).take cap).filterMap Visit.line? ∧
      (v.outline s cap).length ≤ cap ∧
      ∀ more, cap ≤ more → v.outline s cap <+: v.outline s more := by
  have hlines (cap : Nat) :
      v.outline s cap = ((s.visits 0 v.list).take cap).filterMap Visit.line? := by
    have hwalk : walk (s.labels v.list) ⟨[], [], cap⟩ = Outline.visitAll ⟨[], [], cap⟩ (s.visits 0 v.list) :=
      walk_eq _ _ rfl
    rw [outline, hwalk]
    rfl
  refine ⟨visits_eq hs.closed hs.acyclic, fun depth l o hin => walk_eq _ o hin, fun cap => ?_⟩
  refine ⟨hlines cap, ?_, fun more hmore => ?_⟩
  · calc (v.outline s cap).length
        ≤ ((s.visits 0 v.list).take cap).length := hlines cap ▸ List.length_filterMap_le _ _
      _ ≤ cap := List.length_take_le _ _
  · rw [hlines, hlines]
    exact (List.take_prefix_take_left hmore).filterMap _

/-- A blank text is visited without a line, and an outline that ends two levels down is the front of the
one that comes back from there. -/
theorem outline_visits_nested :
    let s := (Operation.parse {} "<ul data-scope=a>\n<li data-prop=b>x</li></ul>y".toList).apply empty
    let v : View := ⟨⟨9⟩, none⟩
    let front := ["<ul data-scope=\"a\">", "  <li data-prop=\"b\">", "    \"x\""].map String.toList
    s.Sound ∧ v.outline s 4 = front ∧ v.outline s 5 = front ++ ["\"y\"".toList] ∧
      front <+: v.outline s 9 := by
  let s := (Operation.parse {} "<ul data-scope=a>\n<li data-prop=b>x</li></ul>y".toList).apply empty
  let v : View := ⟨⟨9⟩, none⟩
  let front := ["<ul data-scope=\"a\">", "  <li data-prop=\"b\">", "    \"x\""].map String.toList
  have hs : s.Sound := sound_empty.run (run_apply empty (.parse {} _) trivial)
  obtain ⟨-, -, hcap⟩ := outline_visits hs v
  have hfour : v.outline s 4 = front := (hcap 4).1.trans (by decide +kernel)
  have hfive : v.outline s 5 = front ++ ["\"y\"".toList] := (hcap 5).1.trans (by decide +kernel)
  have hmore : front <+: v.outline s 9 := hfour ▸ (hcap 4).2.2 9 (by omega)
  exact ⟨hs, hfour, hfive, hmore⟩

end View
end TemplateTree
