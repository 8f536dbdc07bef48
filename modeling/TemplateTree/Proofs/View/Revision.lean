import TemplateTree.Proofs.Store.Writes
import TemplateTree.Proofs.View.Locality

/-! What an edit makes of the list that it revises. A node that stands in the list several times is
found at the first of its places, and it is removed from all of them; the nodes that go in may stand
in the list already. -/
namespace TemplateTree

/-- Changes a list from the first place of a node on; `change` is given what comes behind the node. A
list without the node stays as it is. -/
def fromFirst (n : NodeId) (change : List NodeId → List NodeId) : List NodeId → List NodeId
  | [] => []
  | m :: ns => if m = n then change ns else m :: fromFirst n change ns

section FromFirst

variable {n : NodeId} {ns front back : List NodeId} {change : List NodeId → List NodeId}

theorem fromFirst_split (h : n ∉ front) :
    fromFirst n change (front ++ n :: back) = front ++ change back := by
  induction front with
  | nil => exact if_pos rfl
  | cons m front ih =>
    have hne : m ≠ n := fun he => h (he ▸ List.mem_cons_self)
    have hrest := ih fun hn => h (List.mem_cons_of_mem m hn)
    rw [List.cons_append, fromFirst, if_neg hne, hrest, List.cons_append]

theorem fromFirst_of_not_mem (h : n ∉ ns) : fromFirst n change ns = ns := by
  induction ns with
  | nil => rfl
  | cons m ns ih =>
    have hne : m ≠ n := fun he => h (he ▸ List.mem_cons_self)
    rw [fromFirst, if_neg hne, ih fun hn => h (List.mem_cons_of_mem m hn)]

end FromFirst

variable {s t : Store} {v : View} {e : Edit} {c : Content} {n f : NodeId} {l k : ListId}
  {m : Text} {ns : List NodeId}

namespace Edit

/-- The edit is about the nodes of a list, and not about attributes or the title. -/
def IsStructural : Edit → Prop
  | setAttribute .. | removeAttribute .. | setTitle .. => False
  | _ => True

/-- The content that an edit brings, also in place of what was there. -/
def brings : Edit → Content
  | append c | prepend c | after c | before c | replace c => c
  | setInner m => .text m
  | _ => .nodes []

/-- What a list becomes, given the node that the edit is about and the nodes that it brings. -/
def revise (focus? : Option NodeId) (new old : List NodeId) : Edit → List NodeId
  | append _ => old ++ new
  | prepend _ => new ++ old
  | setInner _ => new
  | clear => []
  | remove => match focus? with
    | none => old
    | some f => old.filter (· ≠ f)
  | after _ => match focus? with
    | none => old ++ new
    | some f => fromFirst f (fun back => f :: (new ++ back)) old
  | before _ => match focus? with
    | none => old ++ new
    | some f => fromFirst f (fun back => new ++ f :: back) old
  | replace _ => match focus? with
    | none => new ++ old
    | some f =>
      if f ∈ old then fromFirst f (fun back => new ++ back.filter (· ≠ f)) old else new ++ old
  | setAttribute .. | removeAttribute .. | setTitle .. => old

end Edit

/-- What a list becomes when nodes go in beside the first place of a node, or at the end when the edit is
about no node. -/
def putBeside (focus? : Option NodeId) (offset : Nat) (new old : List NodeId) : List NodeId :=
  match focus? with
  | none => old ++ new
  | some f => fromFirst f (fun back => (f :: back).take offset ++ new ++ (f :: back).drop offset) old

/-- The list that an edit revises. -/
def View.revised? (v : View) (s : Store) : Edit → Option ListId
  | .append _ | .prepend _ | .setInner _ | .clear => v.inner? s
  | .remove | .after _ | .before _ | .replace _ => some v.list
  | .setAttribute .. | .removeAttribute .. | .setTitle .. => none

namespace Store

theorem insert_eq_setList (hl : s.HasList l) (i : Nat) (c : Content) :
    s.insert l i c =
      (s.supply c).2.setList l ((s.list l).take i ++ (s.supply c).1 ++ (s.list l).drop i) := by
  have hold : (s.supply c).2.list l = s.list l := (extends_supply s c).list l hl
  simp only [insert, hold]

/-- Nodes may be taken out of the list before content is put into it. -/
theorem insert_setList (hl : s.HasList l) (kept : List NodeId) (i : Nat) (c : Content) :
    (s.setList l kept).insert l i c =
      (s.supply c).2.setList l (kept.take i ++ (s.supply c).1 ++ kept.drop i) := by
  have hsupply : (s.setList l kept).supply c = ((s.supply c).1, (s.supply c).2.setList l kept) :=
    @Write.supply_apply s (.list l fun _ => kept) hl c
  have hin : (s.supply c).2.HasList l := hl.mono (extends_supply s c)
  rw [insert, hsupply]
  simp only [list_setList_self hin, Write.setList_setList]

theorem position?_split {front back : List NodeId} (hsplit : s.list l = front ++ n :: back)
    (hfront : n ∉ front) : s.position? l n = some front.length := by
  have hmem : n ∈ s.list l := hsplit ▸ List.mem_append_right front List.mem_cons_self
  rw [position?, if_pos hmem, hsplit, List.idxOf_append_of_notMem hfront, List.idxOf_cons_self,
    Nat.add_zero]

theorem Bare.setList (h : s.Bare m n k) (hne : k ≠ l) (ns : List NodeId) :
    (s.setList l ns).Bare m n k where
  hasNode := h.hasNode
  hasList := hasList_setList.mpr h.hasList
  node := (node_setList s l ns n).trans h.node
  list := (list_setList_of_ne hne).trans h.list

end Store

namespace View

open Store

/-- The content does not hold the list that it goes into. -/
def Fits (v : View) (s : Store) (e : Edit) : Prop :=
  ∀ l, v.revised? s e = some l → ∀ n ∈ e.brings.shared, ¬ s.Owns n l

theorem not_wouldContainItself (hs : s.Sound) (h : ∀ n ∈ c.shared, ¬ s.Owns n l) :
    c.wouldContainItself s l = false := by
  refine Bool.eq_false_iff.mpr fun hw => ?_
  obtain ⟨n, hn, howns⟩ := (wouldContainItself_iff hs).mp hw
  exact h n hn howns

theorem insertBeside_none (hl : s.HasList v.list) (hw : c.wouldContainItself s v.list = false)
    (hf : v.node? s = none) (offset : Nat) : (v.insertBeside s offset c).1 =
      (s.supply c).2.setList v.list (s.list v.list ++ (s.supply c).1) := by
  simp [insertBeside, hw, hf, insert_eq_setList hl]

theorem insertBeside_split {front back : List NodeId} (hl : s.HasList v.list)
    (hw : c.wouldContainItself s v.list = false) (hf : v.node? s = some f)
    (hsplit : s.list v.list = front ++ f :: back) (hfront : f ∉ front) (offset : Nat) :
    (v.insertBeside s offset c).1 = (s.supply c).2.setList v.list
      (front ++ ((f :: back).take offset ++ (s.supply c).1 ++ (f :: back).drop offset)) := by
  have hput : (v.insertBeside s offset c).1 = s.insert v.list (front.length + offset) c := by
    simp [insertBeside, hw, hf, position?_split hsplit hfront]
  rw [hput, insert_eq_setList hl, hsplit, List.take_length_add_append, List.drop_length_add_append]
  simp

theorem insertBeside_of_not_mem (hw : c.wouldContainItself s v.list = false)
    (hf : v.node? s = some f) (hmem : f ∉ s.list v.list) (offset : Nat) :
    (v.insertBeside s offset c).1 = s := by
  simp [insertBeside, hw, hf, position?, hmem]

theorem replace_split {front back : List NodeId} (hl : s.HasList v.list)
    (hw : c.wouldContainItself s v.list = false) (hf : v.node? s = some f)
    (hsplit : s.list v.list = front ++ f :: back) (hfront : f ∉ front) :
    (v.replace s c).1 = (s.supply c).2.setList v.list
      (front ++ ((s.supply c).1 ++ back.filter (· ≠ f))) := by
  have hput : (v.replace s c).1 = (s.removeFrom v.list f).insert v.list front.length c := by
    simp [replace, hw, hf, position?_split hsplit hfront]
  have hkept : (s.list v.list).filter (· ≠ f) = front ++ back.filter (· ≠ f) := by
    have hwhole : front.filter (· ≠ f) = front :=
      List.filter_eq_self.mpr fun n hn => decide_eq_true fun he => hfront (he ▸ hn)
    rw [hsplit, List.filter_append, hwhole, List.filter_cons_of_neg (by simp)]
  rw [hput, removeFrom, hkept, insert_setList hl, List.take_left, List.drop_left, List.append_assoc]

theorem replace_of_not_mem (hl : s.HasList v.list) (hw : c.wouldContainItself s v.list = false)
    (hmem : ∀ f, v.node? s = some f → f ∉ s.list v.list) :
    (v.replace s c).1 = (s.supply c).2.setList v.list ((s.supply c).1 ++ s.list v.list) := by
  have hput : (v.replace s c).1 = s.insert v.list 0 c := by
    cases hf : v.node? s with
    | none => simp [replace, hw, hf]
    | some f => simp [replace, hw, hf, position?, hmem f hf]
  simp [hput, insert_eq_setList hl]

/-- The edit supplies what it brings and writes the list, or there is nothing to be done. -/
def Writes (v : View) (s : Store) (e : Edit) (l : ListId) : Prop :=
  (v.edit s e).1 = s ∧ e.revise (v.node? s) (s.supply e.brings).1 (s.list l) = s.list l ∨
    (v.edit s e).1 = (s.supply e.brings).2.setList l
      (e.revise (v.node? s) (s.supply e.brings).1 (s.list l))

theorem clear_writes (hi : v.inner? s = some l) : v.Writes s .clear l := by
  right
  simp only [edit, clear, hi]
  rfl

theorem setInner_writes (hi : v.inner? s = some l) (m : Text) : v.Writes s (.setInner m) l := by
  right
  simp only [edit, setInner, hi]
  rfl

theorem append_writes (hs : s.Sound) (hi : v.inner? s = some l)
    (hw : c.wouldContainItself s l = false) : v.Writes s (.append c) l := by
  have hl : s.HasList l := hasList_inner hs hi
  right
  simp [edit, append, hi, insertInto, hw, insert_eq_setList hl, Edit.revise, Edit.brings]

theorem prepend_writes (hs : s.Sound) (hi : v.inner? s = some l)
    (hw : c.wouldContainItself s l = false) : v.Writes s (.prepend c) l := by
  have hl : s.HasList l := hasList_inner hs hi
  right
  simp [edit, prepend, hi, insertInto, hw, insert_eq_setList hl, Edit.revise, Edit.brings]

theorem remove_writes (v : View) (s : Store) : v.Writes s .remove v.list := by
  rw [Writes]
  cases hf : v.node? s with
  | none => exact Or.inl ⟨by simp [edit, remove, hf], rfl⟩
  | some f =>
    by_cases hmem : f ∈ s.list v.list
    · right
      simp only [edit, remove, hf, if_pos hmem]
      rfl
    · have hkeep : (s.list v.list).filter (· ≠ f) = s.list v.list :=
        List.filter_eq_self.mpr fun n hn => decide_eq_true fun he => hmem (he ▸ hn)
      exact Or.inl ⟨by simp [edit, remove, hf, hmem], hkeep⟩

/-- Both edits beside a node are this, with the place in front of the node or behind it. -/
theorem insertBeside_writes (hl : s.HasList v.list) (hw : c.wouldContainItself s v.list = false)
    (offset : Nat) :
    (v.insertBeside s offset c).1 = s ∧
        putBeside (v.node? s) offset (s.supply c).1 (s.list v.list) = s.list v.list ∨
      (v.insertBeside s offset c).1 = (s.supply c).2.setList v.list
        (putBeside (v.node? s) offset (s.supply c).1 (s.list v.list)) := by
  cases hf : v.node? s with
  | none => exact Or.inr (insertBeside_none hl hw hf offset)
  | some f =>
    rw [putBeside]
    by_cases hmem : f ∈ s.list v.list
    · obtain ⟨front, back, hsplit, hfront⟩ := List.eq_append_cons_of_mem hmem
      right
      rw [insertBeside_split hl hw hf hsplit hfront, hsplit, fromFirst_split hfront]
    · exact Or.inl ⟨insertBeside_of_not_mem hw hf hmem offset, fromFirst_of_not_mem hmem⟩

theorem after_writes (hl : s.HasList v.list) (hw : c.wouldContainItself s v.list = false) :
    v.Writes s (.after c) v.list := insertBeside_writes hl hw 1

theorem before_writes (hl : s.HasList v.list) (hw : c.wouldContainItself s v.list = false) :
    v.Writes s (.before c) v.list := insertBeside_writes hl hw 0

/-- Unlike the edits beside a node, this one puts its content in also when the node has left the list. -/
theorem replace_writes (hl : s.HasList v.list) (hw : c.wouldContainItself s v.list = false) :
    v.Writes s (.replace c) v.list := by
  right
  cases hf : v.node? s with
  | none => exact replace_of_not_mem hl hw (by simp [hf])
  | some f =>
    by_cases hmem : f ∈ s.list v.list
    · obtain ⟨front, back, hsplit, hfront⟩ := List.eq_append_cons_of_mem hmem
      have hrevise : (Edit.replace c).revise (some f) (s.supply c).1 (s.list v.list) =
          front ++ ((s.supply c).1 ++ back.filter (· ≠ f)) := by
        simp only [Edit.revise, if_pos hmem]
        rw [hsplit, fromFirst_split hfront]
      rw [Edit.brings, hrevise]
      exact replace_split hl hw hf hsplit hfront
    · have hrevise : (Edit.replace c).revise (some f) (s.supply c).1 (s.list v.list) =
          (s.supply c).1 ++ s.list v.list := by simp only [Edit.revise, if_neg hmem]
      rw [Edit.brings, hrevise]
      exact replace_of_not_mem hl hw fun g hg => Option.some.inj (hf.symm.trans hg) ▸ hmem

theorem edit_writes (hs : s.Sound) (hl : s.HasList v.list) (hfits : v.Fits s e)
    (h : v.revised? s e = some l) : v.Writes s e l := by
  have hw : e.brings.wouldContainItself s l = false := not_wouldContainItself hs (hfits l h)
  cases e with
  | setAttribute | removeAttribute | setTitle => cases h
  | clear => exact clear_writes h
  | setInner m => exact setInner_writes h m
  | append c => exact append_writes hs h hw
  | prepend c => exact prepend_writes hs h hw
  | remove => exact Option.some.inj h ▸ remove_writes v s
  | after c =>
    obtain rfl : v.list = l := Option.some.inj h
    exact after_writes hl hw
  | before c =>
    obtain rfl : v.list = l := Option.some.inj h
    exact before_writes hl hw
  | replace c =>
    obtain rfl : v.list = l := Option.some.inj h
    exact replace_writes hl hw

/-- An edit whose content does not hold the list revises that one list. A text goes in as one new
leaf. Without a list to revise nothing happens. -/
theorem edit_revises (hs : s.Sound) (hl : s.HasList v.list) (he : e.IsStructural)
    (hfits : v.Fits s e) :
    (v.revised? s e = none → (v.edit s e).1 = s) ∧
      ∀ l, v.revised? s e = some l →
        (v.edit s e).1.list l = e.revise (v.node? s) (s.supply e.brings).1 (s.list l) ∧
        s.SameBut (v.edit s e).1 l ∧
        ∀ m, e.brings = .text m → ∃ n, (s.supply e.brings).1 = [n] ∧ ¬ s.HasNode n ∧
          (n ∈ (v.edit s e).1.list l → ∃ k, ¬ s.HasList k ∧ (v.edit s e).1.Bare m n k) := by
  constructor
  · intro h
    cases e with
    | setAttribute | removeAttribute | setTitle => exact he.elim
    | append | prepend | setInner | clear =>
      have hinner : v.inner? s = none := h
      simp [edit, append, prepend, setInner, clear, hinner]
    | remove | after | before | replace => cases h
  · intro l h
    have hx : s.Extends (s.supply e.brings).2 := extends_supply s e.brings
    have hin : s.HasList l := by
      cases e with
      | setAttribute | removeAttribute | setTitle => cases h
      | append | prepend | setInner | clear => exact hasList_inner hs h
      | remove | after | before | replace => exact Option.some.inj h ▸ hl
    rcases edit_writes hs hl hfits h with ⟨hsame, hrevise⟩ | hwrite
    · rw [hsame, hrevise]
      refine ⟨rfl, .refl s l, fun m hm => ⟨⟨s.nodes.size⟩, by rw [hm]; rfl, Nat.lt_irrefl _, ?_⟩⟩
      intro hnew
      exact absurd (hs.closed.member l _ hnew) (Nat.lt_irrefl _)
    · rw [hwrite]
      refine ⟨list_setList_self (hin.mono hx), (hx.sameBut l).trans (.setList _ l _) hx, ?_⟩
      intro m hm
      have hne : (⟨s.lists.size⟩ : ListId) ≠ l := (hin.ne (Nat.le_refl _)).symm
      refine ⟨⟨s.nodes.size⟩, by rw [hm]; rfl, Nat.lt_irrefl _, fun _ => ?_⟩
      refine ⟨⟨s.lists.size⟩, Nat.lt_irrefl _, ?_⟩
      rw [hm]
      exact (bare_addLeaf s m).setList hne _

/-- A node that stands in its list twice gives way to two nodes of the same list, itself among them. -/
theorem edit_revises_replace_twice :
    let parsed := (Operation.parse {} "x<p data-scope=a></p>y".toList).apply empty
    let v : View := ⟨⟨5⟩, some ⟨3⟩⟩
    let s := (v.edit parsed (.after (.nodes [⟨3⟩]))).1
    let e : Edit := .replace (.nodes [⟨4⟩, ⟨3⟩])
    s.Sound ∧ s.HasList v.list ∧ e.IsStructural ∧ v.Fits s e ∧
      s.list v.list = [⟨0⟩, ⟨3⟩, ⟨3⟩, ⟨4⟩] ∧
      (v.edit s e).1.list v.list = [⟨0⟩, ⟨4⟩, ⟨3⟩, ⟨4⟩] := by
  let parsed := (Operation.parse {} "x<p data-scope=a></p>y".toList).apply empty
  let v : View := ⟨⟨5⟩, some ⟨3⟩⟩
  let s := (v.edit parsed (.after (.nodes [⟨3⟩]))).1
  let e : Edit := .replace (.nodes [⟨4⟩, ⟨3⟩])
  have hs : s.Sound := by
    refine sound_edit (sound_empty.run (run_apply empty (.parse {} _) trivial)) ?_ ?_
    · refine ⟨(by decide +kernel : 5 < parsed.lists.size), fun n hn => ?_⟩
      rw [← Option.some.inj hn]
      exact (by decide +kernel : 3 < parsed.nodes.size)
    · intro c hc n hn
      cases hc
      rw [List.mem_singleton.mp hn]
      exact (by decide +kernel : 3 < parsed.nodes.size)
  have hl : s.HasList v.list := (by decide +kernel : 5 < s.lists.size)
  have he : e.IsStructural := trivial
  have hfits : v.Fits s e := by
    intro l hl n hn howns
    cases hl
    have hw := (wouldContainItself_iff (c := e.brings) hs).mpr ⟨n, hn, howns⟩
    exact absurd hw (by decide +kernel)
  have hold : s.list v.list = [⟨0⟩, ⟨3⟩, ⟨3⟩, ⟨4⟩] := by decide +kernel
  have hf : v.node? s = some ⟨3⟩ := rfl
  obtain ⟨hlist, -, -⟩ := (edit_revises hs hl he hfits).2 v.list rfl
  rw [hold, hf] at hlist
  exact ⟨hs, hl, he, hfits, hold, hlist⟩

end View
end TemplateTree
