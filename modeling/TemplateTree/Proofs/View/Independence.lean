import TemplateTree.Proofs.Store.Writes
import TemplateTree.Proofs.View.Locality

/-! Edits that do not meddle with each other. An edit with a text puts new nodes into the store and
writes to one name. Edits at different nodes, neither below the other, find what they need whichever
comes first, and their writes can change places. -/
namespace TemplateTree

open List (Forall₂)
open Relation (ReflTransGen)

/-- Puts nodes in place of a node wherever it stands. -/
def exchange (n : NodeId) (row ns : List NodeId) : List NodeId :=
  ns.flatMap fun m => if m = n then row else [m]

section Exchange

variable {n m : NodeId} {row row' ns front back : List NodeId}

theorem exchange_self (n : NodeId) (row : List NodeId) : exchange n row [n] = row := by
  rw [exchange, List.flatMap_singleton, if_pos rfl]

theorem exchange_append (n : NodeId) (row ns ms : List NodeId) :
    exchange n row (ns ++ ms) = exchange n row ns ++ exchange n row ms := List.flatMap_append ..

theorem exchange_of_not_mem (h : n ∉ ns) : exchange n row ns = ns := by
  induction ns with
  | nil => rfl
  | cons m ns ih =>
    have hne : m ≠ n := fun he => h (he ▸ List.mem_cons_self)
    have hrest := ih fun hn => h (List.mem_cons_of_mem m hn)
    rw [exchange, List.flatMap_cons, if_neg hne, ← exchange, hrest]
    rfl

theorem exchange_at (hfront : n ∉ front) (hback : n ∉ back) :
    exchange n row (front ++ n :: back) = front ++ row ++ back := by
  have hsplit : front ++ n :: back = front ++ [n] ++ back := by simp
  rw [hsplit, exchange_append, exchange_append, exchange_of_not_mem hfront, exchange_self,
    exchange_of_not_mem hback]

theorem exchange_nil (n : NodeId) (ns : List NodeId) : exchange n [] ns = ns.filter (· ≠ n) := by
  induction ns with
  | nil => rfl
  | cons m ns ih =>
    rw [exchange, List.flatMap_cons, ← exchange, ih, List.filter_cons]
    by_cases hm : m = n <;> simp [hm]

theorem exists_split (h : ns.count n = 1) :
    ∃ front back, ns = front ++ n :: back ∧ n ∉ front ∧ n ∉ back := by
  have hpos : 0 < ns.count n := by omega
  obtain ⟨front, back, rfl⟩ := List.append_of_mem (List.count_pos_iff.mp hpos)
  rw [List.count_append, List.count_cons_self] at h
  exact ⟨front, back, rfl, List.count_eq_zero.mp (by omega), List.count_eq_zero.mp (by omega)⟩

/-- Exchanges of two nodes go together when neither puts in the other node. -/
theorem exchange_comm (hne : n ≠ m) (hn : n ∉ row') (hm : m ∉ row) (ns : List NodeId) :
    exchange m row' (exchange n row ns) = exchange n row (exchange m row' ns) := by
  rw [exchange, exchange, exchange, exchange, List.flatMap_assoc, List.flatMap_assoc]
  refine List.flatMap_congr fun k _ => ?_
  by_cases hkn : k = n
  · rw [if_pos hkn, if_neg (hkn ▸ hne), List.flatMap_singleton, if_pos hkn]
    exact exchange_of_not_mem hm
  · by_cases hkm : k = m
    · rw [if_neg hkn, if_pos hkm, List.flatMap_singleton, if_pos hkm]
      exact (exchange_of_not_mem hn).symm
    · rw [if_neg hkn, if_neg hkm, List.flatMap_singleton, List.flatMap_singleton, if_neg hkn,
        if_neg hkm]

theorem count_exchange (hne : n ≠ m) (hm : m ∉ row) (ns : List NodeId) :
    (exchange n row ns).count m = ns.count m := by
  induction ns with
  | nil => rfl
  | cons k ns ih =>
    rw [exchange, List.flatMap_cons, ← exchange, List.count_append, ih]
    by_cases hkn : k = n
    · rw [if_pos hkn, List.count_eq_zero.mpr hm, List.count_cons_of_ne (hkn ▸ hne), Nat.zero_add]
    · rw [if_neg hkn, List.count_cons, List.count_cons, List.count_nil, Nat.zero_add, Nat.add_comm]

end Exchange

variable {s t : Store} {v w : View} {n m : NodeId} {l : ListId} {c : Content} {e e' : Edit}

namespace Edit

/-- The edit changes attributes, or it removes or puts in at most a text. -/
def IsPlain (e : Edit) : Prop :=
  (∀ title, e ≠ .setTitle title) ∧ ∀ c, e.content? = some c → ∃ content, c = .text content

/-- What an edit puts into the store, when that list is inside the node. -/
def supplied (inner? : Option ListId) : Edit → Content
  | .after c | .before c | .replace c => c
  | .append c | .prepend c => if inner?.isSome then c else .nodes []
  | .setInner content => if inner?.isSome then .text content else .nodes []
  | _ => .nodes []

/-- A write to what is inside a node, if there is an inside. -/
def writeInside (inner? : Option ListId) (change : List NodeId → List NodeId) : Write :=
  match inner? with
  | none => .keep
  | some l => .list l change

/-- What an edit writes at a node that stands in a list, with new nodes to be put in. -/
def write (owner : ListId) (n : NodeId) (inner? : Option ListId) (new : List NodeId) : Edit → Write
  | .setAttribute key value =>
    .label n fun label => { label with attributes := label.attributes.set key (some value) }
  | .removeAttribute key =>
    .label n fun label => { label with attributes := label.attributes.erase key }
  | .remove => .list owner (exchange n [])
  | .after _ => .list owner (exchange n (n :: new))
  | .before _ => .list owner (exchange n (new ++ [n]))
  | .replace _ => .list owner (exchange n new)
  | .clear => writeInside inner? fun _ => []
  | .setInner _ => writeInside inner? fun _ => new
  | .append _ => writeInside inner? (· ++ new)
  | .prepend _ => writeInside inner? (new ++ ·)
  | .setTitle _ => .keep

variable {owner : ListId} {inner? : Option ListId} {new : List NodeId}

theorem shared_supplied (he : e.IsPlain) (inner? : Option ListId) :
    (e.supplied inner?).shared = [] := by
  have htext : ∀ c, e.content? = some c → c.shared = [] := fun c hc => by
    obtain ⟨content, rfl⟩ := he.2 c hc
    rfl
  cases e with
  | after c | before c | replace c => exact htext c rfl
  | append c | prepend c =>
    rw [supplied]
    split
    · exact htext c rfl
    · rfl
  | setInner content =>
    rw [supplied]
    split <;> rfl
  | _ => rfl

/-- An edit writes to the label of its node, or exchanges the node, or writes inside it. -/
theorem write_cases (owner : ListId) (n : NodeId) (inner? : Option ListId) (new : List NodeId)
    (e : Edit) : e.write owner n inner? new = .keep ∨
      (∃ change, e.write owner n inner? new = .label n change) ∨
      (∃ row ⊆ n :: new, e.write owner n inner? new = .list owner (exchange n row)) ∨
      ∃ l change, inner? = some l ∧ e.write owner n inner? new = .list l change := by
  have inside : ∀ change, writeInside inner? change = .keep ∨
      (∃ f, writeInside inner? change = .label n f) ∨
      (∃ row ⊆ n :: new, writeInside inner? change = .list owner (exchange n row)) ∨
      ∃ l f, inner? = some l ∧ writeInside inner? change = .list l f := by
    intro change
    cases inner? with
    | none => exact Or.inl rfl
    | some l => exact Or.inr (Or.inr (Or.inr ⟨l, change, rfl, rfl⟩))
  cases e with
  | setAttribute key value => exact Or.inr (Or.inl ⟨_, rfl⟩)
  | removeAttribute key => exact Or.inr (Or.inl ⟨_, rfl⟩)
  | remove => exact Or.inr (Or.inr (Or.inl ⟨[], List.nil_subset _, rfl⟩))
  | after c => exact Or.inr (Or.inr (Or.inl ⟨n :: new, List.Subset.refl _, rfl⟩))
  | before c => exact Or.inr (Or.inr (Or.inl ⟨new ++ [n], by simp, rfl⟩))
  | replace c => exact Or.inr (Or.inr (Or.inl ⟨new, List.subset_cons_self _ _, rfl⟩))
  | clear | setInner content | append c | prepend c => exact inside _
  | setTitle title => exact Or.inl rfl

end Edit

theorem Attributes.erase_of_not_contains {a : Attributes} {key : AttrKey}
    (h : a.contains key = false) : a.erase key = a := by
  obtain ⟨entries, distinct⟩ := a
  have hkeep : entries.filter (·.1 ≠ key) = entries := by
    refine List.filter_eq_self.mpr fun entry hentry => decide_eq_true fun hkey => ?_
    have hin : key ∈ entries.map Prod.fst := hkey ▸ List.mem_map_of_mem hentry
    exact Bool.false_ne_true (h.symm.trans (List.contains_iff_mem.mpr hin))
  rw [Attributes.erase]
  congr

theorem Store.setLabel_label_self (s : Store) (n : NodeId) : s.setLabel n (s.node n).label = s := by
  have hnode : (⟨(s.node n).label, (s.node n).children⟩ : Node) = s.node n := rfl
  rw [setLabel, hnode, node, setIfInBounds_getD]

/-- No list belongs to two nodes. -/
def Store.Separate (s : Store) : Prop :=
  ∀ a b, s.HasNode a → s.HasNode b → (s.node a).children = (s.node b).children → a = b

namespace View

/-- The view is about that node, which stands once in its list. -/
structure Holds (v : View) (s : Store) (n : NodeId) : Prop where
  focus : v.focus = some n
  once : (s.list v.list).count n = 1

theorem append_eq (hs : s.Sound) (hi : v.inner? s = some l) (content : Text) :
    (v.edit s (.append (.text content))).1 = (s.addLeaf content).2.setList l
      ((s.addLeaf content).2.list l ++ [(s.addLeaf content).1]) := by
  have hl : s.HasList l := hasList_inner hs hi
  have hput : (v.edit s (.append (.text content))).1 =
      s.insert l (s.list l).length (.text content) := by
    simp [edit, append, hi, Store.insertInto, Content.wouldContainItself]
  rw [hput, Store.append_eq_splice hl, Store.splice, Store.list_addLeaf hl]

theorem prepend_eq (hs : s.Sound) (hi : v.inner? s = some l) (content : Text) :
    (v.edit s (.prepend (.text content))).1 = (s.addLeaf content).2.setList l
      ([(s.addLeaf content).1] ++ (s.addLeaf content).2.list l) := by
  have hl : s.HasList l := hasList_inner hs hi
  have hput : (v.edit s (.prepend (.text content))).1 = s.insert l 0 (.text content) := by
    simp [edit, prepend, hi, Store.insertInto, Content.wouldContainItself]
  rw [hput, Store.prepend_eq_splice hl, Store.splice, Store.list_addLeaf hl]
  rfl

namespace Holds

variable {front back : List NodeId} (h : v.Holds s n)

include h

theorem node? : v.node? s = some n := by rw [View.node?, h.focus, Option.some_or]

theorem mem : n ∈ s.list v.list := by
  have honce := h.once
  exact List.count_pos_iff.mp (by omega)

theorem hasList : s.HasList v.list := Store.hasList_of_mem h.mem

theorem hasNode (hs : s.Sound) : s.HasNode n := hs.closed.member _ n h.mem

theorem position? (hsplit : s.list v.list = front ++ n :: back) (hfront : n ∉ front) :
    s.position? v.list n = some front.length := by
  rw [Store.position?, if_pos h.mem, hsplit, List.idxOf_append_of_notMem hfront, List.idxOf_cons_self,
    Nat.add_zero]

/-- Exchanging the node where it stands, after a text was added to the store. -/
theorem setList_exchange (hsplit : s.list v.list = front ++ n :: back) (hfront : n ∉ front)
    (hback : n ∉ back) (content : Text) (row : List NodeId) :
    (s.addLeaf content).2.setList v.list (exchange n row ((s.addLeaf content).2.list v.list)) =
      (s.addLeaf content).2.setList v.list (front ++ row ++ back) := by
  rw [Store.list_addLeaf h.hasList, hsplit, exchange_at hfront hback]

theorem after_eq (content : Text) : (v.edit s (.after (.text content))).1 =
    (s.addLeaf content).2.setList v.list
      (exchange n [n, (s.addLeaf content).1] ((s.addLeaf content).2.list v.list)) := by
  obtain ⟨front, back, hsplit, hfront, hback⟩ := exists_split h.once
  have hput : (v.edit s (.after (.text content))).1 =
      s.insert v.list (front ++ [n]).length (.text content) := by
    simp [edit, after, insertBeside, Content.wouldContainItself, h.node?, h.position? hsplit hfront]
  have hrow : s.list v.list = front ++ [n] ++ back := by simp [hsplit]
  rw [hput, Store.insert_eq_splice h.hasList hrow, h.setList_exchange hsplit hfront hback]
  simp [Store.splice]

theorem before_eq (content : Text) : (v.edit s (.before (.text content))).1 =
    (s.addLeaf content).2.setList v.list
      (exchange n [(s.addLeaf content).1, n] ((s.addLeaf content).2.list v.list)) := by
  obtain ⟨front, back, hsplit, hfront, hback⟩ := exists_split h.once
  have hput : (v.edit s (.before (.text content))).1 =
      s.insert v.list front.length (.text content) := by
    simp [edit, before, insertBeside, Content.wouldContainItself, h.node?, h.position? hsplit hfront]
  rw [hput, Store.insert_eq_splice h.hasList hsplit, h.setList_exchange hsplit hfront hback]
  simp [Store.splice]

theorem replace_eq (content : Text) : (v.edit s (.replace (.text content))).1 =
    (s.addLeaf content).2.setList v.list
      (exchange n [(s.addLeaf content).1] ((s.addLeaf content).2.list v.list)) := by
  obtain ⟨front, back, hsplit, hfront, hback⟩ := exists_split h.once
  have hput : (v.edit s (.replace (.text content))).1 =
      (s.removeFrom v.list n).insert v.list front.length (.text content) := by
    simp [edit, replace, Content.wouldContainItself, h.node?, h.position? hsplit hfront]
  have hrest : s.removeFrom v.list n = s.setList v.list (front ++ back) := by
    rw [Store.removeFrom, ← exchange_nil, hsplit, exchange_at hfront hback, List.append_nil]
  have hin : (s.setList v.list (front ++ back)).HasList v.list := Store.hasList_setList.mpr h.hasList
  have hadd : (s.setList v.list (front ++ back)).addLeaf content =
      ((s.addLeaf content).1, (s.addLeaf content).2.setList v.list (front ++ back)) :=
    @Write.addLeaf_apply s (.list v.list fun _ => front ++ back) h.hasList content
  rw [hput, hrest, Store.insert_eq_splice hin (Store.list_setList_self h.hasList), Store.splice, hadd,
    Write.setList_setList, h.setList_exchange hsplit hfront hback]
  simp

/-- A key that is absent is not erased, which comes to the same. -/
theorem removeAttribute_eq (key : AttrKey) : (v.edit s (.removeAttribute key)).1 =
    s.setLabel n { (s.node n).label with
      attributes := (s.node n).label.attributes.erase key } := by
  rw [edit, removeAttribute, h.node?]
  cases hkey : (s.node n).label.attributes.contains key with
  | true =>
    simp only [hkey, if_true]
    rfl
  | false =>
    simp only [hkey, Bool.false_eq_true, if_false]
    rw [Attributes.erase_of_not_contains hkey]
    exact (Store.setLabel_label_self s n).symm

theorem remove_eq :
    (v.edit s .remove).1 = s.setList v.list (exchange n [] (s.list v.list)) := by
  simp only [edit, remove, h.node?, if_pos h.mem]
  rw [Store.removeFrom, ← exchange_nil]

/-- An edit supplies its text and makes its write. -/
theorem edit_eq (hs : s.Sound) (he : e.IsPlain) :
    (v.edit s e).1 = (e.write v.list n (v.inner? s) (s.supply (e.supplied (v.inner? s))).1).apply
      (s.supply (e.supplied (v.inner? s))).2 := by
  cases e with
  | setTitle title => exact absurd rfl (he.1 title)
  | setAttribute key value =>
    rw [edit, setAttribute, h.node?]
    rfl
  | removeAttribute key => exact h.removeAttribute_eq key
  | remove => exact h.remove_eq
  | clear =>
    rw [edit, clear]
    cases v.inner? s <;> rfl
  | setInner content =>
    rw [edit, setInner]
    cases v.inner? s <;> rfl
  | append c =>
    obtain ⟨content, rfl⟩ := he.2 c rfl
    cases hi : v.inner? s with
    | none => simp only [edit, append, hi]; rfl
    | some l => exact append_eq hs hi content
  | prepend c =>
    obtain ⟨content, rfl⟩ := he.2 c rfl
    cases hi : v.inner? s with
    | none => simp only [edit, prepend, hi]; rfl
    | some l => exact prepend_eq hs hi content
  | after c =>
    obtain ⟨content, rfl⟩ := he.2 c rfl
    exact h.after_eq content
  | before c =>
    obtain ⟨content, rfl⟩ := he.2 c rfl
    exact h.before_eq content
  | replace c =>
    obtain ⟨content, rfl⟩ := he.2 c rfl
    exact h.replace_eq content

theorem sound_edit (hs : s.Sound) (he : e.IsPlain) : (v.edit s e).1.Sound := by
  refine View.sound_edit hs ⟨h.hasList, fun k hk => ?_⟩ fun c hc k hk => ?_
  · obtain rfl : n = k := Option.some.inj (h.focus.symm.trans hk)
    exact h.hasNode hs
  · obtain ⟨content, rfl⟩ := he.2 c hc
    cases hk

end Holds
end View

namespace Edit

variable {owner : ListId} {inner? : Option ListId} {new new' : List NodeId} {R : Pairing}

theorem target_write (h : (e.write owner n inner? new).target? = some l) :
    l = owner ∨ inner? = some l := by
  rcases write_cases owner n inner? new e with hw | ⟨f, hw⟩ | ⟨row, -, hw⟩ | ⟨k, f, hk, hw⟩
  · rw [hw] at h
    cases h
  · rw [hw] at h
    cases h
  · rw [hw] at h
    exact Or.inl (Option.some.inj h).symm
  · rw [hw] at h
    exact Or.inr (hk.trans h)

theorem write_inUse (hn : s.HasNode n) (ho : s.HasList owner)
    (hi : ∀ l, inner? = some l → s.HasList l) (e : Edit) (new : List NodeId) :
    (e.write owner n inner? new).InUse s := by
  rcases write_cases owner n inner? new e with hw | ⟨f, hw⟩ | ⟨row, -, hw⟩ | ⟨k, f, hk, hw⟩
  · rw [hw]
    trivial
  · rw [hw]
    exact hn
  · rw [hw]
    exact ho
  · rw [hw]
    exact hi k hk

/-- Exchanging paired nodes for paired rows. -/
theorem exchange_rel (hinj : ∀ {a b}, R.node a b → (a = n ↔ b = n)) {row row' ns ms : List NodeId}
    (hrow : Forall₂ R.node row row') (hns : Forall₂ R.node ns ms) :
    Forall₂ R.node (exchange n row ns) (exchange n row' ms) := by
  induction hns with
  | nil => exact .nil
  | @cons a b ns ms hab _ ih =>
    rw [exchange, exchange, List.flatMap_cons, List.flatMap_cons, ← exchange, ← exchange]
    by_cases ha : a = n
    · rw [if_pos ha, if_pos ((hinj hab).mp ha)]
      exact List.rel_append hrow ih
    · rw [if_neg ha, if_neg fun hb => ha ((hinj hab).mpr hb)]
      exact .cons hab ih

/-- With paired new nodes an edit writes the same under both. -/
theorem write_rel (hinj : ∀ {a b}, R.node a b → (a = n ↔ b = n)) (hn : R.node n n)
    (ho : R.list owner owner) (hi : ∀ l, inner? = some l → R.list l l)
    (hnew : Forall₂ R.node new new') (e : Edit) :
    R.WriteRel (e.write owner n inner? new) (e.write owner n inner? new') := by
  have inside : ∀ {f g : List NodeId → List NodeId},
      (∀ {ns ms}, Forall₂ R.node ns ms → Forall₂ R.node (f ns) (g ms)) →
        R.WriteRel (writeInside inner? f) (writeInside inner? g) := by
    intro f g hfg
    cases inner? with
    | none => exact .keep
    | some l => exact .list (hi l rfl) hfg
  cases e with
  | setAttribute key value => exact .label hn _
  | removeAttribute key => exact .label hn _
  | remove => exact .list ho (exchange_rel hinj .nil)
  | after c => exact .list ho (exchange_rel hinj (.cons hn hnew))
  | before c => exact .list ho (exchange_rel hinj (List.rel_append hnew (.cons hn .nil)))
  | replace c => exact .list ho (exchange_rel hinj hnew)
  | clear => exact inside fun _ => .nil
  | setInner content => exact inside fun _ => hnew
  | append c => exact inside fun hns => List.rel_append hns hnew
  | prepend c => exact inside fun hns => List.rel_append hnew hns
  | setTitle title => exact .keep

end Edit

namespace View

theorem Holds.write_inUse (h : v.Holds s n) (hs : s.Sound) (hst : s.Extends t) (e : Edit)
    (new : List NodeId) : (e.write v.list n (v.inner? s) new).InUse t :=
  Edit.write_inUse ((h.hasNode hs).mono hst) (h.hasList.mono hst)
    (fun _ hl => (View.hasList_inner hs hl).mono hst) e new

theorem Holds.write_rel {R : Pairing} {t' : Store} (h : v.Holds s n) (hs : s.Sound)
    (hR : Store.Alike R t t') (hnode : ∀ {n}, s.HasNode n → R.node n n)
    (hlist : ∀ {l}, s.HasList l → R.list l l) {new new' : List NodeId}
    (hnew : Forall₂ R.node new new') (e : Edit) :
    R.WriteRel (e.write v.list n (v.inner? s) new) (e.write v.list n (v.inner? s) new') :=
  Edit.write_rel (fun hab => hR.node_inj hab (hnode (h.hasNode hs))) (hnode (h.hasNode hs))
    (hlist h.hasList) (fun _ hl => hlist (View.hasList_inner hs hl)) hnew e

/-- The views are about two nodes that stand once in their lists. Neither node stands below the other,
and no list is inside both. -/
structure Independent (s : Store) (v w : View) (n m : NodeId) : Prop where
  left : v.Holds s n
  right : w.Holds s m
  notBelow : ¬ ReflTransGen s.Child n m
  notAbove : ¬ ReflTransGen s.Child m n
  inside : ∀ l, v.inner? s = some l → w.inner? s ≠ some l

namespace Independent

theorem symm (h : Independent s v w n m) : Independent s w v m n :=
  ⟨h.right, h.left, h.notAbove, h.notBelow, fun l hw hv => h.inside l hv hw⟩

theorem ne (h : Independent s v w n m) : n ≠ m := by
  rintro rfl
  exact h.notBelow .refl

theorem list_ne_children (h : Independent s v w n m) : v.list ≠ (s.node m).children := by
  intro he
  have hchild : s.Child m n := by
    rw [Store.Child, ← he]
    exact h.left.mem
  exact h.notAbove (.single hchild)

theorem list_ne_inner (h : Independent s v w n m) (hl : w.inner? s = some l) : v.list ≠ l := by
  obtain ⟨a, slot, ha, hslot, rfl⟩ := inner?_eq_some_iff.mp hl
  obtain rfl : m = a := Option.some.inj (h.right.node?.symm.trans ha)
  intro he
  have hchild : s.Child slot n := by
    rw [Store.Child, ← he]
    exact h.left.mem
  have hslot : s.Child m slot := List.mem_of_mem_head? hslot
  exact h.notAbove (.head hslot (.single hchild))

theorem inner_ne_children (h : Independent s v w n m) (hs : s.Sound) (hu : s.Separate)
    (hl : v.inner? s = some l) : l ≠ (s.node m).children := by
  obtain ⟨a, slot, ha, hslot, rfl⟩ := inner?_eq_some_iff.mp hl
  obtain rfl : n = a := Option.some.inj (h.left.node?.symm.trans ha)
  have hslot : s.Child n slot := List.mem_of_mem_head? hslot
  intro he
  have hin : s.HasNode slot := hs.closed.member _ slot hslot
  obtain rfl := hu slot m hin (hs.closed.member _ m h.right.mem) he
  exact h.notBelow (.single hslot)

/-- A new node is not the node of the other view. -/
theorem not_mem_supply (h : Independent s v w n m) (hs : s.Sound) (hst : s.Extends t)
    (hc : c.shared = []) : m ∉ (t.supply c).1 := fun hm =>
  Store.supply_new hc hm ((h.right.hasNode hs).mono hst)

/-- An edit through the first view writes nothing to a list that is neither its own nor inside its
node. -/
theorem list_edit (h : Independent s v w n m) (hs : s.Sound) (he : e.IsPlain) (hl : s.HasList l)
    (hne : l ≠ v.list) (hinner : v.inner? s ≠ some l) : (v.edit s e).1.list l = s.list l := by
  rw [h.left.edit_eq hs he, Write.list_apply_of_ne, (Store.extends_supply s _).list l hl]
  intro htarget
  rcases Edit.target_write htarget with rfl | hi
  · exact hne rfl
  · exact hinner hi

/-- After an edit through the first view, the node of the second one stands once in its list. -/
theorem holds_right (h : Independent s v w n m) (hs : s.Sound) (he : e.IsPlain) :
    w.Holds (v.edit s e).1 m := by
  refine ⟨h.right.focus, ?_⟩
  have hl := h.right.hasList
  have hx := Store.extends_supply s (e.supplied (v.inner? s))
  have hlist := hx.list w.list hl
  have honce := h.right.once
  rw [h.left.edit_eq hs he]
  rcases Edit.write_cases v.list n (v.inner? s) (s.supply (e.supplied (v.inner? s))).1 e with
    hw | ⟨f, hw⟩ | ⟨row, hrow, hw⟩ | ⟨l, f, hl, hw⟩
  · rw [hw, Write.apply, hlist]
    exact honce
  · rw [hw, Write.apply, Store.list_setLabel, hlist]
    exact honce
  · rw [hw, Write.apply]
    have hm : m ∉ row := by
      intro hm
      rcases List.mem_cons.mp (hrow hm) with rfl | hm
      · exact h.ne rfl
      · exact h.not_mem_supply hs (.refl s) (e.shared_supplied he _) hm
    by_cases hvw : w.list = v.list
    · rw [← hvw, Store.list_setList_self (hl.mono hx), count_exchange h.ne hm, hlist]
      exact honce
    · rw [Store.list_setList_of_ne hvw, hlist]
      exact honce
  · rw [hw, Write.apply, Store.list_setList_of_ne (h.symm.list_ne_inner hl), hlist]
    exact honce

/-- An edit through the first view leaves the list inside the second node where it was. -/
theorem inner?_right (h : Independent s v w n m) (hs : s.Sound) (hu : s.Separate) (he : e.IsPlain) :
    w.inner? (v.edit s e).1 = w.inner? s := by
  have hm : s.HasNode m := h.right.hasNode hs
  have hchildren : ∀ a, s.HasNode a →
      ((v.edit s e).1.node a).children = (s.node a).children := by
    intro a ha
    rw [h.left.edit_eq hs he, Write.children_apply, (Store.extends_supply s _).node a ha]
  have hrow : (v.edit s e).1.list ((v.edit s e).1.node m).children = s.list (s.node m).children := by
    rw [hchildren m hm]
    refine h.list_edit hs he (hs.closed.children m hm) h.list_ne_children.symm fun hi => ?_
    exact h.inner_ne_children hs hu hi rfl
  rw [inner?, inner?, slot?, slot?, (h.holds_right hs he).node?, h.right.node?, Option.bind_some,
    Option.bind_some, hrow]
  cases hslot : (s.list (s.node m).children).head? with
  | none => rfl
  | some slot =>
    have hin : s.HasNode slot := hs.closed.member _ slot (List.mem_of_mem_head? hslot)
    rw [Option.map_some, Option.map_some, hchildren slot hin]

/-- Both edits supply what they put in, and then each one makes its write. -/
theorem edit_edit_eq (h : Independent s v w n m) (hs : s.Sound) (hu : s.Separate) (he : e.IsPlain)
    (he' : e'.IsPlain) :
    let first := s.supply (e.supplied (v.inner? s))
    let second := first.2.supply (e'.supplied (w.inner? s))
    (w.edit (v.edit s e).1 e').1 = (e'.write w.list m (w.inner? s) second.1).apply
      ((e.write v.list n (v.inner? s) first.1).apply second.2) := by
  intro first second
  have hx : s.Extends first.2 := Store.extends_supply s _
  have hin := h.left.write_inUse hs hx e first.1
  rw [(h.holds_right hs he).edit_eq (h.left.sound_edit hs he) he', h.inner?_right hs hu he,
    h.left.edit_eq hs he, Write.supply_apply hin]

/-- The writes of the two edits can change places. -/
theorem commutes (h : Independent s v w n m) {new new' : List NodeId} (hnew : m ∉ new)
    (hnew' : n ∉ new') (e e' : Edit) :
    (e.write v.list n (v.inner? s) new).Commutes (e'.write w.list m (w.inner? s) new') := by
  rcases e.write_cases v.list n (v.inner? s) new with
    hp | ⟨f, hp⟩ | ⟨row, hrow, hp⟩ | ⟨l, f, hl, hp⟩ <;>
  rcases e'.write_cases w.list m (w.inner? s) new' with
    hq | ⟨g, hq⟩ | ⟨row', hrow', hq⟩ | ⟨k, g, hk, hq⟩ <;>
  rw [hp, hq]
  -- Only two labels or two lists can be the same name, and two lists only when both nodes stand in it.
  case inr.inl.inr.inl => exact h.ne
  case inr.inr.inl.inr.inr.inl =>
    have hm : m ∉ row := by
      intro hm
      rcases List.mem_cons.mp (hrow hm) with rfl | hm
      · exact h.ne rfl
      · exact hnew hm
    have hn : n ∉ row' := by
      intro hn
      rcases List.mem_cons.mp (hrow' hn) with rfl | hn
      · exact h.ne rfl
      · exact hnew' hn
    exact fun _ => exchange_comm h.ne hn hm
  case inr.inr.inl.inr.inr.inr => exact fun heq => absurd heq (h.list_ne_inner hk)
  case inr.inr.inr.inr.inr.inl => exact fun heq => absurd heq.symm (h.symm.list_ne_inner hl)
  case inr.inr.inr.inr.inr.inr => exact fun heq => absurd (heq ▸ hk) (h.inside l hl)
  all_goals trivial

end Independent

/-- Edits with texts at two nodes, neither below the other, can be made in either order: whatever is
shown of the store is the same afterwards. The two nodes may stand in one list. -/
theorem markup_edit_edit (hs : s.Sound) (hu : s.Separate) (h : Independent s v w n m)
    (he : e.IsPlain) (he' : e'.IsPlain) {d : View} (hd : s.HasList d.list) :
    d.markup (w.edit (v.edit s e).1 e').1 = d.markup (v.edit (w.edit s e').1 e).1 := by
  let c := e.supplied (v.inner? s)
  let c' := e'.supplied (w.inner? s)
  have hc : c.shared = [] := e.shared_supplied he _
  have hc' : c'.shared = [] := e'.shared_supplied he' _
  obtain ⟨R, hR, hnew, hnew', hnode, hlist⟩ := Store.alike_supply_swap hs hc hc'
  have hboth := (hR.apply (h.left.write_rel hs hR hnode hlist hnew e)).apply
    (h.right.write_rel hs hR hnode hlist hnew' e')
  -- In the other order the texts have other names, and then the writes change places.
  have hx : s.Extends (s.supply c').2 := Store.extends_supply s c'
  have hin := h.left.write_inUse hs (hx.trans (Store.extends_supply _ c)) e
    ((s.supply c').2.supply c).1
  rw [Write.apply_comm (h.commutes (h.not_mem_supply hs hx hc)
    (h.symm.not_mem_supply hs (.refl s) hc') e e') hin] at hboth
  have hfirst := h.edit_edit_eq hs hu he he'
  have hsecond := h.symm.edit_edit_eq hs hu he' he
  have hsound := (h.holds_right hs he).sound_edit (h.left.sound_edit hs he) he'
  have hsound' := (h.symm.holds_right hs he').sound_edit (h.right.sound_edit hs he') he
  rw [markup, markup]
  refine congrArg Forest.render (Store.Alike.labels ?_ hsound hsound' (hlist hd))
  rw [hfirst, hsecond]
  exact hboth

/-- A text after the first of two neighbours and a text before the second. -/
theorem markup_edit_edit_neighbours :
    let s := (Operation.parse {} "<p data-scope=a>x</p><i data-prop=b>y</i>".toList).apply .empty
    let d : View := ⟨⟨8⟩, none⟩
    let v : View := ⟨⟨8⟩, some ⟨3⟩⟩
    let w : View := ⟨⟨8⟩, some ⟨7⟩⟩
    s.Sound ∧ s.Separate ∧ Independent s v w ⟨3⟩ ⟨7⟩ ∧ s.HasList d.list ∧
      d.markup (w.edit (v.edit s (.after (.text ['1']))).1 (.before (.text ['2']))).1 =
        "<p data-scope=\"a\">x</p>12<i data-prop=\"b\">y</i>".toList ∧
      d.markup (v.edit (w.edit s (.before (.text ['2']))).1 (.after (.text ['1']))).1 =
        "<p data-scope=\"a\">x</p>12<i data-prop=\"b\">y</i>".toList := by
  let s := (Operation.parse {} "<p data-scope=a>x</p><i data-prop=b>y</i>".toList).apply .empty
  let d : View := ⟨⟨8⟩, none⟩
  let v : View := ⟨⟨8⟩, some ⟨3⟩⟩
  let w : View := ⟨⟨8⟩, some ⟨7⟩⟩
  have hs : s.Sound := Store.sound_empty.run (Store.run_apply .empty (.parse {} _) trivial)
  have hu : s.Separate := by
    have hnodes : ∀ i < s.nodes.size, ∀ j < s.nodes.size,
        (s.node ⟨i⟩).children = (s.node ⟨j⟩).children → i = j := by decide +kernel
    exact fun a b ha hb hab => congrArg NodeId.mk (hnodes a.index ha b.index hb hab)
  have hbelow : ∀ a b, s.owns a (s.node b).children = false → ¬ ReflTransGen s.Child a b := by
    intro a b hno hab
    have howns := (Store.owns_iff hs.closed hs.acyclic).mpr ⟨b, hab, rfl⟩
    exact Bool.false_ne_true (hno.symm.trans howns)
  have hv : v.inner? s = some ⟨1⟩ := by decide +kernel
  have hw : w.inner? s = some ⟨5⟩ := by decide +kernel
  have h : Independent s v w ⟨3⟩ ⟨7⟩ := by
    refine ⟨⟨rfl, by decide +kernel⟩, ⟨rfl, by decide +kernel⟩, hbelow _ _ (by decide +kernel),
      hbelow _ _ (by decide +kernel), fun l hl hl' => ?_⟩
    rw [hv] at hl
    rw [hw, ← hl] at hl'
    cases hl'
  have hplain : ∀ e : Edit, e = .after (.text ['1']) ∨ e = .before (.text ['2']) → e.IsPlain := by
    rintro e (rfl | rfl)
    · exact ⟨fun _ => by simp, fun c hc => ⟨['1'], (Option.some.inj hc).symm⟩⟩
    · exact ⟨fun _ => by simp, fun c hc => ⟨['2'], (Option.some.inj hc).symm⟩⟩
  have hd : s.HasList d.list := (by decide +kernel : 8 < s.lists.size)
  have hfirst : d.markup (w.edit (v.edit s (.after (.text ['1']))).1 (.before (.text ['2']))).1 =
      "<p data-scope=\"a\">x</p>12<i data-prop=\"b\">y</i>".toList := by decide +kernel
  have hswap := markup_edit_edit hs hu h (hplain _ (Or.inl rfl)) (hplain _ (Or.inr rfl)) hd
  exact ⟨hs, hu, h, hd, hfirst, hswap.symm.trans hfirst⟩

end View
end TemplateTree
