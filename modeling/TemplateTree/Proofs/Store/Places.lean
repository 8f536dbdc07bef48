import TemplateTree.Proofs.View.Shape
import Mathlib

/-! The places where a list is reached, and the text around them. A list is written as fixed pieces of
text with what one other list holds in every gap between them. -/
namespace TemplateTree

namespace Text

/-- A text that is made by putting one text into each of `k` gaps between fixed pieces. -/
def Gapped (k : Nat) (g : Text → Text) : Prop :=
  ∃ pieces : List Text, pieces.length = k + 1 ∧ ∀ x, g x = x.intercalate pieces

variable {g h : Text → Text} {i j : Nat}

theorem gapped_const (t : Text) : Gapped 0 (fun _ => t) :=
  ⟨[t], rfl, fun _ => List.intercalate_singleton.symm⟩

theorem gapped_self : Gapped 1 (fun x => x) :=
  ⟨[[], []], rfl, fun x => by simp⟩

/-- Of two rows of pieces the last one and the first one become one piece. -/
theorem exists_joined (ps qs : List Text) (hp : ps ≠ []) (hq : qs ≠ []) :
    ∃ rs : List Text, rs.length + 1 = ps.length + qs.length ∧
      ∀ x : Text, x.intercalate rs = x.intercalate ps ++ x.intercalate qs := by
  induction ps with
  | nil => exact absurd rfl hp
  | cons a ps ih =>
    obtain ⟨b, qs, rfl⟩ := List.exists_cons_of_ne_nil hq
    cases ps with
    | nil =>
      refine ⟨(a ++ b) :: qs, by simp; omega, fun x => ?_⟩
      cases qs with
      | nil => simp
      | cons c qs => simp
    | cons c ps =>
      obtain ⟨rs, hlen, hrs⟩ := ih (by simp)
      simp only [List.length_cons] at hlen ⊢
      obtain ⟨d, rs, rfl⟩ := List.exists_cons_of_length_pos (by omega : 0 < rs.length)
      simp only [List.length_cons] at hlen
      refine ⟨a :: d :: rs, by simp only [List.length_cons]; omega, fun x => ?_⟩
      rw [List.intercalate_cons_cons, List.intercalate_cons_cons, hrs x]
      simp only [List.append_assoc]

theorem Gapped.append (hg : Gapped i g) (hh : Gapped j h) :
    Gapped (i + j) (fun x => g x ++ h x) := by
  obtain ⟨ps, hp, hps⟩ := hg
  obtain ⟨qs, hq, hqs⟩ := hh
  obtain ⟨rs, hr, hrs⟩ := exists_joined ps qs (by rintro rfl; simp at hp) (by rintro rfl; simp at hq)
  refine ⟨rs, by omega, fun x => ?_⟩
  change g x ++ h x = _
  rw [hrs, hps, hqs]

/-- Pieces of a row, each with its own gaps. -/
theorem Gapped.flatMap {α : Type} {ns : List α} {k : α → Nat} {g : α → Text → Text}
    (h : ∀ n ∈ ns, Gapped (k n) (g n)) :
    Gapped ((ns.map k).sum) (fun x => ns.flatMap fun n => g n x) := by
  induction ns with
  | nil => exact gapped_const []
  | cons n ns ih =>
    exact (h n (by simp)).append (ih fun m hm => h m (by simp [hm]))

/-- Without gaps there is nothing to fill. -/
theorem Gapped.constant (h : Gapped 0 g) (x y : Text) : g x = g y := by
  obtain ⟨pieces, hlen, hg⟩ := h
  obtain ⟨p, rfl⟩ := List.length_eq_one_iff.mp hlen
  rw [hg, hg, List.intercalate_singleton, List.intercalate_singleton]

end Text

namespace Store

variable {s t : Store} {n : NodeId} {l k target : ListId}

/-- The list, and the lists of children below it, once for each place where they are reached. -/
def reachedLists (s : Store) (l : ListId) : List ListId :=
  l :: (s.forest l).preorder.map (·.node.children)

theorem reachedLists_eq (hs : s.Sound) (l : ListId) : s.reachedLists l =
    l :: (s.list l).flatMap fun n => s.reachedLists (s.node n).children := by
  rw [reachedLists, forest_eq hs.closed hs.acyclic, Forest.preorder_ofList, List.map_flatMap]
  rfl

theorem mem_reachedLists_children (hs : s.Sound) :
    k ∈ s.reachedLists (s.node n).children ↔ s.Owns n k := by
  rw [← owns_iff hs.closed hs.acyclic, owns, reachedLists, Bool.or_eq_true, decide_eq_true_iff,
    List.any_eq_true, List.mem_cons, List.mem_map, @eq_comm _ k]
  simp only [decide_eq_true_iff]

/-- A node of a list does not own the list. -/
theorem not_owns_of_mem (hs : s.Acyclic) (h : n ∈ s.list l) : ¬ s.Owns n l := by
  rintro ⟨m, hr, rfl⟩
  exact hs n (Relation.TransGen.tail' hr h)

theorem count_reachedLists (hs : s.Sound) (l target : ListId) :
    (s.reachedLists l).count target = [l].count target +
      ((s.list l).map fun n => (s.reachedLists (s.node n).children).count target).sum := by
  rw [reachedLists_eq hs, ← List.singleton_append, List.count_append, List.count_flatMap]
  rfl

theorem count_below (hs : s.Sound) (hn : n ∈ s.list l) :
    (s.reachedLists (s.node n).children).count l = 0 := by
  rw [List.count_eq_zero, mem_reachedLists_children hs]
  exact not_owns_of_mem hs.acyclic hn

/-- A list is reached from itself at one place only. -/
theorem count_reachedLists_self (hs : s.Sound) (l : ListId) : (s.reachedLists l).count l = 1 := by
  rw [reachedLists_eq hs, List.count_cons_self, List.count_eq_zero.mpr]
  intro h
  obtain ⟨n, hn, hl⟩ := List.mem_flatMap.mp h
  exact not_owns_of_mem hs.acyclic hn ((mem_reachedLists_children hs).mp hl)

/-- Everything in use is the same in `t`, except what is in one list. -/
structure SameBut (s t : Store) (target : ListId) : Prop where
  node : ∀ n, s.HasNode n → t.node n = s.node n
  list : ∀ l, s.HasList l → l ≠ target → t.list l = s.list l

theorem SameBut.refl (s : Store) (target : ListId) : s.SameBut s target :=
  ⟨fun _ _ => rfl, fun _ _ _ => rfl⟩

/-- What is written for a list leaves a gap at each place where the target is reached. -/
theorem exists_gapped (hs : s.Sound) (target : ListId) (hl : s.HasList l) :
    ∃ g, Text.Gapped ((s.reachedLists l).count target) g ∧ ∀ t : Store, t.Sound →
      s.SameBut t target → (t.labels l).render = g (t.labels target).render := by
  induction l using list_induction hs.closed hs.acyclic with
  | step l ih =>
    by_cases hlt : l = target
    -- the target is the whole gap, and without cycles it is not reached again below itself
    · subst hlt
      refine ⟨fun x => x, ?_, fun _ _ _ => rfl⟩
      rw [count_reachedLists_self hs]
      exact Text.gapped_self
    · have hchildren : ∀ n ∈ s.list l, s.HasList (s.node n).children := fun n hn =>
        hs.closed.children n (hs.closed.member l n hn)
      choose! g hgap hg using fun n hn => ih n hn (hchildren n hn)
      refine ⟨fun x => (s.list l).flatMap fun n => (s.node n).label.render ++ g n x, ?_, ?_⟩
      · rw [count_reachedLists hs, List.count_singleton, if_neg (by simpa using hlt), Nat.zero_add]
        refine Text.Gapped.flatMap (fun n hn => ?_)
        have h := (Text.gapped_const (s.node n).label.render).append (hgap n hn)
        rwa [Nat.zero_add] at h
      · intro t ht hst
        rw [render_labels ht, hst.list l hl hlt]
        refine List.flatMap_congr (fun n hn => ?_)
        have hnode := hst.node n (hs.closed.member l n hn)
        rw [renderNode, hnode, hg n hn t ht hst]

/-- Nodes of the target are written as before. -/
theorem SameBut.renderNode (h : s.SameBut t l) (hs : s.Sound) (ht : t.Sound) (hn : n ∈ s.list l) :
    t.renderNode n = s.renderNode n := by
  have hin : s.HasNode n := hs.closed.member l n hn
  obtain ⟨g, hgap, hg⟩ := exists_gapped hs l (hs.closed.children n hin)
  rw [count_below hs hn] at hgap
  rw [Store.renderNode, Store.renderNode, h.node n hin, hg t ht h, hg s hs (.refl s l),
    hgap.constant (t.labels l).render]

end Store
end TemplateTree
