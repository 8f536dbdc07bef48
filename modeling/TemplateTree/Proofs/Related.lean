import TemplateTree.Forest
import Mathlib.Data.List.Forall2

/-! Lists, options and forests with corresponding entries. Whatever treats corresponding entries
alike gives results that correspond. -/
namespace TemplateTree

open List (Forall₂)

/-- Forests of one shape with corresponding labels. -/
inductive Forest.Rel {α β : Type} (r : α → β → Prop) : Forest α → Forest β → Prop
  | nil : Rel r .nil .nil
  | cons {a : α} {b : β} {ks rs : Forest α} {ks' rs' : Forest β} (h : r a b) (hk : Rel r ks ks')
    (hr : Rel r rs rs') : Rel r (.cons a ks rs) (.cons b ks' rs')

namespace Forest

variable {α β γ : Type} {r q : α → β → Prop} {f : Forest α} {g : Forest β}

theorem Rel.imp (h : f.Rel r g) (hrq : ∀ a b, r a b → q a b) : f.Rel q g := by
  induction h with
  | nil => exact .nil
  | cons h _ _ ihk ihr => exact .cons (hrq _ _ h) ihk ihr

theorem Rel.roots (h : f.Rel r g) : Forall₂ r f.roots g.roots := by
  induction h with
  | nil => exact .nil
  | cons h _ _ _ ihr => exact .cons h ihr

theorem Rel.preorder (h : f.Rel r g) : Forall₂ r f.preorder g.preorder := by
  induction h with
  | nil => exact .nil
  | cons h _ _ ihk ihr => exact .cons h (List.rel_append ihk ihr)

theorem Rel.append {f' : Forest α} {g' : Forest β} (h : f.Rel r g) (h' : f'.Rel r g') :
    (f ++ f').Rel r (g ++ g') := by
  induction h with
  | nil => exact h'
  | cons h hk _ _ ihr => exact .cons h hk ihr

theorem Rel.map_eq {p : α → γ} {p' : β → γ} (h : f.Rel r g) (hp : ∀ a b, r a b → p a = p' b) :
    f.map p = g.map p' := by
  induction h with
  | nil => rfl
  | cons h _ _ ihk ihr => rw [map, map, hp _ _ h, ihk, ihr]

theorem Rel.ofList {ι κ : Type} {p : ι → κ → Prop} {label : ι → α} {label' : κ → β}
    {children : ι → Forest α} {children' : κ → Forest β} {is : List ι} {ks : List κ}
    (h : Forall₂ p is ks) (hl : ∀ i k, p i k → r (label i) (label' k))
    (hc : ∀ i k, p i k → (children i).Rel r (children' k)) :
    (Forest.ofList label children is).Rel r (Forest.ofList label' children' ks) := by
  induction h with
  | nil => exact .nil
  | cons h _ ih => exact .cons (hl _ _ h) (hc _ _ h) ih

end Forest

namespace Related

variable {α β γ δ : Type} {r : α → β → Prop} {q : γ → δ → Prop} {as : List α} {bs : List β}
  {cs : List γ} {ds : List δ} {a : Option α} {b : Option β}

theorem none_or_some (h : Option.Rel r a b) :
    (a = none ∧ b = none) ∨ ∃ x y, a = some x ∧ b = some y ∧ r x y := by
  cases h with
  | none => exact Or.inl ⟨rfl, rfl⟩
  | some h => exact Or.inr ⟨_, _, rfl, rfl, h⟩

theorem map? {f : α → γ} {g : β → δ} (h : Option.Rel r a b) (hf : ∀ x y, r x y → q (f x) (g y)) :
    Option.Rel q (a.map f) (b.map g) := by
  cases h with
  | none => exact .none
  | some h => exact .some (hf _ _ h)

theorem head? (h : Forall₂ r as bs) : Option.Rel r as.head? bs.head? := by
  cases h with
  | nil => exact .none
  | cons hab _ => exact .some hab

theorem getElem? (h : Forall₂ r as bs) (i : Nat) : Option.Rel r as[i]? bs[i]? := by
  induction h generalizing i with
  | nil => exact .none
  | cons hab _ ih => cases i with
    | zero => exact .some hab
    | succ i => simpa using ih i

/-- What is split on one side is split on the other. -/
theorem split {front back : List α} {a : α} (h : Forall₂ r (front ++ a :: back) bs) :
    ∃ front' b back', bs = front' ++ b :: back' ∧ front.length = front'.length ∧ r a b := by
  induction front generalizing bs with
  | nil =>
    obtain ⟨b, back', hab, -, rfl⟩ := List.forall₂_cons_left_iff.mp h
    exact ⟨[], b, back', rfl, rfl, hab⟩
  | cons c front ih =>
    obtain ⟨d, rest, -, hrest, rfl⟩ := List.forall₂_cons_left_iff.mp h
    obtain ⟨front', b, back', rfl, hlength, hab⟩ := ih hrest
    exact ⟨d :: front', b, back', rfl, congrArg Nat.succ hlength, hab⟩

theorem any {p : α → Bool} {p' : β → Bool} (h : Forall₂ r as bs) (hp : ∀ x y, r x y → p x = p' y) :
    as.any p = bs.any p' := by
  induction h with
  | nil => rfl
  | cons hab _ ih => rw [List.any_cons, List.any_cons, hp _ _ hab, ih]

theorem find? {p : α → Bool} {p' : β → Bool} (h : Forall₂ r as bs)
    (hp : ∀ x y, r x y → p x = p' y) : Option.Rel r (as.find? p) (bs.find? p') := by
  induction h with
  | nil => exact .none
  | @cons x y _ _ hxy _ ih =>
    rw [List.find?_cons, List.find?_cons, hp x y hxy]
    split
    · exact .some hxy
    · exact ih

theorem findSome? {f : α → Option γ} {g : β → Option δ} (h : Forall₂ r as bs)
    (hf : ∀ x y, r x y → Option.Rel q (f x) (g y)) :
    Option.Rel q (as.findSome? f) (bs.findSome? g) := by
  induction h with
  | nil => exact .none
  | @cons x y _ _ hxy _ ih =>
    rw [List.findSome?_cons, List.findSome?_cons]
    rcases none_or_some (hf x y hxy) with ⟨hx, hy⟩ | ⟨z, z', hx, hy, hz⟩
    · rw [hx, hy]
      exact ih
    · rw [hx, hy]
      exact .some hz

theorem zip (h : Forall₂ r as bs) (hq : Forall₂ q cs ds) :
    Forall₂ (fun p p' => r p.1 p'.1 ∧ q p.2 p'.2) (as.zip cs) (bs.zip ds) := by
  induction h generalizing cs ds with
  | nil => exact .nil
  | cons hab _ ih => cases hq with
    | nil => exact .nil
    | cons hcd hq => exact .cons ⟨hab, hcd⟩ (ih hq)

theorem map_eq {f : α → γ} {g : β → γ} (h : Forall₂ r as bs) (hfg : ∀ x y, r x y → f x = g y) :
    as.map f = bs.map g := by
  induction h with
  | nil => rfl
  | cons hab _ ih => rw [List.map_cons, List.map_cons, hfg _ _ hab, ih]

theorem lookup {κ : Type} [BEq κ] {es : List (κ × α)} {es' : List (κ × β)}
    (h : Forall₂ (fun e e' => e.1 = e'.1 ∧ r e.2 e'.2) es es') (key : κ) :
    Option.Rel r (es.lookup key) (es'.lookup key) := by
  induction h with
  | nil => exact .none
  | @cons e e' _ _ he _ ih =>
    obtain ⟨k, x⟩ := e
    obtain ⟨k', y⟩ := e'
    obtain ⟨rfl, hxy⟩ := he
    simp only [List.lookup_cons]
    cases key == k with
    | true => exact .some hxy
    | false => exact ih

end Related
end TemplateTree
