import TemplateTree.Proofs.View.History

/-! Documents handed to a writer. The writer gets the pieces of the markup one after another and nothing
after the first that it fails at, so a sink is left with as much of the markup as it has room for. -/
namespace TemplateTree

variable {σ : Type} {write : Writer σ} {out mid failed : σ} {s : Store}
  {before after : List Text} {piece : Text}

namespace Attributes

/-- What is handed over for one attribute. -/
def pieces : AttrKey × Option Text → List Text
  | (key, none) => [[' '], key.markupName]
  | (key, some value) => [[' '], key.markupName, ['=', '"'], Reference.escape value, ['"']]

theorem flatten_pieces (e : AttrKey × Option Text) : (pieces e).flatten = renderEntry e := by
  obtain ⟨key, value⟩ := e
  cases value with
  | none => simp [pieces, renderEntry]
  | some value => simp [pieces, renderEntry]

theorem writeEntry_eq (e : AttrKey × Option Text) (out : σ) :
    writeEntry write out e = (pieces e).foldlM write out := by
  obtain ⟨key, value⟩ := e
  cases value with
  | none => simp [pieces, writeEntry]
  | some value => simp [pieces, writeEntry]

end Attributes

namespace Label

/-- What is handed over for a node, without its children. -/
def pieces (l : Label) : List Text := l.content :: l.attributes.entries.flatMap Attributes.pieces

theorem flatten_pieces (l : Label) : l.pieces.flatten = l.render := by
  simp [pieces, render, Attributes.render, List.flatMap_def, List.flatten_flatten, Function.comp_def,
    Attributes.flatten_pieces]

theorem writeTo_eq (l : Label) (out : σ) : l.writeTo write out = l.pieces.foldlM write out := by
  have hentries (es : List (AttrKey × Option Text)) (out : σ) :
      es.foldlM (Attributes.writeEntry write) out = (es.flatMap Attributes.pieces).foldlM write out := by
    induction es generalizing out with
    | nil => rfl
    | cons e es ih =>
      simp only [List.foldlM_cons, List.flatMap_cons, List.foldlM_append, Attributes.writeEntry_eq, ih]
  simp only [writeTo, pieces, List.foldlM_cons, hentries]

end Label

namespace Forest

/-- What is handed over for a forest: a node, what is below it, and what stands behind it. -/
def pieces : Forest Label → List Text
  | nil => []
  | cons l kids rest => l.pieces ++ (pieces kids ++ pieces rest)

theorem flatten_pieces (f : Forest Label) : f.pieces.flatten = f.render := by
  induction f with
  | nil => rfl
  | cons l kids rest ihk ihr => simp [pieces, render, Label.flatten_pieces, ihk, ihr]

/-- Whatever the writer does, it is called with the pieces in order. -/
theorem writeTo_eq (f : Forest Label) (out : σ) : f.writeTo write out = f.pieces.foldlM write out := by
  induction f generalizing out with
  | nil => rfl
  | cons l kids rest ihk ihr =>
    simp only [writeTo, pieces, List.foldlM_append, Label.writeTo_eq, ihk, ihr]

/-- After the first failure there is no further call. -/
theorem writeTo_of_error {f : Forest Label} (hf : f.pieces = before ++ piece :: after)
    (hbefore : before.foldlM write out = .ok mid) (hpiece : write mid piece = .error failed) :
    f.writeTo write out = .error failed := by
  rw [writeTo_eq, hf, List.foldlM_append, hbefore]
  change ((write mid piece) >>= fun out => after.foldlM write out) = _
  rw [hpiece]
  rfl

/-- A row is written node by node, and each node before what is below it. -/
theorem writeTo_ofList {β : Type} (label : β → Label) (children : β → Forest Label) (bs : List β)
    (out : σ) : (ofList label children bs).writeTo write out =
      bs.foldlM (fun out b => (label b).writeTo write out >>= (children b).writeTo write) out := by
  induction bs generalizing out with
  | nil => rfl
  | cons b bs ih => simp only [ofList, writeTo, List.foldlM_cons, bind_assoc, ih]

end Forest

namespace Sink

/-- Two texts in a row are written like one. -/
theorem write_append (out : Sink) (a b : Text) : (out.write a >>= (·.write b)) = out.write (a ++ b) := by
  by_cases ha : a.length ≤ out.room
  · have hfirst : out.write a = .ok ⟨out.written ++ a, out.room - a.length⟩ := if_pos ha
    rw [hfirst]
    change Sink.write ⟨out.written ++ a, out.room - a.length⟩ b = _
    by_cases hb : b.length ≤ out.room - a.length
    · have hboth : a.length + b.length ≤ out.room := by omega
      simp [Sink.write, hb, hboth, Nat.sub_sub]
    · have hboth : ¬ a.length + b.length ≤ out.room := by omega
      simp [Sink.write, hb, hboth, List.take_append, List.take_of_length_le ha]
  · have hfirst : out.write a = .error ⟨out.written ++ a.take out.room, 0⟩ := if_neg ha
    have hboth : ¬ a.length + b.length ≤ out.room := by omega
    have htake : (a ++ b).take out.room = a.take out.room :=
      List.take_append_of_le_length (by omega)
    rw [hfirst]
    simp [Sink.write, hboth, htake]
    rfl

/-- Texts in pieces are written like the whole, however they are cut. -/
theorem foldlM_write (ps : List Text) (out : Sink) :
    ps.foldlM Sink.write out = out.write ps.flatten := by
  induction ps generalizing out with
  | nil =>
    have hnone : out.write [] = .ok out := by simp [Sink.write]
    exact hnone.symm
  | cons p ps ih =>
    rw [List.foldlM_cons, List.flatten_cons, ← write_append]
    simp only [ih]

end Sink

namespace View

open Store

/-- A document fits into a sink and is written as a whole exactly when the sink has room for its markup;
otherwise the sink is left full, with the front of the markup, and the failure is reported. Any writer
is called with the pieces of the markup node by node, each node before what is below it, and not again
once it has failed. -/
theorem writeTo_limit (hs : s.Sound) (v : View) :
    (∀ limit, (v.markup s).length ≤ limit ∧
        v.writeTo s ⟨[], limit⟩ = .ok ⟨v.markup s, limit - (v.markup s).length⟩ ∨
      limit < (v.markup s).length ∧
        v.writeTo s ⟨[], limit⟩ = .error ⟨(v.markup s).take limit, 0⟩) ∧
    (s.labels v.list).pieces.flatten = v.markup s ∧
    (∀ (σ : Type) (write : Writer σ) (out : σ),
      (∀ l, (s.labels l).writeTo write out = (s.list l).foldlM (fun out n =>
        (s.node n).label.writeTo write out >>= (s.labels (s.node n).children).writeTo write) out) ∧
      (s.labels v.list).writeTo write out = (s.labels v.list).pieces.foldlM write out ∧
      ∀ before piece after mid failed, (s.labels v.list).pieces = before ++ piece :: after →
        before.foldlM write out = .ok mid → write mid piece = .error failed →
        (s.labels v.list).writeTo write out = .error failed) := by
  refine ⟨fun limit => ?_, Forest.flatten_pieces _, fun σ write out => ⟨fun l => ?_, ?_, ?_⟩⟩
  · have hwrite : v.writeTo s ⟨[], limit⟩ = Sink.write ⟨[], limit⟩ (v.markup s) := by
      rw [writeTo, Forest.writeTo_eq, Sink.foldlM_write, Forest.flatten_pieces, markup]
    rw [hwrite]
    by_cases hfits : (v.markup s).length ≤ limit
    · exact Or.inl ⟨hfits, if_pos hfits⟩
    · exact Or.inr ⟨Nat.lt_of_not_le hfits, if_neg hfits⟩
  · rw [labels_eq hs.closed hs.acyclic, Forest.writeTo_ofList]
  · exact Forest.writeTo_eq ..
  · intro before piece after mid failed hpieces hbefore hpiece
    exact Forest.writeTo_of_error hpieces hbefore hpiece

/-- A sink that is full within an escaped value of an inner element, and a writer that refuses that value
and is left with the calls until then. -/
theorem writeTo_limit_escape :
    let s := (Operation.parse {} "<p data-scope=a><b data-prop='a&amp;b'>x</b></p>".toList).apply empty
    let v : View := ⟨⟨7⟩, none⟩
    let refuse : Writer (List Text) := fun calls t =>
      if t = "a&amp;b".toList then .error calls else .ok (calls ++ [t])
    s.Sound ∧
      v.writeTo s ⟨[], 35⟩ = .error ⟨"<p data-scope=\"a\"><b data-prop=\"a&a".toList, 0⟩ ∧
      (s.labels v.list).writeTo refuse [] = .error (["<p", " ", "data-scope", "=\"", "a", "\"", ">",
        "<b", " ", "data-prop", "=\""].map String.toList) := by
  let s := (Operation.parse {} "<p data-scope=a><b data-prop='a&amp;b'>x</b></p>".toList).apply empty
  let v : View := ⟨⟨7⟩, none⟩
  let refuse : Writer (List Text) := fun calls t =>
    if t = "a&amp;b".toList then .error calls else .ok (calls ++ [t])
  let calls : List Text :=
    ["<p", " ", "data-scope", "=\"", "a", "\"", ">", "<b", " ", "data-prop", "=\""].map String.toList
  have hs : s.Sound := sound_empty.run (run_apply empty (.parse {} _) trivial)
  obtain ⟨hlimit, -, hwriter⟩ := writeTo_limit hs v
  obtain ⟨-, -, hstop⟩ := hwriter (List Text) refuse []
  have hpieces : (s.labels v.list).pieces =
      calls ++ "a&amp;b".toList :: ["\"", ">", "x", "</b>", "</p>"].map String.toList := by
    decide +kernel
  refine ⟨hs, ?_, hstop calls _ _ calls calls hpieces rfl rfl⟩
  rcases hlimit 35 with ⟨hfits, -⟩ | ⟨-, hfull⟩
  · exact absurd hfits (by decide +kernel)
  · have hfront : (v.markup s).take 35 = "<p data-scope=\"a\"><b data-prop=\"a&a".toList := by
      decide +kernel
    rw [hfront] at hfull
    exact hfull

end View
end TemplateTree
