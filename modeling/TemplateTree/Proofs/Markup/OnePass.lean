import TemplateTree.Proofs.Markup.FlatScan
import TemplateTree.Proofs.Markup.Success
import TemplateTree.Proofs.Store.Growth
import TemplateTree.View.Basic
import Mathlib.Data.List.TakeWhile

/-! The pass and the nesting of the same tokens keep step. What the nesting holds so far is what the
pass has written, once each open element knows whether it will turn out bound. -/
namespace TemplateTree.FlatScan

open Elements (Frame Nesting)

variable {config : Config} {e : EndTag} {t : StartTag} {ts ts' : List Token} {ns ns' : List Text}
  {inside inside' : Bool} {row row' : Elements} {fs : List Frame} {os : List Open} {n : Nesting}

def keys (fs : List Frame) : List Text := fs.map (·.tag.key)

/-- The open elements of a nesting. An element is bound by its tag, by what is inside it already, or
by what is still to come before it closes. -/
def opened (ns : List Text) (ts : List Token) : Bool → List Frame → List Open
  | _, [] => []
  | inside, f :: fs =>
    let bound := f.tag.isBound || inside || boundAbove fs.length ns ts
    ⟨f.tag, bound⟩ :: opened ns ts (bound || f.before.isBound) fs

/-- What the pass has written of a nesting. -/
def written (config : Config) : Elements → List Frame → List Open → Text
  | row, f :: fs, o :: os => written config f.before fs os ++
      (if o.bound then opening config.decode f.tag else f.tag.source) ++ row.reverse.render config
  | row, _, _ => row.reverse.render config

theorem names_opened (ns : List Text) (ts : List Token) (inside : Bool) (fs : List Frame) :
    names (opened ns ts inside fs) = keys fs := by
  induction fs generalizing inside with
  | nil => rfl
  | cons f fs ih => simpa [opened, names, keys] using ih _

/-- Whether elements are bound depends on what is inside and what comes only through their union. -/
theorem opened_congr (h : ∀ i < fs.length,
    (inside || boundAbove i ns ts) = (inside' || boundAbove i ns' ts')) :
    opened ns ts inside fs = opened ns' ts' inside' fs := by
  induction fs generalizing inside inside' with
  | nil => rfl
  | cons f fs ih =>
    have htop := h fs.length (by simp)
    have hbound : (f.tag.isBound || inside || boundAbove fs.length ns ts) =
        (f.tag.isBound || inside' || boundAbove fs.length ns' ts') := by
      rw [Bool.or_assoc, Bool.or_assoc, htop]
    rw [opened, opened, hbound]
    refine congrArg _ (ih ?_)
    intro i hi
    have hlow := h i (by simp only [List.length_cons]; omega)
    cases inside <;> cases inside' <;> simp_all

theorem written_append {more : Elements} (h : row'.reverse = row.reverse ++ more) :
    written config row' fs os = written config row fs os ++ more.render config := by
  cases fs with
  | nil => rw [written, written, h, Elements.render_append] <;> simp
  | cons f fs => cases os with
    | nil => rw [written, written, h, Elements.render_append] <;> simp
    | cons o os => rw [written, written, h, Elements.render_append, List.append_assoc _ _ (more.render config)]

/-- Closing the innermost element adds what it was still missing. -/
theorem written_closed (ho : t.opens = true) (before : Elements) (close : Option EndTag)
    (fs : List Frame) (os : List Open) :
    written config (.element t row.reverse close before) fs os =
      written config row (⟨t, before⟩ :: fs) (⟨t, t.isBound || row.isBound⟩ :: os) ++
        (if t.isBound || row.isBound then Markup.closer t.name
          else (close.map EndTag.source).getD []) := by
  rw [written_append (Elements.reverse_element t row.reverse before close), render_closed ho, written]
  simp only [List.append_assoc]

theorem isBound_closed (f : Frame) (row : Elements) (close : Option EndTag) :
    (Elements.element f.tag row.reverse close f.before).isBound =
      (f.tag.isBound || row.isBound || f.before.isBound) := by
  rw [Elements.isBound, Elements.isBound_reverse]

/-- At the end of the input everything that is open is closed. -/
theorem render_finish (h : ∀ f ∈ fs, f.tag.opens = true) (ns : List Text) (row : Elements) :
    (Nesting.finish row fs).render config =
      written config row fs (opened ns [] row.isBound fs) ++
        closers (opened ns [] row.isBound fs) := by
  induction fs generalizing row with
  | nil => simp [Nesting.finish, written, opened, closers]
  | cons f fs ih =>
    have hf := h f (by simp)
    have hfs : ∀ g ∈ fs, g.tag.opens = true := fun g hg => h g (by simp [hg])
    rw [Nesting.finish, ih hfs, isBound_closed, written_closed hf, opened]
    simp [boundAbove, closers]

/-- An end tag that matches nothing stays where it is. -/
theorem close?_eq_none (h : Nesting.close? e row fs = none) : e.key ∉ keys fs := by
  induction fs generalizing row with
  | nil => simp [keys]
  | cons f fs ih =>
    rw [Nesting.close?] at h
    split at h
    · simp at h
    · next hf =>
      simp only [keys, List.map_cons, List.mem_cons, not_or]
      exact ⟨fun he => hf he.symm, ih h⟩

theorem close?_eq_some (h : Nesting.close? e row fs = some n) : e.key ∈ keys fs := by
  induction fs generalizing row with
  | nil => simp [Nesting.close?] at h
  | cons f fs ih =>
    rw [Nesting.close?] at h
    split at h
    · next hf => simp [keys, hf]
    · exact List.mem_cons_of_mem _ (ih h)

theorem write_stop_stray (h : e.key ∉ names os) :
    write config.decode os (.stop e :: ts) = e.source ++ write config.decode os ts := by
  have hd : os.dropWhile (fun o => decide (o.tag.key ≠ e.key)) = [] := by
    rw [List.dropWhile_eq_nil_iff]
    intro o ho
    have : o.tag.key ≠ e.key := fun he => h (List.mem_map.mpr ⟨o, ho, he⟩)
    simpa using this
  rw [write, hd]

theorem write_stop_self {o : Open} (h : o.tag.key = e.key) :
    write config.decode (o :: os) (.stop e :: ts) =
      (if o.bound then Markup.closer o.tag.name else e.source) ++ write config.decode os ts := by
  rw [write, List.dropWhile_cons_of_neg (by simp [h]), List.takeWhile_cons_of_neg (by simp [h])]
  simp [closers]

theorem write_stop_of_ne {o : Open} (h : o.tag.key ≠ e.key) (he : e.key ∈ names os) :
    write config.decode (o :: os) (.stop e :: ts) =
      (if o.bound then Markup.closer o.tag.name else []) ++ write config.decode os (.stop e :: ts) := by
  rw [write, write, List.dropWhile_cons_of_pos (by simp [h]), List.takeWhile_cons_of_pos (by simp [h])]
  cases hd : os.dropWhile (fun o => decide (o.tag.key ≠ e.key)) with
  | nil =>
    rw [List.dropWhile_eq_nil_iff] at hd
    obtain ⟨p, hp, hpe⟩ := List.mem_map.mp he
    simpa [hpe] using hd p hp
  | cons p outside => simp [closers]

theorem length_keys (fs : List Frame) : (keys fs).length = fs.length := List.length_map ..

/-- What comes after an end tag counts for the elements that it leaves open. -/
theorem boundAbove_stop_self {f : Frame} (hf : f.tag.key = e.key) {i : Nat} (hi : i ≤ fs.length) :
    boundAbove i (keys (f :: fs)) (.stop e :: ts) = boundAbove i (keys fs) ts := by
  rw [boundAbove_cons (by rw [length_keys, List.length_cons]; omega)]
  simp only [keys, List.map_cons, hf, pass_stop_self, Token.isBound, Bool.false_or]

theorem boundAbove_stop_of_ne {f : Frame} (hf : f.tag.key ≠ e.key) (he : e.key ∈ keys fs) {i : Nat}
    (hi : i ≤ fs.length) :
    boundAbove i (keys (f :: fs)) (.stop e :: ts) = boundAbove i (keys fs) (.stop e :: ts) := by
  rw [boundAbove_cons (by rw [length_keys, List.length_cons]; omega)]
  have hpass : pass (keys (f :: fs)) (.stop e) = pass (keys fs) (.stop e) := pass_stop_of_ne hf he
  rw [hpass]
  rcases Nat.lt_or_ge i (keys fs).length with hlt | hge
  · rw [boundAbove_cons hlt]
  · have hlen := length_pass_stop_lt he
    rw [boundAbove_of_le hge, boundAbove_of_le (by omega)]
    rfl

/-- An end tag that matches: the pass writes what the nesting closes. -/
theorem written_close (h : Nesting.close? e row fs = some n) (ho : ∀ f ∈ fs, f.tag.opens = true) :
    written config row fs (opened (keys fs) (.stop e :: ts) row.isBound fs) ++
        write config.decode (opened (keys fs) (.stop e :: ts) row.isBound fs) (.stop e :: ts) =
      written config n.row n.frames (opened (keys n.frames) ts n.row.isBound n.frames) ++
        write config.decode (opened (keys n.frames) ts n.row.isBound n.frames) ts := by
  induction fs generalizing row with
  | nil => simp [Nesting.close?] at h
  | cons f fs ih =>
    have hf := ho f (by simp)
    have hfs : ∀ g ∈ fs, g.tag.opens = true := fun g hg => ho g (by simp [hg])
    rw [Nesting.close?] at h
    split at h
    · next hkey =>
      cases h
      have hdone : boundAbove fs.length (keys (f :: fs)) (.stop e :: ts) = false := by
        rw [boundAbove_stop_self hkey (Nat.le_refl _)]
        exact boundAbove_of_le (Nat.le_of_eq (length_keys fs))
      have hrest : opened (keys (f :: fs)) (.stop e :: ts)
          (f.tag.isBound || row.isBound || f.before.isBound) fs =
            opened (keys fs) ts (f.tag.isBound || row.isBound || f.before.isBound) fs :=
        opened_congr (fun i hi => by rw [boundAbove_stop_self hkey (Nat.le_of_lt hi)])
      simp only [opened, hdone, Bool.or_false, hrest]
      rw [isBound_closed, written_closed hf, write_stop_self hkey]
      simp
    · next hkey =>
      have he := close?_eq_some h
      have hdone : boundAbove fs.length (keys (f :: fs)) (.stop e :: ts) = false := by
        rw [boundAbove_stop_of_ne hkey he (Nat.le_refl _)]
        exact boundAbove_of_le (Nat.le_of_eq (length_keys fs))
      have hrest : opened (keys (f :: fs)) (.stop e :: ts)
          (f.tag.isBound || row.isBound || f.before.isBound) fs =
            opened (keys fs) (.stop e :: ts) (f.tag.isBound || row.isBound || f.before.isBound) fs :=
        opened_congr (fun i hi => by rw [boundAbove_stop_of_ne hkey he (Nat.le_of_lt hi)])
      have hnext := ih h hfs
      rw [isBound_closed, written_closed hf] at hnext
      simp only [opened, hdone, Bool.or_false, hrest]
      rw [write_stop_of_ne hkey (by rwa [names_opened]), ← hnext]
      simp

theorem frames_close? (h : Nesting.close? e row fs = some n) : ∀ f ∈ n.frames, f ∈ fs := by
  induction fs generalizing row with
  | nil => simp [Nesting.close?] at h
  | cons f fs ih =>
    rw [Nesting.close?] at h
    split at h
    · cases h
      exact fun g hg => List.mem_cons_of_mem _ hg
    · exact fun g hg => List.mem_cons_of_mem _ (ih h g hg)

theorem opens_push (ho : ∀ f ∈ n.frames, f.tag.opens = true) (tok : Token) :
    ∀ f ∈ (n.push tok).frames, f.tag.opens = true := by
  cases tok with
  | raw o s => exact ho
  | start t =>
    rw [Nesting.push]
    split
    · next ht =>
      intro f hf
      rcases List.mem_cons.mp hf with rfl | hf
      · exact ht
      · exact ho f hf
    · exact ho
  | stop e =>
    rw [Nesting.push]
    cases h : Nesting.close? e n.row n.frames with
    | none => exact ho
    | some m => exact fun f hf => ho f (frames_close? h f hf)

/-- A new element is bound by its own tag or by what comes inside it, and so are those around it. -/
theorem opened_start (ht : t.opens = true) :
    opened (keys fs) (.start t :: ts) inside fs =
      opened (t.key :: keys fs) ts (bindsFrom (keys fs) t ts || inside) fs := by
  refine opened_congr (fun i hi => ?_)
  rw [boundAbove_cons (by rwa [length_keys]), bindsFrom, ht, Bool.true_and, length_keys]
  simp only [pass, ht, if_true, Token.isBound]
  have hmono := @boundAbove_mono ts i fs.length (Nat.le_of_lt hi) (t.key :: keys fs)
  cases hhigh : boundAbove fs.length (t.key :: keys fs) ts with
  | true => simp [hmono hhigh]
  | false => cases inside <;> simp

/-- The open elements of a nesting before the tokens `ts`. -/
def openedOf (n : Nesting) (ts : List Token) : List Open :=
  opened (keys n.frames) ts n.row.isBound n.frames

/-- The text of a nesting, with what the pass writes for the tokens that are still to come. -/
def output (config : Config) (n : Nesting) (ts : List Token) : Text :=
  written config n.row n.frames (openedOf n ts) ++ write config.decode (openedOf n ts) ts

/-- A token that leaves what is open alone marks the row by its own mark at most. -/
theorem openedOf_cons {tok : Token} {row : Elements} (hp : pass (keys n.frames) tok = keys n.frames)
    (hr : row.isBound = (tok.isBound || n.row.isBound)) :
    openedOf n (tok :: ts) = openedOf { n with row := row } ts := by
  refine opened_congr (fun i hi => ?_)
  rw [boundAbove_cons (by rwa [length_keys]), hp, hr]
  cases tok.isBound <;> simp

theorem output_raw (o : Nat) (s : Text) :
    output config n (.raw o s :: ts) = output config (n.push (.raw o s)) ts := by
  have hos : openedOf n (.raw o s :: ts) = openedOf (n.push (.raw o s)) ts := openedOf_cons rfl rfl
  have hs : (Elements.raw o s .nil).render config = s := by
    rw [Elements.render_raw]
    exact List.append_nil s
  rw [output, hos, write, output, Nesting.push, written_append (Elements.reverse_raw o s n.row), hs,
    List.append_assoc]

/-- A start tag that opens an element. -/
theorem output_open (ht : t.opens = true) :
    output config n (.start t :: ts) = output config (n.push (.start t)) ts := by
  have hbound : bindsFrom (keys n.frames) t ts =
      (t.isBound || boundAbove n.frames.length (t.key :: keys n.frames) ts) := by
    rw [bindsFrom, ht, Bool.true_and, length_keys]
  have hos : openedOf n (.start t :: ts) = opened (t.key :: keys n.frames) ts
      (bindsFrom (keys n.frames) t ts || n.row.isBound) n.frames := opened_start ht
  have hnew : openedOf ⟨.nil, ⟨t, n.row⟩ :: n.frames⟩ ts =
      ⟨t, bindsFrom (keys n.frames) t ts⟩ :: openedOf n (.start t :: ts) := by
    rw [hos, hbound]
    simp [openedOf, opened, keys, Elements.isBound]
  have hnames : names (openedOf n (.start t :: ts)) = keys n.frames := names_opened ..
  rw [output, output, write, hnames, Nesting.push]
  simp only [ht, if_true, hnew, written, List.append_assoc]
  rfl

/-- A start tag that nothing is put into. -/
theorem output_single (ht : t.opens = false) (hm : t.isBound = true → t.ending ≠ .missing) :
    output config n (.start t :: ts) = output config (n.push (.start t)) ts := by
  have hpass : pass (keys n.frames) (.start t) = keys n.frames := by simp [pass, ht]
  have hos : openedOf n (.start t :: ts) =
      openedOf { n with row := .element t .nil none n.row } ts :=
    openedOf_cons hpass (by simp [Elements.isBound, Token.isBound])
  have hnames : names (openedOf n (.start t :: ts)) = keys n.frames := names_opened ..
  have hbound : bindsFrom (keys n.frames) t ts = t.isBound := by
    rw [bindsFrom, ht, Bool.false_and, Bool.or_false]
  rw [output, output, write, hnames, Nesting.push, hbound]
  simp only [ht, Bool.false_eq_true, if_false, hos]
  rw [written_append (Elements.reverse_element t .nil n.row none), render_single ht hm,
    List.append_assoc]

/-- An end tag that matches nothing. -/
theorem output_stray (h : Nesting.close? e n.row n.frames = none) :
    output config n (.stop e :: ts) = output config (n.push (.stop e)) ts := by
  have hk := close?_eq_none h
  have hos : openedOf n (.stop e :: ts) = openedOf { n with row := .stray e n.row } ts :=
    openedOf_cons (if_neg hk) rfl
  have hw : write config.decode (openedOf n (.stop e :: ts)) (.stop e :: ts) =
      e.source ++ write config.decode (openedOf n (.stop e :: ts)) ts :=
    write_stop_stray (by rwa [openedOf, names_opened])
  have he : (Elements.stray e .nil).render config = e.source := by
    rw [Elements.render_stray]
    exact List.append_nil e.source
  rw [output, hw, hos, output, Nesting.push, h, Option.getD_none,
    written_append (Elements.reverse_stray e n.row), he, List.append_assoc]

/-- One token keeps the two in step. -/
theorem output_push {tok : Token} (ho : ∀ f ∈ n.frames, f.tag.opens = true)
    (hm : ∀ t, tok = .start t → t.isBound = true → t.ending ≠ .missing) :
    output config n (tok :: ts) = output config (n.push tok) ts := by
  cases tok with
  | raw o s => exact output_raw o s
  | start t =>
    cases ht : t.opens with
    | true => exact output_open ht
    | false => exact output_single ht (hm t rfl)
  | stop e =>
    cases h : Nesting.close? e n.row n.frames with
    | none => exact output_stray h
    | some m =>
      rw [Nesting.push, h]
      exact written_close h ho

/-- The whole run keeps the two in step. -/
theorem output_run (ts : List Token) (n : Nesting) (ho : ∀ f ∈ n.frames, f.tag.opens = true)
    (hm : ∀ t, Token.start t ∈ ts → t.isBound = true → t.ending ≠ .missing) :
    (Nesting.finish (ts.foldl Nesting.push n).row (ts.foldl Nesting.push n).frames).render config =
      output config n ts := by
  induction ts generalizing n with
  | nil => exact render_finish ho (keys n.frames) n.row
  | cons tok ts ih =>
    rw [List.foldl_cons, ih (n.push tok) (opens_push ho tok) (fun t ht => hm t (by simp [ht]))]
    exact (output_push ho (fun t ht => hm t (by simp [ht]))).symm

/-- An untouched document is what one pass over the tokens of its source writes. -/
theorem markup_plantView_eq_write (s : Store) (config : Config) (input : Text) (m : Markup)
    (h : Markup.parse config input = .ok m) :
    (s.plantView m.forest).1.markup (s.plantView m.forest).2 =
      write config.decode [] (Token.scan input) := by
  have hread : (s.plantView m.forest).1.markup (s.plantView m.forest).2 = m.forest.render :=
    congrArg Forest.render (Store.labels_plantList s m.forest)
  obtain ⟨hcut, -, rfl⟩ := Markup.parse_eq_ok_iff.mp h
  rw [hread]
  exact (output_run (Token.scan input) Nesting.start (by simp [Nesting.start])
    (fun t ht hb => StartTag.ends_of_bound hcut ht hb)).trans (List.nil_append _)

/-- Two elements that the input leaves open, a repeated key and a bound element that closes itself. -/
theorem markup_open_items : ∃ m,
    Markup.parse {} "<ul data-scope=s><li Q=a q=b>x<b data-prop/>y</ul>z<p data-prop>w".toList = .ok m ∧
      (Store.empty.plantView m.forest).1.markup (Store.empty.plantView m.forest).2 =
        "<ul data-scope=\"s\"><li q=\"a\">x<b data-prop></b>y</li></ul>z<p data-prop>w</p>".toList := by
  let input := "<ul data-scope=s><li Q=a q=b>x<b data-prop/>y</ul>z<p data-prop>w".toList
  have hcut : cutOff? (Token.scan input) = none := by decide +kernel
  have hdeep : (Elements.ofTokens (Token.scan input)).tooDeep? 512 = none := by decide +kernel
  have hparse : Markup.parse {} input =
      .ok (Markup.ofElements {} (Elements.ofTokens (Token.scan input))) :=
    Markup.parse_eq_ok_iff.mpr ⟨hcut, hdeep, rfl⟩
  refine ⟨_, hparse, (markup_plantView_eq_write Store.empty {} input _ hparse).trans ?_⟩
  decide +kernel

end TemplateTree.FlatScan
