import TemplateTree.Proofs.Markup.BindingPoints

/-! What the parser makes of the tokens. Elements are kept apart only where a binding key calls for
it; everything between them is texts, each of them a stretch of the source. -/
namespace TemplateTree

open FlatScan (Open chains)

universe u

/-- The pieces stand in the text one behind the other. -/
inductive Text.InOrder : List Text → Text → Prop
  | nil (s : Text) : InOrder [] s
  | cons {pieces : List Text} {rest : Text} (gap piece : Text) (hrest : InOrder pieces rest) :
    InOrder (piece :: pieces) (gap ++ (piece ++ rest))

namespace Text

variable {ps qs : List Text} {r s : Text}

theorem InOrder.skip (h : InOrder ps s) (gap : Text) : InOrder ps (gap ++ s) := by
  cases h with
  | nil => exact .nil _
  | cons before piece hrest =>
    rw [← List.append_assoc]
    exact .cons _ piece hrest

theorem InOrder.append (h : InOrder ps s) (h' : InOrder qs r) : InOrder (ps ++ qs) (s ++ r) := by
  induction h with
  | nil s => exact h'.skip s
  | cons gap piece _ ih =>
    rw [List.append_assoc, List.append_assoc]
    exact .cons gap piece ih

end Text

namespace Forest

variable {α : Type u}

/-- The trees with children. Inside such a tree is what its first child, the slot, holds. -/
def elements : Forest α → Forest α
  | nil => nil
  | cons _ nil rest => elements rest
  | cons a (cons _ inner _) rest => cons a (elements inner) (elements rest)

/-- The contents of the trees without children, from left to right, also inside the others. -/
def slices : Forest Label → List Text
  | nil => []
  | cons label nil rest => label.content :: slices rest
  | cons _ (cons _ inner _) rest => slices inner ++ slices rest

/-- The row does not begin with a tree without children. -/
def Apart (f : Forest α) : Prop := ∀ a rest, f ≠ .cons a .nil rest

theorem apart_nil : (nil : Forest α).Apart := fun _ _ h => by cases h

theorem apart_element {a slot : α} {inner parts rest : Forest α} :
    (cons a (cons slot inner parts) rest).Apart := fun _ _ h => by cases h

end Forest

namespace Token

theorem startTags_append (ts us : List Token) :
    startTags (ts ++ us) = startTags ts ++ startTags us :=
  List.filterMap_append ..

theorem source_ne_nil {o : Nat} {s : Text} {tok : Token} (h : tok ∈ scanFrom o s) :
    tok.source ≠ [] := by
  fun_induction scanFrom o s with
  | case1 => cases h
  | case2 o s hs first after bodyAt body ih =>
    rcases List.mem_cons.mp h with rfl | h
    · exact source_next_ne_nil o s hs
    rcases List.mem_append.mp h with h | h
    · by_cases hb : body = []
      · simp [ofBody, hb] at h
      · simp only [ofBody, if_neg hb, List.mem_singleton] at h
        rw [h]
        exact hb
    · exact ih h

end Token

namespace Markup

variable {config : Config} {input : Text} {m : Markup} {ts us run : List Token} {f g : Forest Label}
  {t : StartTag} {es : Elements}

/-- The label of an element's own node. -/
def labelOf (decode : Bool) (t : StartTag) : Label :=
  ⟨'<' :: t.name, (Tag.ofStart decode t).attributes⟩

/-- A run of tokens as a row of texts and elements. -/
inductive Represents (config : Config) : List Token → Forest Label → Prop
  | nil : Represents config [] .nil
  /-- A text is the source of a run of tokens, none of which has a binding key. -/
  | leaf {run ts : List Token} {f : Forest Label} (hsource : Token.sources run ≠ [])
    (hplain : ∀ t ∈ Token.startTags run, t.isBound = false)
    (hapart : config.merge = true → f.Apart)
    (hrest : Represents config ts f) :
    Represents config (run ++ ts) (.cons (Label.leaf (Token.sources run)) .nil f)
  /-- An element has a binding key itself, or an element inside it has one. -/
  | element {t : StartTag} {inside ts : List Token} {close : Option EndTag} {f g : Forest Label}
    (hbound : t.isBound = true ∨ ∃ l ∈ f.elements.preorder, l.attributes.hasBinding = true)
    (hclose : ∀ e ∈ close, e.key = t.key) (hinside : Represents config inside f)
    (hrest : Represents config ts g) :
    Represents config (.start t :: inside ++ (close.map Token.stop).toList ++ ts)
      (.cons (labelOf config.decode t)
        (.cons (Label.leaf (Tag.ofStart config.decode t).slot) f
          (if t.isVoid then .nil else .cons (Label.leaf (closer t.name)) .nil .nil)) g)

/-- Reading in order, the texts are stretches of the source. -/
theorem Represents.inOrder (h : Represents config ts f) :
    Text.InOrder f.slices (Token.sources ts) := by
  induction h with
  | nil => exact .nil []
  | @leaf run ts f _ _ _ _ ih =>
    rw [Token.sources_append]
    exact .cons [] _ ih
  | @element t inside ts close f g _ _ _ _ ihi ihr =>
    have hsources : Token.sources (.start t :: inside ++ (close.map Token.stop).toList ++ ts) =
        t.source ++ (Token.sources inside ++
          (Token.sources (close.map Token.stop).toList ++ Token.sources ts)) := by
      simp [Token.sources, Token.source]
    rw [hsources]
    exact (ihi.append (ihr.skip _)).skip _

/-- The first text, when it is not kept apart from what follows. -/
theorem Represents.leaf_cases {label : Label} (h : Represents config ts (.cons label .nil f)) :
    ∃ run us, ts = run ++ us ∧ label = Label.leaf (Token.sources run) ∧
      (∀ t ∈ Token.startTags run, t.isBound = false) ∧
      (config.merge = true → f.Apart) ∧ Represents config us f := by
  cases h with
  | leaf hsource hplain hapart hrest => exact ⟨_, _, rfl, rfl, hplain, hapart, hrest⟩

/-- Puts the source of a run in front, as one with a text that follows when texts are merged. -/
theorem represents_addText (hsource : Token.sources run ≠ [])
    (hplain : ∀ t ∈ Token.startTags run, t.isBound = false) (h : Represents config ts m.forest) :
    Represents config (run ++ ts) (m.addText config.merge (Token.sources run)).forest := by
  cases m with
  | nil => exact .leaf hsource hplain (fun _ => Forest.apart_nil) h
  | element tag inner rest => exact .leaf hsource hplain (fun _ => Forest.apart_element) h
  | text s rest =>
    rw [addText]
    by_cases hm : config.merge = true
    · obtain ⟨run', us, rfl, hlabel, hplain', hapart, hrest⟩ := h.leaf_cases
      have hs : s = Token.sources run' := congrArg Label.content hlabel
      have hjoin : Token.sources run ++ s = Token.sources (run ++ run') := by
        rw [hs, Token.sources_append]
      rw [if_pos hm, forest, hjoin, ← List.append_assoc]
      refine .leaf ?_ ?_ hapart hrest
      · rw [Token.sources_append]
        exact List.append_ne_nil_of_left_ne_nil hsource _
      · intro t ht
        rw [Token.startTags_append, List.mem_append] at ht
        rcases ht with ht | ht
        · exact hplain t ht
        · exact hplain' t ht
    · rw [if_neg hm]
      exact .leaf hsource hplain (fun hmerge => absurd hmerge hm) h

theorem elements_addText (merge : Bool) (source : Text) (m : Markup) :
    (m.addText merge source).forest.elements = m.forest.elements := by
  cases m with
  | nil => rfl
  | text s rest => cases merge <;> rfl
  | element tag inner rest => rfl

theorem exists_hasBinding (config : Config) (h : es.isBound = true) :
    ∃ l ∈ (ofElements config es).forest.elements.preorder, l.attributes.hasBinding = true := by
  induction es with
  | nil => cases h
  | raw o s rest ih | stray e rest ih =>
    rw [ofElements, elements_addText]
    exact ih h
  | element t inner close rest ihi ihr =>
    rw [Elements.isBound, Bool.or_eq_true] at h
    rw [ofElements]
    by_cases hb : (t.isBound || inner.isBound) = true
    · rw [if_pos hb]
      rcases Bool.or_eq_true_iff.mp hb with ht | hi
      · exact ⟨_, List.mem_cons_self, (Tag.hasBinding_ofStart config.decode t).trans ht⟩
      · obtain ⟨l, hl, hbinding⟩ := ihi hi
        exact ⟨l, List.mem_cons_of_mem _ (List.mem_append_left _ hl), hbinding⟩
    · rw [if_neg hb, elements_addText]
      exact ihr (h.resolve_left hb)

theorem unbound_startTags (h : es.isBound = false) : ∀ t ∈ Token.startTags es.tokens,
    t.isBound = false := by
  intro t ht
  rw [Elements.isBound_eq_any, List.any_eq_false] at h
  simpa [Token.isBound] using h _ (Token.mem_startTags.mp ht)

/-- An element is kept, or its source is a text. -/
theorem represents_element {inner rest : Elements} {close : Option EndTag}
    (hclose : ∀ e ∈ close, e.key = t.key)
    (hinner : Represents config inner.tokens (ofElements config inner).forest)
    (hrest : Represents config rest.tokens (ofElements config rest).forest) :
    Represents config (Elements.element t inner close rest).tokens
      (ofElements config (.element t inner close rest)).forest := by
  have htokens : (Elements.element t inner close rest).tokens =
      .start t :: inner.tokens ++ (close.map Token.stop).toList ++ rest.tokens := by
    simp [Elements.tokens]
  rw [htokens, ofElements]
  by_cases hb : (t.isBound || inner.isBound) = true
  · rw [if_pos hb]
    refine .element ?_ hclose hinner hrest
    rcases Bool.or_eq_true_iff.mp hb with ht | hi
    · exact Or.inl ht
    · exact Or.inr (exists_hasBinding config hi)
  · have hplain := Bool.or_eq_false_iff.mp (Bool.eq_false_iff.mpr hb)
    have hsource : t.source ++ (inner.source ++ (close.map EndTag.source).getD []) =
        Token.sources (.start t :: inner.tokens ++ (close.map Token.stop).toList) := by
      rw [Elements.source_eq]
      cases close <;> simp [Token.sources, Token.source]
    rw [if_neg hb, hsource]
    refine represents_addText ?_ ?_ hrest
    · simp [Token.sources, Token.source, StartTag.source]
    · have hnone : ∀ u, u ∉ Token.startTags (close.map Token.stop).toList := by
        intro u hu
        cases close <;> simp [Token.mem_startTags] at hu
      intro u hu
      rw [Token.startTags_append, List.mem_append] at hu
      have hin := hu.resolve_right (hnone u)
      rcases List.mem_cons.mp (Token.mem_startTags.mp hin) with hself | hin
      · obtain rfl := Token.start.inj hself
        exact hplain.1
      · exact unbound_startTags hplain.2 u (Token.mem_startTags.mpr hin)

theorem represents_ofElements {ns : List Text} (hes : es.Nested ns)
    (hsource : ∀ tok ∈ es.tokens, tok.source ≠ []) :
    Represents config es.tokens (ofElements config es).forest := by
  have single (tok : Token) (htok : tok.source ≠ []) : Token.sources [tok] ≠ [] := by
    simpa [Token.sources] using htok
  induction hes with
  | nil => exact .nil
  | @raw ns rest o s _ ih =>
    obtain ⟨hs, hrest⟩ := List.forall_mem_cons.mp hsource
    have hrun : s = Token.sources [.raw o s] := by simp [Token.sources, Token.source]
    rw [ofElements]
    conv in addText _ s _ => rw [hrun]
    exact represents_addText (single _ hs) (by simp [Token.mem_startTags]) (ih hrest)
  | @stray ns rest e _ _ ih =>
    obtain ⟨he, hrest⟩ := List.forall_mem_cons.mp hsource
    have hrun : e.source = Token.sources [.stop e] := by simp [Token.sources, Token.source]
    rw [ofElements, hrun]
    exact represents_addText (single _ he) (by simp [Token.mem_startTags]) (ih hrest)
  | single ht _ ih =>
    exact represents_element (by simp) .nil (ih fun tok htok => hsource tok (by simp [Elements.tokens, htok]))
  | closed ht he hno _ _ ihi ihr =>
    refine represents_element (by simpa using he) (ihi fun tok htok => ?_) (ihr fun tok htok => ?_)
    · exact hsource tok (by simp [Elements.tokens, htok])
    · exact hsource tok (by simp [Elements.tokens, htok])
  | unclosed ht _ ih =>
    exact represents_element (by simp) (ih fun tok htok => hsource tok (by simp [Elements.tokens, htok])) .nil

end Markup

namespace FlatScan

theorem tags_chains (os : List Open) (ts : List Token) :
    (chains os ts).map (·.element.tag) = Token.startTags ts := by
  induction ts generalizing os with
  | nil => rfl
  | cons tok ts ih => cases tok with
    | raw | stop => exact ih _
    | start t => exact congrArg (List.cons t) (ih _)

end FlatScan

namespace Elements

variable {es : Elements} {os : List Open} {c : Chain}

theorem around_chains (hc : c ∈ es.chains os) : ∀ o ∈ os, o ∈ c.around := by
  induction es generalizing os with
  | nil => cases hc
  | raw _ _ rest ih | stray e rest ih => exact ih hc
  | element t inner close rest ihi ihr =>
    rcases List.mem_cons.mp hc with rfl | hc
    · exact fun o ho => ho
    rcases List.mem_append.mp hc with hc | hc
    · exact fun o ho => ihi hc o (List.mem_cons_of_mem _ ho)
    · exact ihr hc

theorem exists_chain_isBound (h : es.isBound = true) (os : List Open) :
    ∃ c ∈ es.chains os, c.element.tag.isBound = true := by
  induction es generalizing os with
  | nil => cases h
  | raw _ _ rest ih | stray e rest ih => exact ih h os
  | element t inner close rest ihi ihr =>
    rw [isBound, Bool.or_eq_true, Bool.or_eq_true] at h
    rcases h with (ht | hi) | hr
    · exact ⟨_, List.mem_cons_self, ht⟩
    · obtain ⟨c, hc, hbound⟩ := ihi hi (⟨t, t.isBound || inner.isBound⟩ :: os)
      exact ⟨c, List.mem_cons_of_mem _ (List.mem_append_left _ hc), hbound⟩
    · obtain ⟨c, hc, hbound⟩ := ihr hr os
      exact ⟨c, List.mem_cons_of_mem _ (List.mem_append_right _ hc), hbound⟩

/-- A binding key makes its element and all elements around it bound. -/
theorem bound_of_isBound (hc : c ∈ es.chains os) (h : c.element.tag.isBound = true) :
    c.element.bound = true ∧ ∀ o ∈ c.around, o ∈ os ∨ o.bound = true := by
  induction es generalizing os with
  | nil => cases hc
  | raw _ _ rest ih | stray e rest ih => exact ih hc
  | element t inner close rest ihi ihr =>
    rcases List.mem_cons.mp hc with rfl | hc
    · exact ⟨Bool.or_eq_true_iff.mpr (Or.inl h), fun o ho => Or.inl ho⟩
    rcases List.mem_append.mp hc with hc | hc
    · obtain ⟨hself, haround⟩ := ihi hc
      refine ⟨hself, fun o ho => ?_⟩
      rcases haround o ho with ho | ho
      · rcases List.mem_cons.mp ho with rfl | ho
        · refine Or.inr (Bool.or_eq_true_iff.mpr (Or.inr ?_))
          by_contra hinner
          have hnone := chains_unbound (Bool.eq_false_iff.mpr hinner) _ c hc
          exact Bool.false_ne_true (hnone.symm.trans hself)
        · exact Or.inl ho
      · exact Or.inr ho
    · exact ihr hc

theorem isBound_of_bound (hc : c ∈ es.chains os) (h : c.element.bound = true) :
    c.element.tag.isBound = true ∨
      ∃ d ∈ es.chains os, c.element ∈ d.around ∧ d.element.tag.isBound = true := by
  induction es generalizing os with
  | nil => cases hc
  | raw _ _ rest ih | stray e rest ih => exact ih hc
  | element t inner close rest ihi ihr =>
    rcases List.mem_cons.mp hc with rfl | hc
    · rcases Bool.or_eq_true_iff.mp h with ht | hi
      · exact Or.inl ht
      · obtain ⟨d, hd, hbound⟩ := exists_chain_isBound hi (⟨t, t.isBound || inner.isBound⟩ :: os)
        refine Or.inr ⟨d, List.mem_cons_of_mem _ (List.mem_append_left _ hd), ?_, hbound⟩
        exact around_chains hd _ List.mem_cons_self
    rcases List.mem_append.mp hc with hc | hc
    · refine (ihi hc).imp_right ?_
      rintro ⟨d, hd, hin⟩
      exact ⟨d, List.mem_cons_of_mem _ (List.mem_append_left _ hd), hin⟩
    · refine (ihr hc).imp_right ?_
      rintro ⟨d, hd, hin⟩
      exact ⟨d, List.mem_cons_of_mem _ (List.mem_append_right _ hd), hin⟩

/-- The elements that are kept are the bound ones, each below those around it. -/
theorem rows_elements (config : Config) (es : Elements) (os : List Open) :
    (Markup.ofElements config es).forest.elements.rows os.length =
      ((es.chains os).filter (·.element.bound)).map fun c =>
        (c.around.length, Markup.labelOf config.decode c.element.tag) := by
  induction es generalizing os with
  | nil => rfl
  | raw _ _ rest ih | stray e rest ih =>
    rw [Markup.ofElements, Markup.elements_addText]
    exact ih os
  | element t inner close rest ihi ihr =>
    rw [Markup.ofElements, chains]
    by_cases hb : (t.isBound || inner.isBound) = true
    · have hinner := ihi (⟨t, true⟩ :: os)
      rw [List.length_cons] at hinner
      rw [if_pos hb, hb, List.filter_cons_of_pos rfl, List.filter_append, List.map_cons,
        List.map_append, ← hinner, ← ihr os]
      rfl
    · have hf : (t.isBound || inner.isBound) = false := Bool.eq_false_iff.mpr hb
      have hnone : (inner.chains (⟨t, false⟩ :: os)).filter (·.element.bound) = [] := by
        refine List.filter_eq_nil_iff.mpr fun c hc hbound => ?_
        have hunbound := chains_unbound (Bool.or_eq_false_iff.mp hf).2 _ c hc
        exact Bool.false_ne_true (hunbound.symm.trans hbound)
      rw [if_neg hb, Markup.elements_addText, hf, List.filter_cons_of_neg Bool.false_ne_true,
        List.filter_append, hnone, ihr os, List.nil_append]

end Elements

namespace Markup

/-- A parsed document is kept as texts and elements. An element is kept apart exactly when it carries a
binding key or an element opened inside it does, and the elements that are kept are nested as their
tags are. -/
theorem represents_parse (h : parse config input = .ok m) (s : Store) :
    let f := (s.plantView m.forest).2.labels (s.plantView m.forest).1.list
    let ts := Token.scan input
    let cs := chains [] ts
    Token.sources ts = input ∧ Represents config ts f ∧ Text.InOrder f.slices input ∧
    cs.map (·.element.tag) = Token.startTags ts ∧
    (∀ c ∈ cs, c.element.bound = true ↔ c.element.tag.isBound = true ∨
      ∃ d ∈ cs, c.element ∈ d.around ∧ d.element.tag.isBound = true) ∧
    f.elements.rows 0 = (cs.filter (·.element.bound)).map fun c =>
      (c.around.length, labelOf config.decode c.element.tag) := by
  intro f ts cs
  obtain ⟨-, -, rfl⟩ := parse_eq_ok_iff.mp h
  have hf : f = (ofElements config (Elements.ofTokens ts)).forest := s.labels_plantView _
  have hcs : (Elements.ofTokens ts).chains [] = cs := FlatScan.chains_ofTokens ts
  have hsources : Token.sources ts = input := Token.sources_scan input
  have hrepresents : Represents config ts f := by
    have hes : Represents config (Elements.ofTokens ts).tokens f := by
      rw [hf]
      refine represents_ofElements (Elements.nested_ofTokens ts) fun tok htok => ?_
      rw [Elements.tokens_ofTokens] at htok
      exact Token.source_ne_nil htok
    rwa [Elements.tokens_ofTokens] at hes
  refine ⟨hsources, hrepresents, hsources ▸ hrepresents.inOrder, FlatScan.tags_chains [] ts, ?_, ?_⟩
  · intro c hc
    rw [← hcs] at hc ⊢
    constructor
    · exact Elements.isBound_of_bound hc
    · rintro (hself | ⟨d, hd, hin, hbound⟩)
      · exact (Elements.bound_of_isBound hc hself).1
      · exact ((Elements.bound_of_isBound hd hbound).2 _ hin).resolve_left List.not_mem_nil
  · rw [hf, ← hcs]
    exact Elements.rows_elements config _ []

/-- An end tag closes two elements that are still open, one of them with no binding key inside. -/
theorem represents_parse_list :
    let input := "<ul>a<li data-prop=x>b<li>c</ul>d<br data-scope=s/>e".toList
    ∃ m, parse {} input = .ok m ∧
      let f := (Store.empty.plantView m.forest).2.labels (Store.empty.plantView m.forest).1.list
      f.slices = ["a", "b<li>c", "d", "e"].map String.toList ∧ Text.InOrder f.slices input ∧
      (f.elements.rows 0).map (fun r => (r.1, r.2.content)) =
        [(0, "<ul".toList), (1, "<li".toList), (0, "<br".toList)] := by
  intro input
  have hcut : cutOff? (Token.scan input) = none := by decide +kernel
  have hdeep : (Elements.ofTokens (Token.scan input)).tooDeep? 512 = none := by decide +kernel
  have hparse : parse {} input = .ok (ofElements {} (Elements.ofTokens (Token.scan input))) :=
    parse_eq_ok_iff.mpr ⟨hcut, hdeep, rfl⟩
  obtain ⟨-, -, horder, -, -, hrows⟩ := represents_parse hparse Store.empty
  refine ⟨_, hparse, ?_, horder, ?_⟩
  · rw [Store.labels_plantView]
    decide +kernel
  · rw [hrows]
    decide +kernel

end Markup
end TemplateTree
