import TemplateTree.Proofs.Markup.Chains
import TemplateTree.Proofs.Markup.RoundTrip
import TemplateTree.Proofs.Token.Names

/-! The pass as tokens. What it writes are the sources of tokens, and they are read again as these
tokens: tags written anew end where they end, and every other token was read to its end before. -/
namespace TemplateTree.FlatScan

open Text Token

variable {decode : Bool} {os : List Open} {o : Open} {t : StartTag} {e : EndTag} {tok : Token}
  {ts : List Token} {s x after body : Text} {name : Text}

/-- An end tag as it is written anew. -/
def closing (name : Text) : Token := .stop ⟨0, name, ['>']⟩

/-- A start tag written anew. An element that cannot hold anything is closed at once. -/
def anew (decode : Bool) (t : StartTag) : List Token :=
  .start ((Tag.ofStart decode t).start t.offset) ::
    if t.ending == .selfClosed && !t.isVoid then [closing t.name] else []

/-- The end tags of open elements that are written anew. -/
def closings (os : List Open) : List Token :=
  os.flatMap fun o => if o.bound then [closing o.tag.name] else []

/-- What the pass writes for a token, with the tokens `ts` to come. -/
def piece (decode : Bool) (os : List Open) (ts : List Token) : Token → List Token
  | .raw o s => [.raw o s]
  | .start t => if bindsFrom (names os) t ts then anew decode t else [.start t]
  | .stop e =>
    match os.dropWhile (·.tag.key ≠ e.key) with
    | [] => [.stop e]
    | o :: _ => closings (os.takeWhile (·.tag.key ≠ e.key)) ++
        [if o.bound then closing o.tag.name else .stop e]

/-- What the pass writes for the tokens, up to the end of the input. -/
def rewrite (decode : Bool) (os : List Open) : List Token → List Token
  | [] => []
  | tok :: ts => piece decode os ts tok ++ rewrite decode (advance os ts tok) ts

/-- The elements that are open at the end of the input. -/
def left (os : List Open) : List Token → List Open
  | [] => os
  | tok :: ts => left (advance os ts tok) ts

theorem sources_singleton (tok : Token) : sources [tok] = tok.source := List.append_nil _

theorem source_closing (name : Text) : (closing name).source = Markup.closer name := by
  simp [closing, source, EndTag.source, Markup.closer]

theorem closings_cons (o : Open) (os : List Open) :
    closings (o :: os) = (if o.bound then [closing o.tag.name] else []) ++ closings os := rfl

theorem closers_cons (o : Open) (os : List Open) :
    closers (o :: os) = (if o.bound then Markup.closer o.tag.name else []) ++ closers os := rfl

theorem sources_closings (os : List Open) : sources (closings os) = closers os := by
  induction os with
  | nil => rfl
  | cons o os ih =>
    rw [closings_cons, closers_cons, sources_append, ih]
    cases o.bound
    · rfl
    · rw [if_pos rfl, if_pos rfl, sources_singleton, source_closing]

theorem source_start (tag : Tag) (p : Nat) : (Token.start (tag.start p)).source = tag.opening := by
  simp [source, StartTag.source, Tag.start, Tag.opening]

theorem sources_anew (decode : Bool) (t : StartTag) : sources (anew decode t) = opening decode t := by
  have hslot : (Tag.ofStart decode t).slot =
      if t.isVoid && t.ending == .selfClosed then "/>".toList else ">".toList := rfl
  have hname : (Tag.ofStart decode t).name = t.name := rfl
  rw [anew, sources_cons, source_start, Tag.opening, render_attributes_ofStart, opening, hslot, hname]
  have hnil : sources [] = [] := rfl
  cases t.isVoid <;> cases t.ending <;> simp [sources_singleton, source_closing, hnil]

/-- The pass writes the tokens, and then it closes what is open. -/
theorem write_eq_sources (os : List Open) (ts : List Token) :
    write decode os ts = sources (rewrite decode os ts) ++ closers (left os ts) := by
  induction ts generalizing os with
  | nil => simp [write, rewrite, left, sources]
  | cons tok ts ih =>
    rw [rewrite, left, sources_append, List.append_assoc, ← ih]
    cases tok with
    | raw o s =>
      rw [piece, sources_singleton]
      rfl
    | start t =>
      rw [write, piece, advance]
      cases bindsFrom (names os) t ts with
      | false =>
        rw [if_neg Bool.false_ne_true, if_neg Bool.false_ne_true, sources_singleton]
        rfl
      | true => rw [if_pos rfl, if_pos rfl, sources_anew]
    | stop e =>
      rw [write, piece, advance]
      cases os.dropWhile (·.tag.key ≠ e.key) with
      | nil =>
        rw [sources_singleton]
        rfl
      | cons o outside =>
        simp only [sources_append, sources_closings, sources_singleton]
        cases o.bound with
        | false => rfl
        | true => rw [if_pos rfl, if_pos rfl, source_closing]

/-- In front of `x` the tokens are read as they are. -/
def Rereads (us : List Token) (x : Text) : Prop :=
  words (sources us ++ x) = us.map (moveTo 0) ++ words x

variable {us vs : List Token}

theorem Rereads.nil (x : Text) : Rereads [] x := rfl

theorem Rereads.append (hu : Rereads us (sources vs ++ x)) (hv : Rereads vs x) :
    Rereads (us ++ vs) x := by
  rw [Rereads, sources_append, List.append_assoc, hu, hv, List.map_append, List.append_assoc]

theorem Rereads.cons (hu : Rereads [tok] (sources vs ++ x)) (hv : Rereads vs x) :
    Rereads (tok :: vs) x := hu.append hv

/-- A token without a body of its own. -/
theorem rereads_plain (h : ReadsBefore tok x) (hne : tok.source ≠ []) (hbody : tok.afterBody x = x) :
    Rereads [tok] x := by
  have hnil : tok.body x = [] := by
    have hwhole := body_append_afterBody tok x
    rw [hbody] at hwhole
    exact List.append_left_eq_self.mp hwhole
  rw [Rereads, sources_singleton, words_readsBefore h hne, hnil, hbody]
  rfl

theorem readsBefore_closing (hname : name.IsElementName) (x : Text) : ReadsBefore (closing name) x := by
  rw [ReadsBefore, source_closing]
  exact Tag.next_closer hname 0 x

theorem rereads_closing (hname : name.IsElementName) (x : Text) : Rereads [closing name] x := by
  refine rereads_plain (readsBefore_closing hname x) ?_ rfl
  rw [source_closing]
  exact List.cons_ne_nil _ _

theorem rereads_closings (hos : ∀ o ∈ os, o.tag.name.IsElementName) (x : Text) :
    Rereads (closings os) x := by
  induction os with
  | nil => exact Rereads.nil x
  | cons o os ih =>
    rw [closings_cons]
    refine Rereads.append ?_ (ih (fun p hp => hos p (by simp [hp])))
    cases o.bound with
    | false => exact Rereads.nil _
    | true => exact rereads_closing (hos o (by simp)) _

theorem readsBefore_written {tag : Tag} (ht : tag.Canonical) (p : Nat) (x : Text) :
    ReadsBefore (.start (tag.start p)) x := by
  rw [ReadsBefore, source_start]
  exact Tag.next_opening ht 0 x

/-- A start tag with a body that is not markup, up to where the body is closed. -/
theorem rereads_bodied (h : ∀ y, ReadsBefore (.start t) y) (ht : t.isOpaque = true)
    (hbody : upTo (StartTag.closesBody t.key) (body ++ x) = body) (p : Nat) :
    Rereads (.start t :: ofBody p body) x := by
  have hne : (Token.start t).source ≠ [] := by simp [source, StartTag.source]
  have hsplit : (Token.start t).body (body ++ x) = body ∧ (Token.start t).afterBody (body ++ x) = x := by
    have hwhole := body_append_afterBody (.start t) (body ++ x)
    have hup : (Token.start t).body (body ++ x) = body := by
      rw [Token.body, if_pos ht, hbody]
    rw [hup] at hwhole
    exact ⟨hup, List.append_cancel_left hwhole⟩
  rw [Rereads, sources_cons, sources_ofBody, List.append_assoc, words_readsBefore (h _) hne, hsplit.1,
    hsplit.2, List.map_cons, map_moveTo_ofBody]
  rfl

theorem afterBody_of_plain (ht : t.isOpaque = false) (x : Text) : (Token.start t).afterBody x = x := by
  simp [Token.afterBody, ht]

theorem isOpaque_written {tag : Tag} (ht : tag.Canonical) (p : Nat) :
    (tag.start p).isOpaque = tag.isOpaque := Markup.isOpaque_start ht p

/-- A start tag that was read is read again as it is written anew. A script that closes itself is
written with an empty body. -/
theorem rereads_anew (h : t.WellNamed) (hm : t.ending ≠ .missing) (hno : t.isOpaque = false)
    (decode : Bool) (x : Text) : Rereads (anew decode t) x := by
  let tag := Tag.ofStart decode t
  have htag : tag.Canonical := Tag.canonical_ofStart h decode
  have hread := readsBefore_written htag t.offset
  have hne : (Token.start (tag.start t.offset)).source ≠ [] := by simp [source, StartTag.source]
  have hbodied : (tag.start t.offset).isOpaque = opaqueNames.contains t.key := isOpaque_written htag _
  have hclosing := rereads_closing h.name x
  have hplain : opaqueNames.contains t.key = false → ∀ y, Rereads [.start (tag.start t.offset)] y :=
    fun hkey y => rereads_plain (hread y) hne (afterBody_of_plain (hbodied.trans hkey) y)
  rw [anew]
  by_cases hself : (t.ending == .selfClosed && !t.isVoid) = true
  · rw [if_pos hself]
    refine Rereads.cons ?_ hclosing
    by_cases hkey : opaqueNames.contains t.key = true
    · -- the closer stands right where the body would begin
      have hcloses : StartTag.closesBody (tag.start t.offset).key (sources [closing t.name] ++ x) = true := by
        rw [sources_singleton, source_closing]
        exact StartTag.closesBody_iff.mpr ⟨t.name, [], x, by simp [Markup.closer], rfl, by simp⟩
      have hempty : upTo (StartTag.closesBody (tag.start t.offset).key)
          ([] ++ (sources [closing t.name] ++ x)) = [] := (cut_here (Or.inr hcloses)).1
      exact rereads_bodied hread (hbodied.trans hkey) hempty 0
    · exact hplain (by simpa using hkey) _
  · rw [if_neg hself]
    apply hplain
    cases hv : t.isVoid with
    | true =>
      have hvoid : tag.isVoid = true := hv
      exact Markup.isOpaque_of_isVoid hvoid
    | false =>
      have hclosed : t.ending = .closed := by
        rw [hv] at hself
        cases he : t.ending <;> simp_all
      simpa [StartTag.isOpaque, hclosed] using hno

theorem mem_of_dropWhile {p : Open → Bool} {outside : List Open} (h : os.dropWhile p = o :: outside) :
    o ∈ os := by
  apply (List.dropWhile_sublist p).subset
  rw [h]
  exact List.mem_cons_self ..

theorem opensMarkup_closings (hos : ∀ o ∈ os, o.tag.name.IsElementName) (hx : opensMarkup x = true) :
    opensMarkup (sources (closings os) ++ x) = true := by
  induction os with
  | nil => exact hx
  | cons o os ih =>
    have hrest := ih (fun p hp => hos p (by simp [hp]))
    rw [closings_cons, sources_append, List.append_assoc]
    cases o.bound with
    | false => exact hrest
    | true =>
      rw [if_pos rfl, sources_singleton, source_closing]
      exact Tag.opensMarkup_closer (hos o (by simp)) _

/-- A token that was read, and has no body, is read again from what the pass writes for it. -/
theorem rereads_piece (hread : ReadsBefore tok x) (hne : tok.source ≠ [])
    (hnamed : ∀ t, tok = .start t → t.WellNamed ∧ t.isOpaque = false ∧
      (t.isBound = true → t.ending ≠ .missing))
    (hos : ∀ o ∈ os, o.tag.name.IsElementName) (ts : List Token) :
    Rereads (piece decode os ts tok) x := by
  cases tok with
  | raw o s => exact rereads_plain hread hne rfl
  | start t =>
    obtain ⟨hname, hno, hends⟩ := hnamed t rfl
    rw [piece]
    by_cases hb : bindsFrom (names os) t ts = true
    · rw [if_pos hb]
      refine rereads_anew hname ?_ hno decode x
      intro hm
      have hopens : t.opens = false := by simp [StartTag.opens, hm]
      rw [bindsFrom_single hopens] at hb
      exact hends hb hm
    · rw [if_neg hb]
      exact rereads_plain hread hne (afterBody_of_plain hno x)
  | stop e =>
    rw [piece]
    cases hd : os.dropWhile (·.tag.key ≠ e.key) with
    | nil => exact rereads_plain hread hne rfl
    | cons o outside =>
      have ho : o ∈ os := mem_of_dropWhile hd
      have hinside : ∀ p ∈ os.takeWhile (·.tag.key ≠ e.key), p.tag.name.IsElementName :=
        fun p hp => hos p ((List.takeWhile_sublist _).subset hp)
      refine (rereads_closings hinside _).append ?_
      cases o.bound with
      | false => exact rereads_plain hread hne rfl
      | true => exact rereads_closing (hos o ho) x

/-- Where markup stands, the pass writes markup. -/
theorem opensMarkup_piece {p : Nat} (h : next p s = (tok, after)) (hl : Lead.of s ≠ .text)
    (hos : ∀ o ∈ os, o.tag.name.IsElementName) (ts : List Token) (x : Text) :
    opensMarkup (sources (piece decode os ts tok) ++ x) = true := by
  have hself := opensMarkup_next h hl
  cases tok with
  | raw o s =>
    rw [piece, sources_singleton]
    exact hself x
  | start t =>
    rw [piece]
    by_cases hb : bindsFrom (names os) t ts = true
    · have htag := Tag.canonical_ofStart (StartTag.wellNamed_next h) decode
      rw [if_pos hb, anew, sources_cons, source_start, List.append_assoc]
      exact Tag.opensMarkup_opening htag _
    · rw [if_neg hb, sources_singleton]
      exact hself x
  | stop e =>
    rw [piece]
    cases hd : os.dropWhile (·.tag.key ≠ e.key) with
    | nil =>
      rw [sources_singleton]
      exact hself x
    | cons o outside =>
      have ho : o ∈ os := mem_of_dropWhile hd
      have hinside : ∀ p ∈ os.takeWhile (·.tag.key ≠ e.key), p.tag.name.IsElementName :=
        fun p hp => hos p ((List.takeWhile_sublist _).subset hp)
      have hlast : ∀ y, opensMarkup ((if o.bound then closing o.tag.name else .stop e).source ++ y) = true := by
        intro y
        cases o.bound with
        | false => exact hself y
        | true =>
          rw [if_pos rfl, source_closing]
          exact Tag.opensMarkup_closer (hos o ho) y
      rw [sources_append, List.append_assoc, sources_singleton]
      exact opensMarkup_closings hinside (hlast x)

theorem opensMarkup_rewrite (hs : opensMarkup s = true) (hos : ∀ o ∈ os, o.tag.name.IsElementName)
    (p : Nat) (x : Text) : opensMarkup (sources (rewrite decode os (scanFrom p s)) ++ x) = true := by
  have hne : s ≠ [] := by
    rintro rfl
    cases hs
  have hl : Lead.of s ≠ .text := by simpa [opensMarkup] using hs
  rw [scanFrom, if_neg hne, rewrite, sources_append, List.append_assoc]
  exact opensMarkup_piece rfl hl hos _ _

theorem names_advance (hos : ∀ o ∈ os, o.tag.name.IsElementName)
    (hnamed : ∀ t, tok = .start t → t.name.IsElementName) (ts : List Token) :
    ∀ o ∈ advance os ts tok, o.tag.name.IsElementName := by
  cases tok with
  | raw o s => exact hos
  | start t =>
    rw [advance]
    by_cases ht : t.opens = true
    · rw [if_pos ht]
      intro o ho
      rcases List.mem_cons.mp ho with rfl | ho
      · exact hnamed t rfl
      · exact hos o ho
    · rw [if_neg ht]
      exact hos
  | stop e =>
    rw [advance]
    cases hd : os.dropWhile (·.tag.key ≠ e.key) with
    | nil => exact hos
    | cons o outside =>
      intro q hq
      apply hos q
      apply (List.dropWhile_sublist _).subset
      rw [hd]
      exact List.mem_cons_of_mem _ hq

/-- A token without a body, and what the pass writes behind it. -/
theorem rereads_step {p o : Nat} (hs : s ≠ []) (h : next p s = (tok, after))
    (hplain : ∀ t, tok = .start t → t.isOpaque = false ∧ (t.isBound = true → t.ending ≠ .missing))
    (hos : ∀ o ∈ os, o.tag.name.IsElementName)
    (ih : Rereads (rewrite decode (advance os (scanFrom o after) tok) (scanFrom o after)) []) :
    Rereads (rewrite decode os (tok :: scanFrom o after)) [] := by
  have hnamed : ∀ t, tok = .start t → t.WellNamed := by
    rintro t rfl
    exact StartTag.wellNamed_next h
  have hne : tok.source ≠ [] := by
    have := source_next_ne_nil p s hs
    rwa [h] at this
  have hos' := names_advance hos (fun t ht => (hnamed t ht).name) (scanFrom o after)
  rw [rewrite]
  refine Rereads.append (rereads_piece ?_ hne (fun t ht => ⟨hnamed t ht, hplain t ht⟩) hos _) ih
  rw [List.append_nil]
  by_cases hafter : after = []
  · have hnil : scanFrom o after = [] := by rw [hafter, scanFrom, if_pos rfl]
    rw [hnil]
    rw [hafter] at h
    exact readsBefore_last h
  · refine readsBefore_next h hafter (fun hl => Or.inr ?_)
    have hmarkup : opensMarkup after = true := by
      simp only [next, hl, Prod.mk.injEq] at h
      rw [← h.2] at hafter ⊢
      exact onward_holds hafter
    have hfollows : opensMarkup (sources
        (rewrite decode (advance os (scanFrom o after) tok) (scanFrom o after)) ++ []) = true :=
      opensMarkup_rewrite hmarkup hos' o []
    rwa [List.append_nil] at hfollows

theorem piece_stop_self (h : o.tag.key = e.key) (ts : List Token) :
    piece decode (o :: os) ts (.stop e) = [if o.bound then closing o.tag.name else .stop e] := by
  rw [piece, List.dropWhile_cons_of_neg (by simp [h]), List.takeWhile_cons_of_neg (by simp [h])]
  rfl

theorem piece_stop_stray (h : e.key ∉ names os) (ts : List Token) :
    piece decode os ts (.stop e) = [.stop e] := by
  rw [piece, dropWhile_eq_nil_iff.mpr h]

theorem piece_stop_of_ne (h : o.tag.key ≠ e.key) (he : e.key ∈ names os) (ts : List Token) :
    piece decode (o :: os) ts (.stop e) =
      (if o.bound then [closing o.tag.name] else []) ++ piece decode os ts (.stop e) := by
  rw [piece, piece, List.dropWhile_cons_of_pos (by simp [h]), List.takeWhile_cons_of_pos (by simp [h])]
  cases hd : os.dropWhile (·.tag.key ≠ e.key) with
  | nil => exact absurd he (dropWhile_eq_nil_iff.mp hd)
  | cons p outside => simp only [closings_cons, List.append_assoc]

/-- Behind the body of a script stands its end tag, or nothing. -/
theorem closesBody_rewrite (hkey : o.tag.key ∈ opaqueNames) (p : Nat)
    (hs : s = [] ∨ StartTag.closesBody o.tag.key s = true) :
    sources (rewrite decode (o :: os) (scanFrom p s)) = [] ∨
      StartTag.closesBody o.tag.key (sources (rewrite decode (o :: os) (scanFrom p s))) = true := by
  by_cases hnil : s = []
  · left
    rw [hnil, scanFrom, if_pos rfl]
    rfl
  · right
    have hcloses : StartTag.closesBody o.tag.key s = true := by simpa [hnil] using hs
    obtain ⟨e, after, hnext, he, hself⟩ := StartTag.next_closesBody hkey hcloses p
    rw [scanFrom, if_neg hnil, hnext, rewrite, piece_stop_self he.symm, sources_append, sources_singleton]
    cases o.bound with
    | false => exact hself _
    | true =>
      rw [if_pos rfl, source_closing]
      exact StartTag.closesBody_iff.mpr ⟨o.tag.name, [], _, by simp [Markup.closer]; rfl, rfl, by simp⟩

theorem rewrite_ofBody (os : List Open) (p : Nat) (body : Text) (ts : List Token) :
    rewrite decode os (ofBody p body ++ ts) = ofBody p body ++ rewrite decode os ts := by
  by_cases hb : body = []
  · simp [ofBody, hb]
  · simp [ofBody, hb, rewrite, piece, advance]

/-- A script, and what the pass writes behind its body. -/
theorem rereads_script {p q o : Nat} (h : next p s = (.start t, after)) (ht : t.isOpaque = true)
    (ih : ∀ bound, Rereads (rewrite decode (⟨t, bound⟩ :: os)
      (scanFrom o (onward (StartTag.closesBody t.key) after))) []) :
    Rereads (rewrite decode os (.start t :: (ofBody q (upTo (StartTag.closesBody t.key) after) ++
      scanFrom o (onward (StartTag.closesBody t.key) after)))) [] := by
  have hclosed : t.ending = .closed ∧ t.key ∈ opaqueNames := by
    simpa [StartTag.isOpaque] using ht
  have hvoid : t.isVoid = false := by
    have hdisjoint : ∀ n ∈ opaqueNames, n ∉ voidNames := by decide
    simpa [StartTag.isVoid] using hdisjoint _ hclosed.2
  have hopens : t.opens = true := by simp [StartTag.opens, hclosed.1, hvoid]
  rw [rewrite, advance, if_pos hopens, rewrite_ofBody, piece]
  generalize bindsFrom (names os) t _ = bound
  let rest := onward (StartTag.closesBody t.key) after
  let x := sources (rewrite decode (⟨t, bound⟩ :: os) (scanFrom o rest)) ++ []
  have hx : x = [] ∨ StartTag.closesBody t.key x = true := by
    have hrest := onward_cases (StartTag.closesBody t.key) after
    have hread : sources (rewrite decode (⟨t, bound⟩ :: os) (scanFrom o rest)) = [] ∨
        StartTag.closesBody t.key (sources (rewrite decode (⟨t, bound⟩ :: os) (scanFrom o rest))) = true :=
      closesBody_rewrite hclosed.2 o hrest
    simpa [x] using hread
  have hcut : upTo (StartTag.closesBody t.key) (upTo (StartTag.closesBody t.key) after ++ x) =
      upTo (StartTag.closesBody t.key) after := by
    have hafter := StartTag.atMark_of_closesBody (onward_cases (StartTag.closesBody t.key) after)
    obtain ⟨hup, -⟩ := cut_atMark
      (fun _ _ => StartTag.closesBody_append (StartTag.not_mem_opaque ht)) hafter
      (StartTag.atMark_of_closesBody hx)
    rw [hup, (cut_here hx).1, List.append_nil]
  cases bound with
  | false =>
    have hends : t.ending ≠ .missing := by simp [hclosed.1]
    exact (rereads_bodied (readsBefore_start h hends) ht hcut q).append (ih false)
  | true =>
    have htag : (Tag.ofStart decode t).Canonical := Tag.canonical_ofStart (StartTag.wellNamed_next h) decode
    have hbodied : ((Tag.ofStart decode t).start t.offset).isOpaque = true :=
      (isOpaque_written htag _).trans (List.contains_iff_mem.mpr hclosed.2)
    have hnew : anew decode t = [.start ((Tag.ofStart decode t).start t.offset)] := by
      simp [anew, hclosed.1]
    rw [if_pos rfl, hnew]
    exact (rereads_bodied (readsBefore_written htag _) hbodied hcut q).append (ih true)

/-- What the pass writes is read again as the tokens that it wrote. -/
theorem rereads_rewrite (p : Nat) (s : Text) (hos : ∀ o ∈ os, o.tag.name.IsElementName)
    (hends : ∀ t, Token.start t ∈ scanFrom p s → t.isBound = true → t.ending ≠ .missing) :
    Rereads (rewrite decode os (scanFrom p s)) [] := by
  fun_induction scanFrom p s generalizing os with
  | case1 => exact Rereads.nil []
  | case2 p s hs first after bodyAt body =>
    rename_i ih
    have hnext : next p s = (first, after) := rfl
    have hbody : body = first.body after := rfl
    clear_value body bodyAt after first
    have hname : ∀ t, first = .start t → t.name.IsElementName := by
      rintro t rfl
      exact (StartTag.wellNamed_next hnext).name
    by_cases hop : ∃ t, first = .start t ∧ t.isOpaque = true
    · obtain ⟨t, rfl, hto⟩ := hop
      have hrest : (Token.start t).afterBody after = onward (StartTag.closesBody t.key) after := by
        simp [Token.afterBody, hto]
      rw [Token.body, if_pos hto] at hbody
      rw [hbody, hrest] at ih hends ⊢
      refine rereads_script hnext hto (fun bound => ih ?_ ?_)
      · intro o ho
        rcases List.mem_cons.mp ho with rfl | ho
        · exact hname t rfl
        · exact hos o ho
      · exact fun u hu => hends u (by simp [hu])
    · have hplain : ∀ t, first = .start t → t.isOpaque = false := by
        intro t ht
        by_cases hto : t.isOpaque = true
        · exact absurd ⟨t, ht, hto⟩ hop
        · simpa using hto
      have hafter : first.afterBody after = after := by
        cases first with
        | start t => exact afterBody_of_plain (hplain t rfl) after
        | raw | stop => rfl
      have hnil : body = [] := by
        have hwhole := body_append_afterBody first after
        rw [hafter, ← hbody] at hwhole
        exact List.append_left_eq_self.mp hwhole
      simp only [hnil, hafter, ofBody, if_true, List.nil_append] at ih hends ⊢
      refine rereads_step hs hnext (fun t ht => ⟨hplain t ht, fun hb => ?_⟩) hos (ih ?_ ?_)
      · exact hends t (by simp [ht]) hb
      · exact names_advance hos hname _
      · exact fun t ht => hends t (by simp [ht])

theorem not_start_closings (os : List Open) (u : StartTag) : Token.start u ∉ closings os := by
  rw [closings, List.mem_flatMap]
  rintro ⟨o, -, hu⟩
  cases hb : o.bound <;> simp [hb, closing] at hu

/-- A start tag that the pass writes stood in the input, or it ends. -/
theorem start_of_piece {u : StartTag} (h : Token.start u ∈ piece decode os ts tok) :
    tok = .start u ∨ u.ending ≠ .missing := by
  cases tok with
  | raw o s => simp [piece] at h
  | start t =>
    rw [piece] at h
    by_cases hb : bindsFrom (names os) t ts = true
    · right
      rw [if_pos hb, anew, List.mem_cons] at h
      rcases h with h | h
      · cases h
        cases hs : (Tag.ofStart decode t).slash <;> simp [Tag.start, Tag.ending, hs]
      · split at h <;> simp [closing] at h
    · left
      rw [if_neg hb, List.mem_singleton] at h
      exact h.symm
  | stop e =>
    rw [piece] at h
    cases hd : os.dropWhile (·.tag.key ≠ e.key) with
    | nil =>
      simp only [hd, List.mem_singleton] at h
      cases h
    | cons o outside =>
      simp only [hd, List.mem_append, List.mem_singleton] at h
      rcases h with h | h
      · exact absurd h (not_start_closings _ u)
      · cases hb : o.bound <;> simp [hb, closing] at h

theorem start_of_rewrite {u : StartTag} (h : Token.start u ∈ rewrite decode os ts) :
    Token.start u ∈ ts ∨ u.ending ≠ .missing := by
  induction ts generalizing os with
  | nil => cases h
  | cons tok ts ih =>
    rw [rewrite, List.mem_append] at h
    rcases h with h | h
    · rcases start_of_piece h with rfl | hm
      · exact Or.inl (List.mem_cons_self ..)
      · exact Or.inr hm
    · rcases ih h with h | hm
      · exact Or.inl (List.mem_cons_of_mem _ h)
      · exact Or.inr hm

/-- The tokens that the pass writes for a whole input are those of its text. -/
theorem words_rewrite (hcut : cutOff? (scan s) = none) :
    words (sources (rewrite decode [] (scan s))) = (rewrite decode [] (scan s)).map (moveTo 0) := by
  have hread : Rereads (rewrite decode [] (scan s)) [] :=
    rereads_rewrite 0 s (by simp) (fun t ht hb => StartTag.ends_of_bound hcut ht hb)
  rw [Rereads, List.append_nil, words_nil, List.append_nil] at hread
  exact hread

end TemplateTree.FlatScan
