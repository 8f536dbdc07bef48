import TemplateTree.Proofs.Token.Cover
import TemplateTree.Proofs.Token.Hidden
import TemplateTree.Proofs.Token.Startless

/-! Where the input may be cut. Both sides of a cut between two tokens are read as they stand in the
whole; only behind the start tag of a script or a style does the second side depend on the first. -/
namespace TemplateTree

open Text

def Span.shift (k : Nat) (s : Span) : Span := ⟨k + s.start, k + s.stop⟩

/-- The same token `k` bytes further on. -/
def Placed.shift (k : Nat) : Placed → Placed
  | raw span => .raw (span.shift k)
  | start key span name attributes ending isVoid =>
    .start key (span.shift k) (name.shift k) attributes ending isVoid
  | stop key span => .stop key (span.shift k)

/-- True for the start tags of scripts and styles that end without closing themselves. -/
def Placed.opensBody : Placed → Bool
  | start key _ _ _ ending _ => ending == .closed && opaqueNames.contains key
  | _ => false

namespace Token

variable {s after key : Text} {tok : Token} {ts us vs : List Token} {o p q : Nat}

/-- The same token `k` bytes further on. -/
def advance (k : Nat) (tok : Token) : Token := tok.moveTo (k + tok.offset)

theorem placed_advance (decode : Bool) (k : Nat) (tok : Token) :
    (tok.advance k).placed decode = (tok.placed decode).shift k := by
  cases tok <;>
    simp [advance, moveTo, offset, placed, Placed.shift, Span.shift, StartTag.moveTo, EndTag.moveTo,
      StartTag.source, StartTag.key, StartTag.isVoid, EndTag.source, EndTag.key, Nat.add_assoc]

theorem offset_moveTo (o : Nat) (tok : Token) : (tok.moveTo o).offset = o := by
  cases tok <;> rfl

theorem moveTo_offset (tok : Token) : tok.moveTo tok.offset = tok := by
  cases tok <;> rfl

theorem TiledFrom.front (h : TiledFrom o (ts ++ us)) : TiledFrom o ts := by
  induction ts generalizing o with
  | nil => trivial
  | cons tok ts ih => exact ⟨h.1, ih h.2⟩

theorem TiledFrom.advance (h : TiledFrom o ts) (k : Nat) :
    TiledFrom (k + o) (ts.map (Token.advance k)) := by
  induction ts generalizing o with
  | nil => trivial
  | cons tok ts ih =>
    obtain ⟨hplace, hrest⟩ := h
    refine ⟨?_, ?_⟩
    · rw [Token.advance, offset_moveTo, hplace]
    · have hnext := ih hrest
      rw [← Nat.add_assoc] at hnext
      rwa [Token.advance, source_moveTo]

/-- Tokens that stand one behind the other are known from what they are. -/
theorem TiledFrom.eq_of_words (hts : TiledFrom o ts) (hus : TiledFrom o us)
    (h : ts.map (moveTo 0) = us.map (moveTo 0)) : ts = us := by
  induction ts generalizing o us with
  | nil => exact (List.map_eq_nil_iff.mp h.symm).symm
  | cons tok ts ih =>
    cases us with
    | nil => cases h
    | cons tok' us =>
      obtain ⟨hplace, hts⟩ := hts
      obtain ⟨hplace', hus⟩ := hus
      obtain ⟨hfirst, hrest⟩ := List.cons.inj h
      have htok : tok = tok' := by
        have hmoved := congrArg (moveTo o) hfirst
        rw [moveTo_moveTo, moveTo_moveTo] at hmoved
        rwa [← hplace, moveTo_offset, hplace, ← hplace', moveTo_offset] at hmoved
      subst htok
      rw [ih hts hus hrest]

theorem next_of_scanFrom (h : scanFrom o s = tok :: us) :
    s ≠ [] ∧ ∃ after, next o s = (tok, after) := by
  by_cases hs : s = []
  · rw [scanFrom, if_pos hs] at h
    cases h
  · rw [scanFrom, if_neg hs] at h
    obtain ⟨hfirst, -⟩ := List.cons.inj h
    exact ⟨hs, (next o s).2, by rw [← hfirst]⟩

/-- Some tokens of a text that begins with markup begin with markup themselves. -/
theorem opensMarkup_front (h : scanFrom o s = ts ++ us) (hs : s = [] ∨ opensMarkup s = true) :
    sources ts = [] ∨ opensMarkup (sources ts) = true := by
  cases ts with
  | nil => exact Or.inl rfl
  | cons tok ts =>
    obtain ⟨hne, after, hnext⟩ := next_of_scanFrom h
    have hopens : opensMarkup s = true := hs.resolve_left hne
    have hl : Lead.of s ≠ .text := by simpa [opensMarkup] using hopens
    exact Or.inr (opensMarkup_next hnext hl _)

/-- Some tokens of a text that begins with the end tag of a body begin with it themselves. -/
theorem closesBody_front (hkey : key ∈ opaqueNames) (h : scanFrom o s = ts ++ us)
    (hs : s = [] ∨ StartTag.closesBody key s = true) :
    sources ts = [] ∨ StartTag.closesBody key (sources ts) = true := by
  cases ts with
  | nil => exact Or.inl rfl
  | cons tok ts =>
    obtain ⟨hne, after, hnext⟩ := next_of_scanFrom h
    obtain ⟨e, after', hstop, -, hcloses⟩ := StartTag.next_closesBody hkey (hs.resolve_left hne) o
    rw [hnext] at hstop
    obtain ⟨rfl, -⟩ := Prod.mk.inj hstop
    exact Or.inr (hcloses _)

/-- A body ends where it ended when only some of the tokens behind it follow. -/
theorem body_front (h : scanFrom q (tok.afterBody after) = ts ++ us) :
    tok.body (tok.body after ++ sources ts) = tok.body after ∧
      tok.afterBody (tok.body after ++ sources ts) = sources ts := by
  cases tok with
  | raw | stop => exact ⟨rfl, rfl⟩
  | start t =>
    by_cases ht : t.isOpaque = true
    · simp only [body, afterBody, if_pos ht] at h ⊢
      have hcloses := onward_cases (StartTag.closesBody t.key) after
      have hfront := closesBody_front (StartTag.key_mem_opaqueNames ht) h hcloses
      obtain ⟨hup, hon⟩ := cut_atMark
        (fun _ _ => StartTag.closesBody_append (StartTag.not_mem_opaque ht))
        (StartTag.atMark_of_closesBody hcloses) (StartTag.atMark_of_closesBody hfront)
      obtain ⟨hup', hon'⟩ := cut_here hfront
      rw [hup, hon, hup', hon', List.append_nil]
      exact ⟨rfl, rfl⟩
    · simp [body, afterBody, ht]

/-- A token reads as itself in front of its body and some of the tokens behind it. -/
theorem readsBefore_front (h : next o s = (tok, after))
    (hts : scanFrom q (tok.afterBody after) = ts ++ us) :
    ReadsBefore tok (tok.body after ++ sources ts) := by
  by_cases hafter : after = []
  · subst hafter
    have hwhole := body_append_afterBody tok []
    obtain ⟨hbody, hrest⟩ := List.append_eq_nil_iff.mp hwhole
    have hnil : sources ts = [] := by
      have hsources := sources_scanFrom q (tok.afterBody [])
      rw [hts, hrest, sources_append] at hsources
      exact (List.append_eq_nil_iff.mp hsources).1
    rw [hbody, hnil]
    exact readsBefore_last h
  · refine readsBefore_next h hafter fun hl => ?_
    simp only [next, hl, Prod.mk.injEq] at h
    obtain ⟨rfl, rfl⟩ := h
    exact opensMarkup_front hts (onward_cases opensMarkup s)

/-- The last of the tokens is not a tag whose body follows. -/
def EndsPlain (ts : List Token) : Prop := ∀ t, ts.getLast? = some (.start t) → t.isOpaque = false

theorem body_of_plain (h : ∀ t, tok = .start t → t.isOpaque = false) (s : Text) :
    tok.body s = [] ∧ tok.afterBody s = s := by
  cases tok with
  | raw | stop => exact ⟨rfl, rfl⟩
  | start t => simp [body, afterBody, h t rfl]

/-- The cut is not between a tag and its body. -/
theorem split_body (hlast : EndsPlain (tok :: ts))
    (h : ofBody p (tok.body after) ++ vs = ts ++ us) :
    ∃ ws, ts = ofBody p (tok.body after) ++ ws ∧ vs = ws ++ us := by
  cases ts with
  | nil =>
    have hplain : ∀ t, tok = .start t → t.isOpaque = false := by
      rintro t rfl
      exact hlast t rfl
    obtain ⟨hbody, -⟩ := body_of_plain hplain after
    rw [hbody, ofBody, if_pos rfl] at h ⊢
    exact ⟨[], rfl, h⟩
  | cons raw ts =>
    by_cases hb : tok.body after = []
    · rw [ofBody, if_pos hb] at h ⊢
      exact ⟨raw :: ts, rfl, h⟩
    · rw [ofBody, if_neg hb] at h ⊢
      obtain ⟨hraw, hvs⟩ := List.cons.inj h
      exact ⟨ts, by rw [hraw]; rfl, hvs⟩

/-- The front of the tokens is read as it stands. -/
theorem words_front (h : scanFrom o s = ts ++ us) (hlast : EndsPlain ts) :
    words (sources ts) = ts.map (moveTo 0) := by
  fun_induction scanFrom o s generalizing ts with
  | case1 =>
    obtain ⟨rfl, -⟩ := List.append_eq_nil_iff.mp h.symm
    exact words_nil
  | case2 o s hs first after bodyAt body =>
    rename_i ih
    cases ts with
    | nil => exact words_nil
    | cons tok ts =>
      obtain ⟨rfl, hsplit⟩ := List.cons.inj h
      obtain ⟨ws, rfl, hrest⟩ := split_body hlast hsplit
      have hnext : next o s = (first, after) := rfl
      have hback : EndsPlain ws := by
        intro t ht
        apply hlast t
        rw [List.getLast?_cons, List.getLast?_append, ht]
        rfl
      have hread := readsBefore_front hnext hrest
      obtain ⟨hbody, hafter⟩ := body_front hrest
      have hne := source_ne_nil_of_next hs hnext
      rw [sources_cons, sources_append, sources_ofBody, words_readsBefore hread hne, hbody, hafter,
        ih hrest hback, List.map_cons, List.map_append, map_moveTo_ofBody]

/-- The tokens behind a cut are read from their own source. -/
theorem words_back (h : scan s = ts ++ us) (hlast : EndsPlain ts) :
    words (sources us) = us.map (moveTo 0) := by
  rcases List.eq_nil_or_concat' ts with rfl | ⟨before, tok, rfl⟩
  · rw [List.nil_append] at h
    rw [← h, sources_scan]
    rfl
  · rw [List.append_assoc, List.singleton_append] at h
    obtain ⟨p, q, hus⟩ := scanFrom_behind h
    have hplain : ∀ t, tok = .start t → t.isOpaque = false := by
      rintro t rfl
      exact hlast t (by simp)
    obtain ⟨hbody, hafter⟩ := body_of_plain hplain (sources us)
    rw [hbody, hafter, ofBody, if_pos rfl, List.nil_append] at hus
    conv => rhs; rw [hus]
    exact words_eq q (sources us)

/-- Both sides of a cut are read as they stand in the whole. -/
theorem scan_cut (h : scan s = ts ++ us) (hlast : EndsPlain ts) :
    scan (sources ts) = ts ∧ (scan (sources us)).map (advance (byteSize (sources ts))) = us := by
  have htiled := tiledFrom_scanFrom 0 s
  rw [← scan, h] at htiled
  have hmoved : ∀ vs : List Token, (vs.map (advance (byteSize (sources ts)))).map (moveTo 0) =
      vs.map (moveTo 0) := by
    intro vs
    simp [advance, moveTo_moveTo]
  constructor
  · exact (tiledFrom_scanFrom 0 (sources ts)).eq_of_words htiled.front (words_front h hlast)
  · have hback := (tiledFrom_scanFrom 0 (sources us)).advance (byteSize (sources ts))
    rw [Nat.add_comm] at hback
    exact hback.eq_of_words htiled.behind ((hmoved _).trans (words_back h hlast))

end Token

variable {input : Text} {decode : Bool} {i : Nat}

/-- A token ends at the place, or the input begins there. -/
def IsCut (ts : List Placed) (i : Nat) : Prop := i = 0 ∨ ∃ tok ∈ ts, tok.span.stop = i

/-- A place where a token ends splits the tokens. -/
theorem IsCut.exists_split (h : IsCut (Token.layout decode input) i)
    (hbody : ∀ tok ∈ Token.layout decode input, tok.opensBody = true → tok.span.stop ≠ i) :
    ∃ ts us, Token.scan input = ts ++ us ∧ byteSize (Token.sources ts) = i ∧ Token.EndsPlain ts := by
  rcases h with rfl | ⟨_, hmem, hstop⟩
  · exact ⟨[], Token.scan input, rfl, rfl, fun t ht => by cases ht⟩
  · obtain ⟨tok, htok, rfl⟩ := List.mem_map.mp hmem
    obtain ⟨pre, post, hscan⟩ := List.append_of_mem htok
    obtain ⟨-, hoffset⟩ := Token.scan_split hscan
    have hplace : byteSize (Token.sources (pre ++ [tok])) = i := by
      rw [Token.span_placed] at hstop
      rw [Token.sources_append, byteSize_append, ← hoffset, ← hstop]
      simp [Token.sources]
    refine ⟨pre ++ [tok], post, by rw [hscan, List.append_assoc]; rfl, hplace, fun t ht => ?_⟩
    obtain rfl : tok = .start t := by simpa using ht
    refine Bool.eq_false_iff.mpr fun hopaque => ?_
    exact hbody _ hmem hopaque hstop

/-- The input may be cut where a token ends, except behind the start tag of a script or a style: its
tokens are those of the first bytes, and behind them those of the remaining bytes, further on by what was
cut off. -/
theorem layout_cut (h : IsCut (Token.layout decode input) i)
    (hbody : ∀ tok ∈ Token.layout decode input, tok.opensBody = true → tok.span.stop ≠ i) :
    ∃ front back, cut? i input = some (front, back) ∧
      Token.layout decode input =
        Token.layout decode front ++ (Token.layout decode back).map (Placed.shift i) := by
  obtain ⟨ts, us, hscan, rfl, hlast⟩ := h.exists_split hbody
  have hinput : input = Token.sources ts ++ Token.sources us := by
    rw [← Token.sources_append, ← hscan, Token.sources_scan]
  obtain ⟨hfront, hback⟩ := Token.scan_cut hscan hlast
  refine ⟨Token.sources ts, Token.sources us, ?_, ?_⟩
  · conv => lhs; rw [hinput]
    exact cut?_append _ _
  · have hshift : (Token.layout decode (Token.sources us)).map (Placed.shift (byteSize (Token.sources ts))) =
        us.map (Token.placed decode) := by
      conv => rhs; rw [← hback]
      simp [Token.layout, Token.placed_advance]
    rw [hshift, Token.layout, Token.layout, hfront, hscan, List.map_append]

/-- A cut between the body of a script and its end tag. -/
theorem layout_cut_body :
    IsCut (Token.layout true "<p>é</p><script>1<2</script>".toList) 20 ∧
    ∃ front back, cut? 20 "<p>é</p><script>1<2</script>".toList = some (front, back) ∧
      Token.layout true "<p>é</p><script>1<2</script>".toList =
        Token.layout true front ++ (Token.layout true back).map (Placed.shift 20) := by
  have hlayout : Token.layout true "<p>é</p><script>1<2</script>".toList =
      [.start ['p'] ⟨0, 3⟩ ⟨1, 2⟩ [] .closed false, .raw ⟨3, 5⟩, .stop ['p'] ⟨5, 9⟩,
        .start "script".toList ⟨9, 17⟩ ⟨10, 16⟩ [] .closed false, .raw ⟨17, 20⟩,
        .stop "script".toList ⟨20, 29⟩] := by
    decide +kernel
  have hcut : IsCut (Token.layout true "<p>é</p><script>1<2</script>".toList) 20 := by
    rw [hlayout]
    exact Or.inr ⟨.raw ⟨17, 20⟩, by simp, rfl⟩
  have hbody : ∀ tok ∈ Token.layout true "<p>é</p><script>1<2</script>".toList,
      tok.opensBody = true → tok.span.stop ≠ 20 := by
    rw [hlayout]
    decide
  exact ⟨hcut, layout_cut hcut hbody⟩

end TemplateTree
