import TemplateTree.Elements.Tokens
import TemplateTree.Token.Lexer

/-! Where tokens stand. A token begins behind all the text before it, and what it is does not depend
on where that is. -/
namespace TemplateTree

open Text

def StartTag.moveTo (o : Nat) (t : StartTag) : StartTag := { t with offset := o }

def EndTag.moveTo (o : Nat) (t : EndTag) : EndTag := { t with offset := o }

namespace Token

variable {o p : Nat} {s after : Text} {tok : Token} {pre post ts us : List Token}

/-- The same token at another place. -/
def moveTo (o : Nat) : Token → Token
  | raw _ s => raw o s
  | start t => start (t.moveTo o)
  | stop t => stop (t.moveTo o)

/-- The tokens of a text, wherever they stand. -/
def words (s : Text) : List Token := (scan s).map (moveTo 0)

/-- Each token begins where the one before it ends. -/
def TiledFrom (o : Nat) : List Token → Prop
  | [] => True
  | tok :: ts => tok.offset = o ∧ TiledFrom (o + byteSize tok.source) ts

theorem sources_cons (tok : Token) (ts : List Token) :
    sources (tok :: ts) = tok.source ++ sources ts := rfl

theorem sources_append (ts us : List Token) : sources (ts ++ us) = sources ts ++ sources us :=
  List.flatMap_append

theorem source_moveTo (o : Nat) (tok : Token) : (tok.moveTo o).source = tok.source := by
  cases tok <;> rfl

theorem moveTo_moveTo (o p : Nat) (tok : Token) : (tok.moveTo o).moveTo p = tok.moveTo p := by
  cases tok <;> rfl

theorem body_moveTo (o : Nat) (tok : Token) : (tok.moveTo o).body = tok.body := by
  cases tok <;> rfl

theorem afterBody_moveTo (o : Nat) (tok : Token) : (tok.moveTo o).afterBody = tok.afterBody := by
  cases tok <;> rfl

theorem map_moveTo_ofBody (o p : Nat) (body : Text) :
    (ofBody o body).map (moveTo p) = ofBody p body := by
  by_cases hb : body = []
  · simp [ofBody, hb]
  · simp [ofBody, hb, moveTo]

theorem sources_ofBody (p : Nat) (body : Text) : sources (ofBody p body) = body := by
  by_cases hb : body = [] <;> simp [ofBody, hb, sources, source]

theorem not_start_ofBody (p : Nat) (body : Text) (t : StartTag) : start t ∉ ofBody p body := by
  by_cases hb : body = [] <;> simp [ofBody, hb]

theorem offset_next (o : Nat) (s : Text) : (next o s).1.offset = o := by
  unfold next
  split <;> rfl

theorem tiledFrom_scanFrom (o : Nat) (s : Text) : TiledFrom o (scanFrom o s) := by
  fun_induction scanFrom o s with
  | case1 => trivial
  | case2 o s hs first after bodyAt body ih =>
    refine ⟨offset_next o s, ?_⟩
    by_cases hb : body = []
    · simpa [ofBody, hb, byteSize, bodyAt] using ih
    · simpa [ofBody, hb, TiledFrom, offset, source, bodyAt] using ih

theorem TiledFrom.behind (h : TiledFrom o (pre ++ post)) :
    TiledFrom (o + byteSize (sources pre)) post := by
  induction pre generalizing o with
  | nil => exact h
  | cons first pre ih =>
    rw [sources_cons, byteSize_append, ← Nat.add_assoc]
    exact ih h.2

theorem TiledFrom.offset_eq (h : TiledFrom o (pre ++ tok :: post)) :
    tok.offset = o + byteSize (sources pre) := h.behind.1

/-- The offset of a token is the number of bytes before it. -/
theorem scan_split (h : scan s = pre ++ tok :: post) :
    s = sources pre ++ (tok.source ++ sources post) ∧ tok.offset = byteSize (sources pre) := by
  constructor
  · rw [← sources_scan s, h, sources_append, sources_cons]
  · have htiled := tiledFrom_scanFrom 0 s
    rw [← scan, h] at htiled
    simpa using htiled.offset_eq

theorem next_moveTo (o p : Nat) (s : Text) : next o s = ((next p s).1.moveTo o, (next p s).2) := by
  unfold next
  split <;> rfl

theorem map_moveTo_scanFrom (o p : Nat) (s : Text) :
    (scanFrom o s).map (moveTo 0) = (scanFrom p s).map (moveTo 0) := by
  fun_induction scanFrom o s generalizing p with
  | case1 => rw [scanFrom, if_pos rfl]
  | case2 o s hs first after bodyAt body ih =>
    have hfirst : first = (next p s).1.moveTo o := congrArg Prod.fst (next_moveTo o p s)
    have hafter : after = (next p s).2 := (congrArg Prod.snd (next_moveTo o p s) :)
    have hbody : body = (next p s).1.body (next p s).2 := by
      rw [← hafter, ← body_moveTo o (next p s).1, ← hfirst]
    have hrest : first.afterBody after = (next p s).1.afterBody (next p s).2 := by
      rw [hfirst, afterBody_moveTo, hafter]
    conv => rhs; rw [scanFrom, if_neg hs]
    rw [List.map_cons, List.map_append, List.map_cons, List.map_append, map_moveTo_ofBody,
      map_moveTo_ofBody, ih, hrest, ← hbody, hfirst, moveTo_moveTo]

theorem words_eq (o : Nat) (s : Text) : words s = (scanFrom o s).map (moveTo 0) :=
  map_moveTo_scanFrom 0 o s

theorem mem_words {t : StartTag} (h : start t ∈ scan s) : start (t.moveTo 0) ∈ words s :=
  List.mem_map_of_mem h

/-- A start tag of the text stands among the tokens, perhaps at another place. -/
theorem start_of_words {us : List Token} {t : StartTag} (h : start (t.moveTo 0) ∈ us.map (moveTo 0)) :
    ∃ u, start u ∈ us ∧ u.moveTo 0 = t.moveTo 0 := by
  obtain ⟨tok, htok, hsame⟩ := List.mem_map.mp h
  cases tok with
  | raw | stop => cases hsame
  | start u => exact ⟨u, htok, Token.start.inj hsame⟩

theorem words_nil : words [] = [] := by
  rw [words, scan, scanFrom, if_pos rfl]
  rfl

theorem words_next (hs : s ≠ []) (h : next o s = (tok, after)) :
    words s = tok.moveTo 0 :: (ofBody 0 (tok.body after) ++ words (tok.afterBody after)) := by
  rw [words_eq o s, scanFrom, if_neg hs, h]
  simp only [List.map_cons, List.map_append, map_moveTo_ofBody, ← words_eq]

end Token
end TemplateTree
