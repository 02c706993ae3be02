import ByteLexer.Proofs.Cuts
import ByteLexer.Proofs.Stream
import ByteLexer.Proofs.Utf8

/-!
# Reading the lexemes of a text again

The lexemes of a text, each on a line of its own, are a text with the same tokens. A run over a text
and the run over its lexemes are compared through the pieces they read: the first run cuts its text
into pieces, these are read again when a line feed or nothing stands behind them, and there is only
one way to cut a text.
-/

namespace ByteLexer

/-- The stream over a text, seen as what it cuts off the front: pieces with their kinds, something
skipped before each, and at the end a text where nothing is read. -/
inductive CutsInto (settings : Settings) :
    List UInt8 → List (TokenKind × List UInt8) → List UInt8 → Prop where
  | done {ahead stop : List UInt8} (hahead : ahead = skips settings ahead ++ stop)
      (hread : Rule.defaultReading settings stop = none) : CutsInto settings ahead [] stop
  | piece {ahead w rest stop : List UInt8} {kind : TokenKind}
      {pieces : List (TokenKind × List UInt8)}
      (hahead : ahead = skips settings ahead ++ (w ++ rest))
      (hread : Rule.defaultReading settings (w ++ rest) = some (kind, w))
      (hrest : CutsInto settings rest pieces stop) :
      CutsInto settings ahead ((kind, w) :: pieces) stop

/-- Pieces with a line feed before each of them. -/
def lines (pieces : List (TokenKind × List UInt8)) : List UInt8 :=
  pieces.flatMap fun piece => 10 :: piece.2

namespace CutsInto

variable {settings : Settings} {ahead stop stop' : List UInt8}
  {pieces pieces' : List (TokenKind × List UInt8)}

/-- There is one way to cut a text. -/
lemma unique (h : CutsInto settings ahead pieces stop)
    (h' : CutsInto settings ahead pieces' stop') : pieces = pieces' ∧ stop = stop' := by
  induction h generalizing pieces' with
  | done hahead hread =>
    cases h' with
    | done hahead' _ => exact ⟨rfl, List.append_cancel_left (hahead.symm.trans hahead')⟩
    | piece hahead' hread' _ =>
      rw [List.append_cancel_left (hahead.symm.trans hahead'), hread'] at hread
      cases hread
  | piece hahead hread _ ih =>
    cases h' with
    | done hahead' hread' =>
      rw [← List.append_cancel_left (hahead.symm.trans hahead'), hread] at hread'
      cases hread'
    | piece hahead' hread' hrest' =>
      have hsame := List.append_cancel_left (hahead.symm.trans hahead')
      rw [hsame, hread'] at hread
      cases hread
      obtain ⟨rfl, rfl⟩ := ih (List.append_cancel_left hsame ▸ hrest')
      exact ⟨rfl, rfl⟩

/-- The line feeds at most double the length. -/
lemma length_lines_le (h : CutsInto settings ahead pieces stop) :
    (lines pieces).length ≤ 2 * ahead.length := by
  induction h with
  | done => exact Nat.zero_le _
  | piece hahead hread _ ih =>
    have hpos := List.length_pos_iff.mpr (Rule.defaultReading_ne_nil hread)
    have hlen := congrArg List.length hahead
    simp only [List.length_append] at hlen
    simp only [lines, List.flatMap_cons, List.length_append, List.length_cons] at ih ⊢
    omega

/-- Pieces of a valid text are valid. -/
lemma isValid (h : CutsInto settings ahead pieces stop)
    (hlen : ahead.length ≤ Pattern.unbounded) (pre : List UInt8)
    (hvalid : Text.Utf8.isValid (pre ++ ahead) = true) :
    ∀ piece ∈ pieces, Text.Utf8.isValid piece.2 = true := by
  induction h generalizing pre with
  | done => exact fun piece hmem => by cases hmem
  | @piece ahead w rest _ kind _ hahead hread _ ih =>
    have hsize := congrArg List.length hahead
    simp only [List.length_append] at hsize
    rw [hahead, ← List.append_assoc] at hvalid
    intro piece hmem
    rcases List.mem_cons.mp hmem with rfl | hmem
    · have hlast := (Rule.defaultReading_cut (by rw [List.length_append]; omega) hread).last
      obtain ⟨b, hb, hascii, -⟩ := Rule.first_ascii hread
      cases w with
      | nil => exact (Rule.defaultReading_ne_nil hread rfl).elim
      | cons b' w =>
        cases hb
        exact Text.Utf8.isValid_piece hvalid hascii hlast
    · rw [← List.append_assoc] at hvalid
      exact ih (by omega) _ hvalid piece hmem

/-- What becomes of unread input and how the text is called do not matter. -/
lemma withUnmatched (h : CutsInto settings ahead pieces stop) (mode : UnmatchedInput)
    (name : String) :
    CutsInto { settings with unmatched := mode, sourceName := name } ahead pieces stop := by
  induction h with
  | done hahead hread => exact .done hahead hread
  | piece hahead hread _ ih => exact .piece hahead hread ih

lemma skips_eq_blanks (hlen : ahead.length ≤ Pattern.unbounded)
    (h : settings.keepComments = false →
      Lexeme.comment.reads? (ahead.drop (Lexeme.blanks ahead).length) = none) :
    skips settings ahead = Lexeme.blanks ahead := by
  rw [skips]
  split
  · rfl
  · next hkeep => rw [Lexeme.skippable_eq hlen, h (Bool.not_eq_true _ ▸ hkeep), List.append_nil]

variable {w rest tail : List UInt8} {kind : TokenKind}

/-- Before a piece that has been read nothing is skipped, and a line feed there is all that is
skipped. -/
lemma skips_piece (hread : Rule.defaultReading settings (w ++ rest) = some (kind, w))
    (hlen : (10 :: (w ++ tail)).length ≤ Pattern.unbounded) (htail : ∀ b ∈ tail.head?, b = 10) :
    skips settings (w ++ tail) = [] ∧ skips settings (10 :: (w ++ tail)) = [10] := by
  have hblanks : Lexeme.blanks (w ++ tail) = [] := by
    obtain ⟨b, hb, -, hblank⟩ := Rule.first_ascii hread
    cases w with
    | nil => exact (Rule.defaultReading_ne_nil hread rfl).elim
    | cons b' w =>
      cases hb
      exact List.takeWhile_cons_of_neg (by rw [hblank]; decide)
  have hfeed : Lexeme.blanks (10 :: (w ++ tail)) = [10] := by
    rw [← hblanks]
    exact List.takeWhile_cons_of_pos (by decide)
  have hcomment : settings.keepComments = false → Lexeme.comment.reads? (w ++ tail) = none :=
    fun hkeep => Rule.comment_eq_none_of_cut hkeep hread htail
  refine ⟨?_, ?_⟩
  · rw [skips_eq_blanks (Nat.le_of_succ_le hlen) (by rwa [hblanks]), hblanks]
  · rw [skips_eq_blanks hlen (by rwa [hfeed]), hfeed]

lemma defaultReading_nil (settings : Settings) : Rule.defaultReading settings [] = none := by
  refine Option.eq_none_iff_forall_ne_some.mpr fun found h => ?_
  obtain ⟨b, hb, -⟩ := Rule.first_ascii h
  cases hb

lemma nil : CutsInto settings [] [] [] := by
  refine .done ?_ (defaultReading_nil settings)
  rw [List.prefix_nil.mp (Lexer.prefix_skips settings []), List.append_nil]

lemma head?_lines (pieces : List (TokenKind × List UInt8)) :
    ∀ b ∈ (lines pieces).head?, b = 10 := by
  cases pieces with
  | nil => exact fun b hb => by cases hb
  | cons piece pieces => exact fun b hb => (Option.some.inj hb).symm

/-- What a text is cut into, its lines are cut into, with a line feed at their front or not. -/
lemma lines_again (h : CutsInto settings ahead pieces stop)
    (hlen : ahead.length ≤ Pattern.unbounded) (hlines : (lines pieces).length ≤ Pattern.unbounded) :
    CutsInto settings (lines pieces) pieces [] ∧
      CutsInto settings (lines pieces).tail pieces [] := by
  induction h with
  | done => exact ⟨nil, nil⟩
  | @piece ahead w rest _ kind pieces hahead hread hrest ih =>
    have hsize := congrArg List.length hahead
    simp only [List.length_append] at hsize
    have hfeed : lines ((kind, w) :: pieces) = 10 :: (w ++ lines pieces) := rfl
    rw [hfeed] at hlines ⊢
    have hshort : (w ++ lines pieces).length ≤ Pattern.unbounded := Nat.le_of_succ_le hlines
    have hend : rest = [] → lines pieces = [] := by
      rintro rfl
      rw [(hrest.unique nil).1]
      rfl
    have hcut := (Rule.defaultReading_cut (by rw [List.length_append]; omega) hread).again
      (lines pieces) hshort (head?_lines pieces) hend
    obtain ⟨hnone, hone⟩ := skips_piece hread hlines (head?_lines pieces)
    rw [List.length_append] at hshort
    obtain ⟨hagain, -⟩ := ih (by omega) (by omega)
    exact ⟨.piece (by rw [hone]; rfl) hcut hagain, .piece (by rw [List.tail_cons, hnone]; rfl) hcut
      hagain⟩

end CutsInto

namespace Lexer

variable {src : Source} {settings : Settings} {n : Nat} {tokens : List Token} {l : Lexer}

/-- A run to the end cuts the text ahead into the pieces its tokens are of. -/
lemma Yields.cutsInto (hsize : src.bytes.size ≤ Pattern.unbounded) (hn : n ≤ src.bytes.size)
    (h : Yields (before src settings n) tokens l) :
    ∃ pieces, ∃ m ≤ src.bytes.size, l = before src settings m ∧
      CutsInto settings (src.bytes.toList.drop n) pieces (src.bytes.toList.drop m) ∧
      tokens.map (fun t => (t.kind, t.lexeme)) =
        pieces.map fun piece => (piece.1, Text.Utf8.decodeLossy piece.2) := by
  generalize hl : before src settings n = start at h
  induction h generalizing n with
  | done hnext =>
    subst hl
    obtain ⟨first, hfirst, hahead, -, ⟨hnone, hread⟩ | ⟨kind, w, -, hsome, -, -⟩⟩ :=
      next_before_cases hsize settings hn
    · obtain ⟨-, rfl⟩ := Prod.mk.inj (hnext.symm.trans hnone)
      exact ⟨[], first, hfirst, rfl, .done hahead hread, rfl⟩
    · cases (Prod.mk.inj (hnext.symm.trans hsome)).1
  | token hnext _ ih =>
    subst hl
    obtain ⟨first, hfirst, hahead, -, ⟨hnone, -⟩ | ⟨kind, w, hle, hsome, hw, hread⟩⟩ :=
      next_before_cases hsize settings hn
    · cases (Prod.mk.inj (hnext.symm.trans hnone)).1
    · obtain ⟨htoken, rfl⟩ := Prod.mk.inj (hnext.symm.trans hsome)
      obtain ⟨pieces, m, hm, hstop, hcuts, hmap⟩ := ih hle rfl
      rw [hw] at hahead hread
      refine ⟨(kind, w) :: pieces, m, hm, hstop, .piece hahead hread hcuts, ?_⟩
      rw [List.map_cons, List.map_cons, hmap, Option.some.inj htoken]
      rfl

/-- A text that is cut up to its end is read to its end. -/
lemma tokenize_of_cutsInto (src : Source) (hsize : src.bytes.size ≤ Pattern.unbounded)
    {pieces : List (TokenKind × List UInt8)} (h : CutsInto settings src.bytes.toList pieces []) :
    ∃ tokens, (before src settings 0).tokenize = (.ok tokens, before src settings src.bytes.size) ∧
      tokens.map (fun t => (t.kind, t.lexeme)) =
        pieces.map fun piece => (piece.1, Text.Utf8.decodeLossy piece.2) := by
  obtain ⟨tokens, stop, hrun⟩ := exists_yields src settings
  obtain ⟨pieces', m, hm, rfl, hcuts, hmap⟩ := hrun.cutsInto hsize (Nat.zero_le _)
  rw [List.drop_zero] at hcuts
  obtain ⟨rfl, hend⟩ := h.unique hcuts
  obtain rfl : m = src.bytes.size := Nat.le_antisymm hm (List.drop_eq_nil_iff.mp hend.symm)
  refine ⟨tokens, ?_, hmap⟩
  rw [tokenize_eq hm hrun.tokens_eq, Array.getElem?_eq_none le_rfl]

lemma atEnd_before_size : (before src settings src.bytes.size).cursor.atEnd = true := by
  have hpeek := peek_before settings (le_refl src.bytes.size)
  rw [List.drop_eq_nil_of_le Array.length_toList.le] at hpeek
  exact Option.isNone_iff_eq_none.mpr hpeek

/-- The lexemes of some tokens, each on a line of its own. -/
def joined (tokens : List Token) : Array UInt8 :=
  (Text.Utf8.encode ("\n".intercalate (tokens.map (·.lexeme)))).toArray

/-- If the pieces are valid, the lexemes joined again are their lines. -/
lemma joined_eq {pieces : List (TokenKind × List UInt8)}
    (hmap : tokens.map (fun t => (t.kind, t.lexeme)) =
      pieces.map fun piece => (piece.1, Text.Utf8.decodeLossy piece.2))
    (hvalid : ∀ piece ∈ pieces, Text.Utf8.isValid piece.2 = true) :
    (joined tokens).toList = (lines pieces).tail := by
  have hlexemes : tokens.map (·.lexeme) =
      pieces.map fun piece => Text.Utf8.decodeLossy piece.2 := by
    have hsnd := congrArg (List.map Prod.snd) hmap
    rwa [List.map_map, List.map_map] at hsnd
  rw [joined, List.toList_toArray, hlexemes]
  cases pieces with
  | nil => rfl
  | cons piece pieces =>
    rw [List.map_cons, Text.Utf8.encode_intercalate, Text.Utf8.encode_decodeLossy
      (hvalid piece List.mem_cons_self), List.flatMap_map]
    refine congrArg (piece.2 ++ ·) (List.flatMap_congr fun p hp => ?_)
    rw [Text.Utf8.encode_decodeLossy (hvalid p (List.mem_cons_of_mem _ hp))]
    rfl

/-- The lexemes of a valid text, each on a line of its own, are read to their end, and they are read
as the tokens they came from. -/
theorem tokenize_joined (bytes : Array UInt8) (settings : Settings) (name : String)
    (hvalid : Text.Utf8.isValid bytes.toList = true) (hfits : FitsMemory bytes) :
    ∃ tokens again,
      (ofBytes bytes { settings with unmatched := .stop }).tokenize.1 = .ok tokens ∧
      let l := ofBytes (joined tokens) { settings with unmatched := .error, sourceName := name }
      l.tokenize.1 = .ok again ∧ l.tokenize.2.cursor.atEnd = true ∧
      again.map (fun t => (t.kind, t.lexeme)) = tokens.map fun t => (t.kind, t.lexeme) := by
  have hsize := hfits.le_unbounded
  obtain ⟨tokens, stop, hrun⟩ :=
    exists_yields ⟨settings.sourceName, bytes⟩ { settings with unmatched := .stop }
  obtain ⟨pieces, m, hm, rfl, hcuts, hmap⟩ := hrun.cutsInto hsize (Nat.zero_le _)
  rw [List.drop_zero] at hcuts
  have hstop : (ofBytes bytes { settings with unmatched := .stop }).tokenize = _ :=
    tokenize_eq hm hrun.tokens_eq
  have hjoined := joined_eq hmap (hcuts.isValid hsize [] hvalid)
  have hlines : (lines pieces).length ≤ Pattern.unbounded := by
    have hbound : 2 * 0x7FFFFFFFFFFFFFFF ≤ Pattern.unbounded := by decide
    calc (lines pieces).length ≤ 2 * bytes.size := hcuts.length_lines_le
      _ ≤ 2 * 0x7FFFFFFFFFFFFFFF := Nat.mul_le_mul_left 2 hfits
      _ ≤ Pattern.unbounded := hbound
  have hsize' : (joined tokens).size ≤ Pattern.unbounded := by
    rw [← Array.length_toList, hjoined, List.length_tail]
    omega
  have hagain := (hcuts.lines_again hsize hlines).2.withUnmatched .error name
  rw [← hjoined] at hagain
  obtain ⟨again, hstrict, hmap'⟩ := tokenize_of_cutsInto ⟨name, joined tokens⟩ hsize' hagain
  have hstrict : (ofBytes (joined tokens)
      { settings with unmatched := .error, sourceName := name }).tokenize = _ := hstrict
  refine ⟨tokens, again, ?_, ?_, ?_, hmap'.trans hmap.symm⟩
  · rw [hstop]
    cases bytes[m]? <;> rfl
  · rw [hstrict]
  · rw [hstrict]
    exact atEnd_before_size

/-- Comments that are tokens, a number that goes back before its exponent, and letters of two
bytes. -/
theorem tokenize_joined_comments :
    let bytes := (Text.Utf8.encode "/* é */1.e+ \"ü\"// end").toArray
    let tokens : List Token :=
      [⟨.comment, ⟨1, 1, 0⟩, "/* é */"⟩, ⟨.integer, ⟨1, 9, 8⟩, "1"⟩, ⟨.member, ⟨1, 10, 9⟩, "."⟩,
        ⟨.identifier, ⟨1, 11, 10⟩, "e"⟩, ⟨.add, ⟨1, 12, 11⟩, "+"⟩, ⟨.text, ⟨1, 14, 13⟩, "\"ü\""⟩,
        ⟨.comment, ⟨1, 18, 17⟩, "// end"⟩]
    Text.Utf8.isValid bytes.toList = true ∧ FitsMemory bytes ∧
      (ofBytes bytes { keepComments := true }).tokenize.1 = .ok tokens ∧ ∃ again,
      let l := ofBytes (joined tokens)
        { unmatched := .error, keepComments := true, sourceName := "lexemes" }
      l.tokenize.1 = .ok again ∧ l.tokenize.2.cursor.atEnd = true ∧
      again.map (fun t => (t.kind, t.lexeme)) = tokens.map fun t => (t.kind, t.lexeme) := by
  intro bytes tokens
  have hvalid : Text.Utf8.isValid bytes.toList = true := by decide
  have hfits : FitsMemory bytes := by decide
  have hfirst : (ofBytes bytes { keepComments := true }).tokenize.1 = .ok tokens := by
    decide +kernel
  obtain ⟨tokens', again, htokens, hagain⟩ :=
    tokenize_joined bytes { keepComments := true } "lexemes" hvalid hfits
  obtain rfl : tokens' = tokens := Except.ok.inj (htokens.symm.trans hfirst)
  exact ⟨hvalid, hfits, hfirst, again, hagain⟩

end Lexer

end ByteLexer
