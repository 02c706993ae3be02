import ByteLexer.Lexer.Basic
import ByteLexer.Proofs.Numbers
import Mathlib.Data.List.TakeWhile

/-!
# Texts, characters and comments

What is read between delimiters. A text is read in units, a byte or a backslash with the byte it
escapes, through the first closing delimiter that begins at a unit; comments end with their line or
at the first closing delimiter. The loop that skips blanks and comments stops where neither is
ahead, and what it skips can be taken apart at any comment.
-/

namespace ByteLexer

namespace Lexeme

open ByteClass (isEpsilon_ofList)
open Pattern

/-- Through the first `closing` ahead that begins at a unit. -/
def closedBy (closing : List UInt8) : List UInt8 → Option (List UInt8)
  | [] => none
  | [b] => if closing <+: [b] then some closing else none
  | b :: c :: rest =>
    if closing <+: b :: c :: rest then some closing
    else if b = 92 then (closedBy closing rest).map (b :: c :: ·)
    else (closedBy closing (c :: rest)).map (b :: ·)

/-- Through the end of the line. -/
def lineRest : List UInt8 → List UInt8
  | [] => []
  | b :: rest => if ByteClass.newline.contains b then [b] else b :: lineRest rest

/-- Through the first `*/`. -/
def blockRest : List UInt8 → Option (List UInt8)
  | [] => none
  | b :: rest => if [42, 47] <+: b :: rest then some [42, 47] else (blockRest rest).map (b :: ·)

variable {closing ahead w rest : List UInt8} {b c : UInt8}

/-- Matches just the bytes `d`. -/
def Spells (p : Pattern) (d : List UInt8) : Prop :=
  ∀ ahead, p.reads? ahead = if d <+: ahead then some d else none

lemma spells_char (x : Char) : Spells (Pattern.char x) [x.toUInt8] := by
  intro ahead
  cases ahead with
  | nil => exact reads?_ofClass_nil (isEpsilon_ofList _)
  | cons b rest =>
    have h := reads?_ofClass_cons (c := .char x) (isEpsilon_ofList _) b rest
    simp only [ByteClass.char, ByteClass.contains_single, decide_eq_true_eq] at h
    rw [Pattern.char, ByteClass.char, h]
    by_cases hb : b = x.toUInt8
    · simp [hb]
    · simp [hb, Ne.symm hb]

lemma spells_ofString (s : String) : Spells (Pattern.ofString s) (Text.Utf8.encode s) :=
  fun ahead => reads?_literal _ ahead

lemma Spells.attempt {p : Pattern} {d : List UInt8} (h : Spells p d) : Spells p.attempt d :=
  fun ahead => (reads?_attempt p ahead).trans (h ahead)

lemma reads?_any_cons (b : UInt8) (rest : List UInt8) :
    (ofClass .any).reads? (b :: rest) = some [b] := by
  rw [reads?_ofClass_cons rfl, ByteClass.contains_any, if_pos rfl]

lemma reads?_escapedChar_nil : escapedChar.reads? [] = none := by decide

lemma reads?_escapedChar_cons (b : UInt8) (rest : List UInt8) :
    escapedChar.reads? (b :: rest) =
      if b = 92 then rest.head?.map fun c => [b, c] else some [b] := by
  have halt : escapedChar.reads? (b :: rest) =
      ((ofClass .notEscape).reads? (b :: rest)).or
        (((Pattern.char '\\').seq (ofClass .any)).reads? (b :: rest)) :=
    reads?_alt (goesBack_ofClass _) _ _
  have hplain : ByteClass.notEscape.contains b = !decide (b = 92) := by
    have hslash : '\\'.toUInt8 = 92 := rfl
    simp [ByteClass.notEscape, ByteClass.escape, ByteClass.char, hslash]
  rw [halt, reads?_ofClass_cons rfl, hplain]
  by_cases hb : b = 92
  · subst hb
    have hchar : (Pattern.char '\\').reads? (92 :: rest) = some [92] := by
      rw [spells_char]
      exact if_pos ⟨rest, rfl⟩
    rw [reads?_seq, hchar]
    cases rest with
    | nil => decide
    | cons c rest => simp [reads?_any_cons]
  · simp [hb]

/-- The loop of a text reads through the first closing delimiter. -/
lemma readsOn_closedBy {p : Pattern} (h : Spells p closing) (hne : closing ≠ []) :
    ReadsOn escapedChar p (closedBy closing) := by
  intro ahead
  rw [h]
  cases ahead with
  | nil => simp [closedBy, hne, reads?_escapedChar_nil]
  | cons b rest =>
    rw [reads?_escapedChar_cons]
    cases rest with
    | nil =>
      rw [closedBy]
      split
      · rfl
      · split <;> simp [closedBy]
    | cons c rest =>
      rw [closedBy]
      split
      · rfl
      · split <;> simp

lemma reads?_bracket_escaped {opening p : Pattern} {d : List UInt8} (ho : Spells opening d)
    (hp : Spells p closing) (hback : p.GoesBack) (hne : closing ≠ []) (ahead : List UInt8) :
    (bracket opening escapedChar p).reads? ahead =
      if d <+: ahead then (closedBy closing (ahead.drop d.length)).map (d ++ ·) else none := by
  rw [reads?_bracket hback (readsOn_closedBy hp hne), ho]
  split <;> rfl

/-- A text stands between three quotes if such a text is closed, and between one otherwise. -/
lemma reads?_text (ahead : List UInt8) : text.reads? ahead =
    (if [34, 34, 34] <+: ahead then
      (closedBy [34, 34, 34] (ahead.drop 3)).map ([34, 34, 34] ++ ·) else none).or
    (if [34] <+: ahead then (closedBy [34] (ahead.drop 1)).map ([34] ++ ·) else none) := by
  have hthree : Spells (Pattern.ofString "\"\"\"") [34, 34, 34] := spells_ofString "\"\"\""
  have hone : Spells (Pattern.char '"') [34] := spells_char '"'
  have halt : text.reads? ahead = ((bracket (Pattern.ofString "\"\"\"") escapedChar
      (Pattern.ofString "\"\"\"").attempt).attempt.reads? ahead).or
      ((bracket (Pattern.char '"') escapedChar (Pattern.char '"')).reads? ahead) :=
    reads?_alt (goesBack_attempt _) _ _
  rw [halt, reads?_attempt,
    reads?_bracket_escaped hthree hthree.attempt (goesBack_attempt _) (by decide),
    reads?_bracket_escaped hone hone (goesBack_ofClass _) (by decide)]
  rfl

/-- One byte that is no backslash, or a backslash with any byte. -/
def IsUnit (u : List UInt8) : Prop := (∃ b, b ≠ 92 ∧ u = [b]) ∨ ∃ b, u = [92, b]

lemma escapedChar_eq_some_iff {u : List UInt8} :
    escapedChar.reads? ahead = some u ↔ IsUnit u ∧ u <+: ahead := by
  cases ahead with
  | nil =>
    rw [reads?_escapedChar_nil]
    refine ⟨fun h => (by cases h), ?_⟩
    rintro ⟨⟨b, -, rfl⟩ | ⟨b, rfl⟩, hu⟩
    · cases List.prefix_nil.mp hu
    · cases List.prefix_nil.mp hu
  | cons b rest =>
    rw [reads?_escapedChar_cons]
    by_cases hb : b = 92
    · subst hb
      rw [if_pos rfl]
      constructor
      · intro h
        obtain ⟨c, hc, rfl⟩ := Option.map_eq_some_iff.mp h
        obtain ⟨tail, rfl⟩ := List.head?_eq_some_iff.mp hc
        exact ⟨.inr ⟨c, rfl⟩, tail, rfl⟩
      · rintro ⟨⟨c, hc, rfl⟩ | ⟨c, rfl⟩, tail, htail⟩
        · exact (hc (List.cons.inj htail).1).elim
        · rw [← (List.cons.inj htail).2]
          rfl
    · rw [if_neg hb]
      constructor
      · intro h
        cases h
        exact ⟨.inl ⟨b, hb, rfl⟩, rest, rfl⟩
      · rintro ⟨⟨c, -, rfl⟩ | ⟨c, rfl⟩, tail, htail⟩
        · rw [(List.cons.inj htail).1]
        · exact (hb (List.cons.inj htail).1.symm).elim

/-- A character is one unit between quotes. -/
lemma character_eq_some_iff :
    character.reads? ahead = some w ↔ ∃ u, IsUnit u ∧ w = 39 :: (u ++ [39]) ∧ w <+: ahead := by
  have hquote : Spells (Pattern.char '\'') [39] := spells_char '\''
  have hseq : character.reads? ahead = (if [39] <+: ahead then some [39] else none).bind fun q =>
      ((escapedChar.seq (Pattern.char '\'')).reads? (ahead.drop q.length)).map (q ++ ·) := by
    rw [← hquote]
    exact reads?_seq _ _ _
  have hrest : ∀ rest v, (escapedChar.seq (Pattern.char '\'')).reads? rest = some v ↔
      ∃ u, IsUnit u ∧ v = u ++ [39] ∧ v <+: rest := by
    intro rest v
    rw [reads?_seq]
    constructor
    · intro h
      obtain ⟨u, hu, h⟩ := Option.bind_eq_some_iff.mp h
      obtain ⟨hunit, tail, rfl⟩ := escapedChar_eq_some_iff.mp hu
      rw [hquote, List.drop_left] at h
      split at h
      · next hpre =>
        cases h
        exact ⟨u, hunit, rfl, (List.prefix_append_right_inj u).mpr hpre⟩
      · cases h
    · rintro ⟨u, hunit, rfl, tail, rfl⟩
      rw [escapedChar_eq_some_iff.mpr ⟨hunit, [39] ++ tail, by simp⟩, Option.bind_some,
        List.append_assoc, List.drop_left, hquote, if_pos (List.prefix_append _ _)]
      rfl
  rw [hseq]
  constructor
  · intro h
    split at h
    · next hpre =>
      obtain ⟨tail, rfl⟩ := hpre
      obtain ⟨v, hv, rfl⟩ := Option.map_eq_some_iff.mp h
      obtain ⟨u, hunit, rfl, hpre⟩ := (hrest _ v).mp hv
      exact ⟨u, hunit, rfl, (List.prefix_append_right_inj [39]).mpr hpre⟩
    · cases h
  · rintro ⟨u, hunit, rfl, tail, rfl⟩
    rw [if_pos ⟨u ++ [39] ++ tail, by simp⟩, Option.bind_some]
    have h := (hrest (u ++ [39] ++ tail) (u ++ [39])).mpr
      ⟨u, hunit, rfl, List.prefix_append _ _⟩
    simpa using h

lemma readsOn_lineRest :
    ReadsOn (ofClass .any) (ofClass .newline <|> eof) fun ahead => some (lineRest ahead) := by
  intro ahead
  have halt : (ofClass .newline <|> eof).reads? ahead =
      ((ofClass .newline).reads? ahead).or (eof.reads? ahead) :=
    reads?_alt (goesBack_ofClass _) _ _
  rw [halt]
  cases ahead with
  | nil => rfl
  | cons b rest =>
    have heof : eof.reads? (b :: rest) = none := rfl
    dsimp only
    rw [heof, Option.or_none, reads?_ofClass_cons rfl, reads?_any_cons, lineRest]
    split <;> simp

lemma readsOn_blockRest :
    ReadsOn (ofClass .any) (Pattern.ofString "*/").attempt blockRest := by
  intro ahead
  have hclose : Spells (Pattern.ofString "*/") [42, 47] := spells_ofString "*/"
  rw [hclose.attempt]
  cases ahead with
  | nil => rfl
  | cons b rest =>
    rw [reads?_any_cons, blockRest]
    split <;> simp

/-- The end of a block is the first `*/`. -/
lemma blockRest_eq_some_iff : blockRest rest = some w ↔ ∃ body, w = body ++ [42, 47] ∧
    w <+: rest ∧ ∀ other, other ++ [42, 47] <+: rest → body.length ≤ other.length := by
  induction rest generalizing w with
  | nil =>
    refine iff_of_false (by rw [blockRest]; exact (Option.some_ne_none w).symm) ?_
    rintro ⟨body, rfl, hpre, -⟩
    simp at hpre
  | cons b rest ih =>
    rw [blockRest]
    by_cases hclosed : [42, 47] <+: b :: rest
    · rw [if_pos hclosed]
      constructor
      · intro h
        cases h
        exact ⟨[], rfl, hclosed, fun other _ => Nat.zero_le _⟩
      · rintro ⟨body, rfl, -, hfirst⟩
        rw [List.length_eq_zero_iff.mp (Nat.le_zero.mp (hfirst [] hclosed)), List.nil_append]
    · -- A body is not empty here, and begins with the same byte as the text.
      have hinside : ∀ other, other ++ [42, 47] <+: b :: rest →
          ∃ more, other = b :: more ∧ more ++ [42, 47] <+: rest := by
        intro other hpre
        cases other with
        | nil => exact (hclosed hpre).elim
        | cons c more =>
          obtain ⟨rfl, hmore⟩ := List.cons_prefix_cons.mp hpre
          exact ⟨more, rfl, hmore⟩
      rw [if_neg hclosed]
      constructor
      · intro h
        obtain ⟨v, hv, rfl⟩ := Option.map_eq_some_iff.mp h
        obtain ⟨body, rfl, hpre, hfirst⟩ := ih.mp hv
        refine ⟨b :: body, rfl, List.cons_prefix_cons.mpr ⟨rfl, hpre⟩, fun other hother => ?_⟩
        obtain ⟨more, rfl, hmore⟩ := hinside other hother
        exact Nat.succ_le_succ (hfirst more hmore)
      · rintro ⟨body, rfl, hpre, hfirst⟩
        obtain ⟨more, rfl, hmore⟩ := hinside body hpre
        refine Option.map_eq_some_iff.mpr ⟨more ++ [42, 47], ih.mpr ⟨more, rfl, hmore, ?_⟩, rfl⟩
        intro other hother
        exact Nat.le_of_succ_le_succ
          (hfirst (b :: other) (List.cons_prefix_cons.mpr ⟨rfl, hother⟩))

/-- A comment goes from two slashes through the end of the line, or from `/*` through the first
`*/`. -/
lemma reads?_comment (ahead : List UInt8) : comment.reads? ahead =
    if [47, 47] <+: ahead then some ([47, 47] ++ lineRest (ahead.drop 2))
    else if [47, 42] <+: ahead then (blockRest (ahead.drop 2)).map ([47, 42] ++ ·) else none := by
  have hline : Spells (Pattern.ofString "//") [47, 47] := spells_ofString "//"
  have hblock : Spells (Pattern.ofString "/*") [47, 42] := spells_ofString "/*"
  have halt : comment.reads? ahead =
      (lineComment.attempt.reads? ahead).or (blockComment.attempt.reads? ahead) :=
    reads?_alt (goesBack_attempt _) _ _
  have hlineComment : lineComment.reads? ahead =
      if [47, 47] <+: ahead then some ([47, 47] ++ lineRest (ahead.drop 2)) else none := by
    have h := reads?_bracket ((goesBack_ofClass .newline).alt goesBack_eof) readsOn_lineRest
      (Pattern.ofString "//") ahead
    rw [hline] at h
    refine h.trans ?_
    split <;> rfl
  have hblockComment : blockComment.reads? ahead =
      if [47, 42] <+: ahead then (blockRest (ahead.drop 2)).map ([47, 42] ++ ·) else none := by
    have h := reads?_bracket (goesBack_attempt _) readsOn_blockRest (Pattern.ofString "/*") ahead
    rw [hblock] at h
    refine h.trans ?_
    split <;> rfl
  rw [halt, reads?_attempt, reads?_attempt, hlineComment, hblockComment]
  split <;> rfl

lemma reads?_comment_line (rest : List UInt8) :
    comment.reads? ([47, 47] ++ rest) = some ([47, 47] ++ lineRest rest) := by
  rw [reads?_comment, if_pos (List.prefix_append _ _)]
  rfl

lemma reads?_comment_block (rest : List UInt8) :
    comment.reads? ([47, 42] ++ rest) = (blockRest rest).map ([47, 42] ++ ·) := by
  rw [reads?_comment, if_neg (by simp), if_pos (List.prefix_append _ _)]
  rfl

lemma comment_cases (h : comment.reads? ahead = some w) :
    (∃ rest, ahead = [47, 47] ++ rest ∧ w = [47, 47] ++ lineRest rest) ∨
    ∃ rest v, ahead = [47, 42] ++ rest ∧ blockRest rest = some v ∧ w = [47, 42] ++ v := by
  rw [reads?_comment] at h
  split at h
  · next hpre =>
    obtain ⟨rest, rfl⟩ := hpre
    exact .inl ⟨rest, rfl, (Option.some.inj h).symm⟩
  · split at h
    · next hpre =>
      obtain ⟨rest, rfl⟩ := hpre
      obtain ⟨v, hv, rfl⟩ := Option.map_eq_some_iff.mp h
      exact .inr ⟨rest, v, rfl, hv, rfl⟩
    · cases h

lemma comment_ne_nil (h : comment.reads? ahead = some w) : w ≠ [] := by
  obtain ⟨rest, -, rfl⟩ | ⟨rest, v, -, -, rfl⟩ := comment_cases h
  · exact List.cons_ne_nil _ _
  · exact List.cons_ne_nil _ _

lemma goesBack_comment : comment.GoesBack := (goesBack_attempt _).alt (goesBack_attempt _)

/-- The blanks up to the first other byte. -/
def blanks (ahead : List UInt8) : List UInt8 := ahead.takeWhile ByteClass.space.contains

lemma blanks_eq_nil_iff : blanks ahead = [] ↔ ∀ b ∈ ahead.head?, b ∉ [32, 9, 13, 10] := by
  cases ahead with
  | nil => simp [blanks]
  | cons b rest =>
    simp only [List.head?_cons, Option.mem_some_iff, forall_eq', ← contains_space, blanks]
    by_cases hb : ByteClass.space.contains b = true
    · simp [hb]
    · simp [hb]

lemma goesBack_spaces : spaces.GoesBack := (goesBack_ofClass _).repetition_one _

lemma reads?_spaces (hlen : ahead.length ≤ unbounded) :
    spaces.reads? ahead = if blanks ahead = [] then none else some (blanks ahead) := by
  refine (munches_run (c := .space) (isEpsilon_ofList _) ahead hlen).unique ?_
  have hrun : ∀ v, v ∈ Run .space → v ≠ [] ∧ ∀ b ∈ v, ByteClass.space.contains b = true :=
    fun v hv => ⟨fun h => nil_notMem_run _ (h ▸ hv), consistsOf_run _ v hv⟩
  have hpre : ∀ v, v <+: ahead → v ∈ Run .space → v <+: blanks ahead := by
    rintro v ⟨t, rfl⟩ hv
    rw [blanks, List.takeWhile_append_of_pos (hrun v hv).2]
    exact List.prefix_append _ _
  split
  · next h =>
    intro v hv hmem
    exact (hrun v hmem).1 (List.prefix_nil.mp (h ▸ hpre v hv hmem))
  · next h =>
    refine ⟨List.takeWhile_prefix _, ?_, fun v hv hmem => (hpre v hv hmem).length_le⟩
    obtain ⟨b, t, hbt⟩ := List.exists_cons_of_ne_nil h
    have hall : ∀ x ∈ b :: t, ByteClass.space.contains x = true := by
      intro x hx
      rw [← hbt] at hx
      exact List.mem_takeWhile_imp hx
    rw [hbt]
    exact Language.append_mem_mul (a := [b]) ⟨b, hall b List.mem_cons_self, rfl⟩
      (mem_kstar_oneByte.mpr fun x hx => hall x (List.mem_cons_of_mem _ hx))

lemma goesBack_blank_or_comment : (spaces <|> comment).GoesBack :=
  goesBack_spaces.alt goesBack_comment

lemma trivia_isSome (ahead : List UInt8) : (trivia.reads? ahead).isSome :=
  goesBack_blank_or_comment.reads?_repetition_isSome _ ahead

lemma goesBack_trivia : trivia.GoesBack := goesBack_of_isSome trivia_isSome

/-- The blanks and comments up to the first byte of anything else. -/
def skippable (ahead : List UInt8) : List UInt8 := (trivia.reads? ahead).getD []

lemma reads?_trivia (ahead : List UInt8) : trivia.reads? ahead = some (skippable ahead) := by
  obtain ⟨w, hw⟩ := Option.isSome_iff_exists.mp (trivia_isSome ahead)
  rw [skippable, hw, Option.getD_some]

lemma reads?_blank_or_comment (hlen : ahead.length ≤ unbounded) :
    (spaces <|> comment).reads? ahead =
      if blanks ahead = [] then comment.reads? ahead else some (blanks ahead) := by
  have halt : (spaces <|> comment).reads? ahead =
      (spaces.reads? ahead).or (comment.reads? ahead) := reads?_alt goesBack_spaces _ _
  rw [halt, reads?_spaces hlen]
  split <;> simp

lemma skippable_of_none (h : (spaces <|> comment).reads? ahead = none) : skippable ahead = [] := by
  have htrivia : trivia.reads? ahead = some [] :=
    reads?_repetition_none goesBack_blank_or_comment h unbounded
  rw [skippable, htrivia, Option.getD_some]

lemma skippable_of_some (hlen : ahead.length ≤ unbounded)
    (h : (spaces <|> comment).reads? ahead = some w) (hne : w ≠ []) :
    skippable ahead = w ++ skippable (ahead.drop w.length) := by
  have hpos := List.length_pos_iff.mpr hne
  have hle := (prefix_of_reads h).length_le
  have hdrop : (ahead.drop w.length).length = ahead.length - w.length := List.length_drop
  have hrest : trivia.reads? (ahead.drop w.length) =
      ((spaces <|> comment).repetition 0 (unbounded - 1)).reads? (ahead.drop w.length) :=
    reads?_repetition_congr _ (by omega) (by omega)
  have htrivia : trivia.reads? ahead =
      (trivia.reads? (ahead.drop w.length)).map (w ++ ·) := by
    rw [hrest]
    exact reads?_repetition_some h hne (unbounded - 1)
  rw [reads?_trivia, reads?_trivia, Option.map_some] at htrivia
  exact Option.some.inj htrivia

lemma blanks_drop (ahead : List UInt8) : blanks (ahead.drop (blanks ahead).length) = [] := by
  induction ahead with
  | nil => rfl
  | cons b rest ih =>
    by_cases hb : ByteClass.space.contains b = true
    · simpa [blanks, hb] using ih
    · simp [blanks, hb]

lemma skippable_of_blanks_nil (hlen : ahead.length ≤ unbounded) (h : blanks ahead = []) :
    skippable ahead = match comment.reads? ahead with
      | some w => w ++ skippable (ahead.drop w.length)
      | none => [] := by
  have hstep : (spaces <|> comment).reads? ahead = comment.reads? ahead := by
    rw [reads?_blank_or_comment hlen, if_pos h]
  cases hc : comment.reads? ahead with
  | none => exact skippable_of_none (hstep.trans hc)
  | some w => exact skippable_of_some hlen (hstep.trans hc) (comment_ne_nil hc)

lemma skippable_eq_nil (hlen : ahead.length ≤ unbounded) (hblanks : blanks ahead = [])
    (hcomment : comment.reads? ahead = none) : skippable ahead = [] := by
  rw [skippable_of_blanks_nil hlen hblanks, hcomment]

/-- Blanks first, and then whatever can be skipped after them. -/
lemma skippable_eq_blanks_append (hlen : ahead.length ≤ unbounded) :
    skippable ahead = blanks ahead ++ skippable (ahead.drop (blanks ahead).length) := by
  by_cases hblank : blanks ahead = []
  · rw [hblank]
    rfl
  · refine skippable_of_some hlen ?_ hblank
    rw [reads?_blank_or_comment hlen, if_neg hblank]

/-- Blanks first, and then, if a comment comes next, the comment and whatever can be skipped after
it. -/
lemma skippable_eq (hlen : ahead.length ≤ unbounded) :
    skippable ahead = blanks ahead ++ match comment.reads? (ahead.drop (blanks ahead).length) with
      | some w => w ++ skippable (ahead.drop ((blanks ahead).length + w.length))
      | none => [] := by
  have hrest : (ahead.drop (blanks ahead).length).length ≤ unbounded := by
    rw [List.length_drop]
    omega
  have hafter := skippable_of_blanks_nil hrest (blanks_drop ahead)
  simp only [List.drop_drop] at hafter
  rw [skippable_eq_blanks_append hlen, hafter]

/-- Where skipping stops there is neither a blank nor a comment. -/
lemma drop_skippable (hlen : ahead.length ≤ unbounded) :
    blanks (ahead.drop (skippable ahead).length) = [] ∧
      comment.reads? (ahead.drop (skippable ahead).length) = none := by
  induction hn : ahead.length using Nat.strong_induction_on generalizing ahead with
  | _ n ih =>
    rw [skippable_eq hlen]
    cases hc : comment.reads? (ahead.drop (blanks ahead).length) with
    | none =>
      rw [List.append_nil]
      exact ⟨blanks_drop ahead, hc⟩
    | some w =>
      have hpos := List.length_pos_iff.mpr (comment_ne_nil hc)
      have hle := (prefix_of_reads hc).length_le
      have hdrop : (ahead.drop (blanks ahead).length).length =
          ahead.length - (blanks ahead).length := List.length_drop
      have hshort : (ahead.drop ((blanks ahead).length + w.length)).length < n := by
        rw [List.length_drop]
        omega
      have hrest := ih _ hshort (by omega) rfl
      rw [List.drop_drop] at hrest
      simpa only [List.length_append, Nat.add_assoc] using hrest

end Lexeme

end ByteLexer
