import ByteLexer.Proofs.Delimiters
import ByteLexer.Proofs.Stream
import ByteLexer.Proofs.TextAhead
import Mathlib.Logic.Relation

/-!
# Comments and what is skipped

A comment of two slashes goes through the first line end and cannot fail; the other kind goes
through the first `*/` and is none if there is no `*/`. Blanks and comments are skipped one after
the other. Where skipping stops does not change when one of them is skipped beforehand, so it stops
at the one place that is reached over blanks and comments and has neither ahead.
-/

namespace ByteLexer

namespace Lexeme

open Pattern
open Relation (ReflTransGen)

/-- A carriage return or a line feed. -/
def EndsLine (b : UInt8) : Prop := b = 13 ∨ b = 10

instance : DecidablePred EndsLine := fun _ => inferInstanceAs (Decidable (_ ∨ _))

/-- The comment at the front of a text: from two slashes through the first line end, or to the end
of the text if no line ends, or from `/*` through the first `*/` after it. -/
inductive CommentAhead (ahead : List UInt8) : List UInt8 → Prop where
  | line {body : List UInt8} {b : UInt8} (hbody : ∀ c ∈ body, ¬ EndsLine c) (hb : EndsLine b)
      (h : [47, 47] ++ body ++ [b] <+: ahead) : CommentAhead ahead ([47, 47] ++ body ++ [b])
  | lastLine {body : List UInt8} (hbody : ∀ c ∈ body, ¬ EndsLine c)
      (h : [47, 47] ++ body = ahead) : CommentAhead ahead ([47, 47] ++ body)
  | block {body : List UInt8} (h : [47, 42] ++ body ++ [42, 47] <+: ahead)
      (hfirst : ∀ other, [47, 42] ++ other ++ [42, 47] <+: ahead → body.length ≤ other.length) :
      CommentAhead ahead ([47, 42] ++ body ++ [42, 47])

/-- A text begins with two slashes, or with `/*` and has `*/` after that. -/
def StartsComment (ahead : List UInt8) : Prop :=
  [47, 47] <+: ahead ∨ [47, 42] <+: ahead ∧ [42, 47] <:+: ahead.drop 2

/-- From a text to the rest of it behind a blank or a comment at its front. -/
inductive Skips : List UInt8 → List UInt8 → Prop where
  | blank {b : UInt8} {rest : List UInt8} (hb : b ∈ [32, 9, 13, 10]) : Skips (b :: rest) rest
  | comment {w rest : List UInt8} (h : CommentAhead (w ++ rest) w) : Skips (w ++ rest) rest

/-- Neither a blank nor a comment is at the front of a text. -/
def NothingToSkip (ahead : List UInt8) : Prop :=
  (∀ b ∈ ahead.head?, b ∉ [32, 9, 13, 10]) ∧ ¬ StartsComment ahead

variable {ahead body rest w : List UInt8} {b : UInt8} {src : Source} {s : Scan}

lemma contains_newline (b : UInt8) : ByteClass.newline.contains b = true ↔ EndsLine b := by
  have hlist : ByteClass.newline = .ofList [13, 10] := by decide
  rw [hlist, ByteClass.contains_ofList, List.contains_iff_mem, List.mem_pair]
  rfl

lemma lineRest_append (hbody : ∀ c ∈ body, ¬ EndsLine c) (rest : List UInt8) :
    lineRest (body ++ rest) = body ++ lineRest rest := by
  induction body with
  | nil => rfl
  | cons c body ih =>
    rw [List.forall_mem_cons] at hbody
    rw [List.cons_append, lineRest, if_neg (mt (contains_newline c).mp hbody.1), ih hbody.2]
    rfl

/-- A text parts before its first line end. -/
lemma exists_lineEnd (rest : List UInt8) : ∃ body tail, rest = body ++ tail ∧
    (∀ c ∈ body, ¬ EndsLine c) ∧ ∀ b ∈ tail.head?, EndsLine b := by
  refine ⟨rest.takeWhile (¬ EndsLine ·), rest.dropWhile (¬ EndsLine ·),
    List.takeWhile_append_dropWhile.symm, fun c hc => ?_, fun b hb => ?_⟩
  · simpa using List.mem_takeWhile_imp hc
  · have hstop := List.head?_dropWhile_not (fun c => decide (¬ EndsLine c)) rest
    rw [Option.mem_def.mp hb] at hstop
    simpa using hstop

lemma isSome_blockRest_iff : (blockRest rest).isSome = true ↔ [42, 47] <:+: rest := by
  induction rest with
  | nil => simp [blockRest]
  | cons b rest ih =>
    rw [blockRest, List.infix_cons_iff]
    split
    · next h => exact iff_of_true rfl (.inl h)
    · next h => rw [Option.isSome_map, ih, or_iff_right h]

lemma block_prefix_iff :
    [47, 42] ++ body ++ [42, 47] <+: [47, 42] ++ rest ↔ body ++ [42, 47] <+: rest := by
  rw [List.append_assoc, List.prefix_append_right_inj]

/-- What the pattern of comments reads is the comment ahead. -/
lemma commentAhead_of_reads (h : comment.reads? ahead = some w) : CommentAhead ahead w := by
  obtain ⟨rest, rfl, rfl⟩ | ⟨rest, v, rfl, hv, rfl⟩ := comment_cases h
  · obtain ⟨body, tail, rfl, hbody, htail⟩ := exists_lineEnd rest
    rw [lineRest_append hbody]
    cases tail with
    | nil => simpa [lineRest] using CommentAhead.lastLine hbody rfl
    | cons b tail =>
      have hb : EndsLine b := htail b rfl
      rw [lineRest, if_pos ((contains_newline b).mpr hb), ← List.append_assoc]
      exact .line hbody hb ⟨tail, by simp⟩
  · obtain ⟨body, rfl, hpre, hfirst⟩ := blockRest_eq_some_iff.mp hv
    rw [← List.append_assoc]
    exact .block (block_prefix_iff.mpr hpre) fun other hother =>
      hfirst other (block_prefix_iff.mp hother)

/-- The comment ahead is read. -/
lemma CommentAhead.reads?_eq (h : CommentAhead ahead w) : comment.reads? ahead = some w := by
  cases h with
  | @line body b hbody hb h =>
    obtain ⟨tail, rfl⟩ := h
    have hend : lineRest (b :: tail) = [b] := if_pos ((contains_newline b).mpr hb)
    rw [List.append_assoc, List.append_assoc, List.append_assoc, reads?_comment_line,
      lineRest_append hbody, List.singleton_append, hend]
  | @lastLine body hbody h =>
    have hend : lineRest body = body := by
      simpa [lineRest] using lineRest_append hbody []
    rw [← h, reads?_comment_line, hend]
  | @block body h hfirst =>
    obtain ⟨rest, rfl⟩ : [47, 42] <+: ahead := by
      rw [List.append_assoc] at h
      exact (List.prefix_append _ _).trans h
    have hread : blockRest rest = some (body ++ [42, 47]) :=
      blockRest_eq_some_iff.mpr ⟨body, rfl, block_prefix_iff.mp h, fun other hother =>
        hfirst other (block_prefix_iff.mpr hother)⟩
    rw [reads?_comment_block, hread, List.append_assoc]
    rfl

/-- A comment is ahead where one starts. -/
lemma isSome_comment_iff : (comment.reads? ahead).isSome = true ↔ StartsComment ahead := by
  constructor
  · intro h
    obtain ⟨w, hw⟩ := Option.isSome_iff_exists.mp h
    obtain ⟨rest, rfl, -⟩ | ⟨rest, v, rfl, hv, -⟩ := comment_cases hw
    · exact .inl (List.prefix_append _ _)
    · exact .inr ⟨List.prefix_append _ _, isSome_blockRest_iff.mp (Option.isSome_of_mem hv)⟩
  · rintro (⟨rest, rfl⟩ | ⟨⟨rest, rfl⟩, hclosed⟩)
    · rw [reads?_comment_line]
      rfl
    · rw [reads?_comment_block, Option.isSome_map, isSome_blockRest_iff]
      exact hclosed

/-- The rest of a text behind all that is skipped. -/
def afterSkipped (ahead : List UInt8) : List UInt8 := ahead.drop (skippable ahead).length

lemma blanks_of_startsComment (h : StartsComment ahead) : blanks ahead = [] := by
  rw [blanks_eq_nil_iff]
  obtain ⟨rest, rfl⟩ | ⟨⟨rest, rfl⟩, -⟩ := h
  · rintro b ⟨⟩
    decide
  · rintro b ⟨⟩
    decide

lemma nothingToSkip_iff :
    NothingToSkip ahead ↔ blanks ahead = [] ∧ comment.reads? ahead = none := by
  rw [NothingToSkip, blanks_eq_nil_iff, ← isSome_comment_iff, Option.not_isSome_iff_eq_none]

lemma NothingToSkip.skippable_eq (h : NothingToSkip ahead) (hlen : ahead.length ≤ unbounded) :
    skippable ahead = [] := by
  obtain ⟨hblanks, hcomment⟩ := nothingToSkip_iff.mp h
  exact skippable_eq_nil hlen hblanks hcomment

lemma NothingToSkip.afterSkipped_eq (h : NothingToSkip ahead) (hlen : ahead.length ≤ unbounded) :
    afterSkipped ahead = ahead := by
  rw [afterSkipped, h.skippable_eq hlen]
  rfl

lemma nothingToSkip_afterSkipped (hlen : ahead.length ≤ unbounded) :
    NothingToSkip (afterSkipped ahead) := nothingToSkip_iff.mpr (drop_skippable hlen)

lemma Skips.length_lt (h : Skips ahead rest) : rest.length < ahead.length := by
  cases h with
  | blank hb => exact Nat.lt_succ_self _
  | @comment w rest h =>
    have hpos := List.length_pos_iff.mpr (comment_ne_nil h.reads?_eq)
    rw [List.length_append]
    omega

/-- Skipping stops at the same place if a blank or a comment has been skipped before. -/
lemma Skips.afterSkipped_eq (h : Skips ahead rest) (hlen : ahead.length ≤ unbounded) :
    afterSkipped ahead = afterSkipped rest := by
  have hrest : rest.length ≤ unbounded := h.length_lt.le.trans hlen
  cases h with
  | @blank b rest hb =>
    have hblanks : blanks (b :: rest) = b :: blanks rest :=
      List.takeWhile_cons_of_pos (contains_space.mpr hb)
    have hskip : skippable (b :: rest) = b :: skippable rest := by
      rw [skippable_eq_blanks_append hlen, skippable_eq_blanks_append hrest, hblanks]
      rfl
    rw [afterSkipped, hskip]
    rfl
  | @comment w rest h =>
    have hread := h.reads?_eq
    have hblanks : blanks (w ++ rest) = [] :=
      blanks_of_startsComment (isSome_comment_iff.mp (Option.isSome_of_mem hread))
    rw [afterSkipped, skippable_of_blanks_nil hlen hblanks, hread]
    dsimp only
    rw [List.drop_left, List.length_append, ← List.drop_drop, List.drop_left]
    rfl

/-- However blanks and comments are skipped, there is only one place where nothing can be. -/
lemma eq_afterSkipped_of_skips (h : ReflTransGen Skips ahead rest) (hstop : NothingToSkip rest)
    (hlen : ahead.length ≤ unbounded) : rest = afterSkipped ahead := by
  induction h using ReflTransGen.head_induction_on with
  | refl => exact (hstop.afterSkipped_eq hlen).symm
  | head hstep _ ih => rw [hstep.afterSkipped_eq hlen, ← ih (hstep.length_lt.le.trans hlen)]

lemma exists_skips (h : ¬ NothingToSkip ahead) : ∃ rest, Skips ahead rest := by
  rw [NothingToSkip, not_and_or, not_not] at h
  obtain h | h := h
  · push Not at h
    obtain ⟨b, hb, hblank⟩ := h
    obtain ⟨rest, rfl⟩ := List.head?_eq_some_iff.mp hb
    exact ⟨rest, .blank hblank⟩
  · obtain ⟨w, hw⟩ := Option.isSome_iff_exists.mp (isSome_comment_iff.mpr h)
    obtain ⟨rest, rfl⟩ := prefix_of_reads hw
    exact ⟨rest, .comment (commentAhead_of_reads hw)⟩

/-- Skipping comes by blanks and comments only. -/
lemma skips_afterSkipped (hlen : ahead.length ≤ unbounded) :
    ReflTransGen Skips ahead (afterSkipped ahead) := by
  induction hn : ahead.length using Nat.strong_induction_on generalizing ahead with
  | _ n ih =>
    by_cases hstop : NothingToSkip ahead
    · rw [hstop.afterSkipped_eq hlen]
    · obtain ⟨rest, hstep⟩ := exists_skips hstop
      have hless := hstep.length_lt
      rw [hstep.afterSkipped_eq hlen]
      exact .head hstep (ih rest.length (by omega) (by omega) rfl)

lemma run_comment_cases (hle : s.position.offset ≤ src.bytes.size) :
    StartsComment (src.remaining s.position) ∧
        (∃ w, CommentAhead (src.remaining s.position) w ∧
          comment.run src s = .matched (s.keepAll w)) ∨
      ¬ StartsComment (src.remaining s.position) ∧ comment.run src s = .failed s := by
  by_cases hstart : StartsComment (src.remaining s.position)
  · obtain ⟨w, hw⟩ := Option.isSome_iff_exists.mp (isSome_comment_iff.mpr hstart)
    exact .inl ⟨hstart, w, commentAhead_of_reads hw, run_of_reads hle hw⟩
  · have hnone : comment.reads? (src.remaining s.position) = none := by
      rwa [← Option.not_isSome_iff_eq_none, isSome_comment_iff]
    exact .inr ⟨hstart, goesBack_comment.run_of_none hle hnone⟩

lemma run_trivia (hle : s.position.offset ≤ src.bytes.size) :
    trivia.run src s = .matched (s.keepAll (skippable (src.remaining s.position))) :=
  run_of_reads hle (reads?_trivia _)

lemma run_of_nothingToSkip (hfits : FitsMemory src.bytes)
    (hle : s.position.offset ≤ src.bytes.size) (h : NothingToSkip (src.remaining s.position)) :
    comment.run src s = .failed s ∧ trivia.run src s = .matched s := by
  constructor
  · obtain ⟨hstart, -⟩ | ⟨-, hrun⟩ := run_comment_cases hle
    · exact (h.2 hstart).elim
    · exact hrun
  · rw [run_trivia hle, h.skippable_eq (hfits.length_remaining_le _)]
    rfl

/-- The pattern of comments matches just where two slashes are ahead, or `/*` with `*/` after it,
and takes the comment there; elsewhere it fails and nothing has changed. The pattern of blanks and
comments always matches. On a text that fits in memory it stops at the one place that is reached
over blanks and comments and has neither ahead, and run again from there it takes nothing. -/
theorem comment_trivia_extent (src : Source) (s : Scan)
    (hle : s.position.offset ≤ src.bytes.size) :
    let ahead := src.remaining s.position
    let after := fun w : List UInt8 => Scan.mk (s.position.advanceOver w) (s.kept ++ w.toArray)
    (StartsComment ahead ∧ (∃ w, CommentAhead ahead w ∧ comment.run src s = .matched (after w)) ∨
      ¬ StartsComment ahead ∧ comment.run src s = .failed s) ∧
    ∃ w, w <+: ahead ∧ trivia.run src s = .matched (after w) ∧
      (FitsMemory src.bytes →
        let rest := src.remaining (after w).position
        ReflTransGen Skips ahead rest ∧ NothingToSkip rest ∧
        (∀ rest', ReflTransGen Skips ahead rest' → NothingToSkip rest' → rest' = rest) ∧
        comment.run src (after w) = .failed (after w) ∧
        trivia.run src (after w) = .matched (after w)) := by
  intro ahead after
  have hafter : ∀ w, after w = s.keepAll w := fun w => (s.keepAll_eq w).symm
  simp only [hafter]
  have hpre : skippable ahead <+: ahead := prefix_of_reads (reads?_trivia ahead)
  have hrest : src.remaining (s.keepAll (skippable ahead)).position = afterSkipped ahead :=
    src.remaining_keepAll s (skippable ahead)
  refine ⟨run_comment_cases hle, skippable ahead, hpre, run_trivia hle, fun hfits => ?_⟩
  have hlen : ahead.length ≤ unbounded := hfits.length_remaining_le _
  have hstop : NothingToSkip (afterSkipped ahead) := nothingToSkip_afterSkipped hlen
  rw [hrest]
  exact ⟨skips_afterSkipped hlen, hstop,
    fun rest' hskips hstop' => eq_afterSkipped_of_skips hskips hstop' hlen,
    run_of_nothingToSkip hfits (Scan.offset_keepAll_le hle hpre) (hrest ▸ hstop)⟩

/-- A block that begins with `/*/`, a line that ends with a carriage return before a line feed, and
then a block that is never closed. -/
theorem comment_trivia_extent_unclosed :
    let src := Source.ofBytes (Text.Utf8.encode "x /*/ */\t// a\r\n/*y").toArray
    let s : Scan := ⟨⟨1, 2, 1⟩, #[33]⟩
    let block : Scan := ⟨⟨1, 3, 2⟩, #[33]⟩
    let stop : Scan := ⟨⟨2, 1, 15⟩, #[33] ++ (Text.Utf8.encode " /*/ */\t// a\r\n").toArray⟩
    (s.position.offset ≤ src.bytes.size ∧ block.position.offset ≤ src.bytes.size ∧
      FitsMemory src.bytes) ∧
    (StartsComment (src.remaining block.position) ∧
      comment.run src block = .matched ⟨⟨1, 9, 8⟩, #[33] ++ (Text.Utf8.encode "/*/ */").toArray⟩) ∧
    trivia.run src s = .matched stop ∧ NothingToSkip (src.remaining stop.position) ∧
    ReflTransGen Skips (src.remaining s.position) (src.remaining stop.position) ∧
    comment.run src stop = .failed stop ∧ trivia.run src stop = .matched stop := by
  intro src s block stop
  have hle : s.position.offset ≤ src.bytes.size := by decide
  have hle' : block.position.offset ≤ src.bytes.size := by decide
  have hfits : FitsMemory src.bytes := by decide
  have hblock : comment.run src block =
      .matched ⟨⟨1, 9, 8⟩, #[33] ++ (Text.Utf8.encode "/*/ */").toArray⟩ := by decide +kernel
  have htrivia : trivia.run src s = .matched stop := by decide +kernel
  have hstart : StartsComment (src.remaining block.position) := by
    obtain ⟨hstart, -⟩ | ⟨-, hfailed⟩ := (comment_trivia_extent src block hle').1
    · exact hstart
    · cases hblock.symm.trans hfailed
  obtain ⟨w, -, hrun, hmore⟩ := (comment_trivia_extent src s hle).2
  rw [← Outcome.matched.inj (htrivia.symm.trans hrun)] at hmore
  obtain ⟨hskips, hnothing, -, hcomment, hagain⟩ := hmore hfits
  exact ⟨⟨hle, hle', hfits⟩, ⟨hstart, hblock⟩, htrivia, hnothing, hskips, hcomment, hagain⟩

end Lexeme

end ByteLexer
