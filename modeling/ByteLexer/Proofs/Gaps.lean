import ByteLexer.Lexer.Basic
import ByteLexer.Proofs.Lockstep

/-!
# Gaps between tokens

What is skipped before a token is a gap: blanks and, unless they are kept, complete comments. The
pattern that skips them never fails after it has moved, since a blank that is not there has not been
read and an attempted comment is taken back. So nothing that is skipped is anything else.
-/

namespace ByteLexer

/-- The place over the first `n` bytes of a text. -/
def Source.placeAt (src : Source) (n : Nat) : Position :=
  Position.start.advanceOver (src.bytes.toList.take n)

/-- From offset `n` to offset `m` there are blanks and, unless they are kept, comments that are
recognised where they begin. -/
inductive Source.Gap (src : Source) (keepComments : Bool) : Nat → Nat → Prop where
  | refl {n : Nat} : Gap src keepComments n n
  | blank {n m : Nat} {byte : UInt8} (hb : src.bytes[n]? = some byte)
      (hblank : byte ∈ [32, 9, 13, 10]) (rest : Gap src keepComments (n + 1) m) :
      Gap src keepComments n m
  | comment {n k m : Nat} (hskip : keepComments = false) (hlt : n < k) (hle : k ≤ src.bytes.size)
      (h : Lexeme.comment.recognize src (src.placeAt n) = (some (src.slice n k), src.placeAt k))
      (rest : Gap src keepComments k m) : Gap src keepComments n m

/-- A recogniser that skips a gap, or fails without moving. -/
def SkipsGap (src : Source) (keepComments : Bool) (p : Scan → Outcome) : Prop :=
  ∀ s n, n ≤ src.bytes.size → s.position = src.placeAt n →
    p s = .failed s ∨
      ∃ t m, p s = .matched t ∧ t.position = src.placeAt m ∧ src.Gap keepComments n m

/-- A recogniser that skips a gap and cannot fail. -/
def AlwaysSkipsGap (src : Source) (keepComments : Bool) (p : Scan → Outcome) : Prop :=
  ∀ s n, n ≤ src.bytes.size → s.position = src.placeAt n →
    ∃ t m, p s = .matched t ∧ t.position = src.placeAt m ∧ src.Gap keepComments n m

/-- A recogniser whose failures are taken back. -/
def Rewinds (src : Source) (p : Scan → Outcome) : Prop :=
  ∀ s t, s.position.offset ≤ src.bytes.size → p s = .failed t → t = s

variable {src : Source} {keepComments : Bool} {n k m : Nat} {s t : Scan} {p q : Scan → Outcome}
  {bytes : List UInt8} {byte : UInt8}

namespace Source

lemma offset_placeAt (h : n ≤ src.bytes.size) : (src.placeAt n).offset = n := by
  rw [placeAt, Position.offset_advanceOver, List.length_take, Array.length_toList,
    Nat.min_eq_left h, Position.start, Nat.zero_add]

lemma remaining_placeAt (h : n ≤ src.bytes.size) :
    src.remaining (src.placeAt n) = src.bytes.toList.drop n := by
  rw [remaining, offset_placeAt h]

lemma placeAt_add (h : bytes <+: src.bytes.toList.drop n) :
    src.placeAt (n + bytes.length) = (src.placeAt n).advanceOver bytes := by
  rw [placeAt, placeAt, List.take_add, ← List.prefix_iff_eq_take.mp h, Position.advanceOver_append]

lemma add_length_le (hn : n ≤ src.bytes.size) (h : bytes <+: src.bytes.toList.drop n) :
    n + bytes.length ≤ src.bytes.size := by
  have hle : bytes.length ≤ src.bytes.size - n := by simpa using h.length_le
  omega

lemma slice_eq_toArray (h : bytes <+: src.bytes.toList.drop n) :
    src.slice n (n + bytes.length) = bytes.toArray := by
  apply Array.ext'
  rw [slice, Array.toList_extract, List.extract_eq_take_drop, Nat.add_sub_cancel_left,
    ← List.prefix_iff_eq_take.mp h]

lemma Gap.le (h : src.Gap keepComments n m) : n ≤ m := by
  induction h with
  | refl => exact Nat.le_refl _
  | blank _ _ _ ih => omega
  | comment _ hlt _ _ _ ih => omega

lemma Gap.le_size (h : src.Gap keepComments n m) (hn : n ≤ src.bytes.size) :
    m ≤ src.bytes.size := by
  induction h with
  | refl => exact hn
  | blank hb _ _ ih => exact ih (Array.getElem?_eq_some_iff.mp hb).1
  | comment _ _ hle _ _ ih => exact ih hle

lemma Gap.trans (h : src.Gap keepComments n k) (h' : src.Gap keepComments k m) :
    src.Gap keepComments n m := by
  induction h with
  | refl => exact h'
  | blank hb hblank _ ih => exact .blank hb hblank (ih h')
  | comment hskip hlt hle hc _ ih => exact .comment hskip hlt hle hc (ih h')

end Source

lemma Pattern.recognize_of_run {p : Pattern} {pos : Position}
    (h : p.run src (.fresh pos) = .matched ((Scan.fresh pos).keepAll bytes)) :
    p.recognize src pos = (some bytes.toArray, pos.advanceOver bytes) := by
  have hkept : ((Scan.fresh pos).keepAll bytes).kept = bytes.toArray := by
    apply Array.ext'
    rw [Scan.kept_keepAll]
    rfl
  rw [recognize, h]
  simp only [hkept, Scan.position_keepAll]
  rfl

lemma AlwaysSkipsGap.skipsGap (h : AlwaysSkipsGap src keepComments p) :
    SkipsGap src keepComments p := fun s n hn hs => .inr (h s n hn hs)

lemma alwaysSkipsGap_matched : AlwaysSkipsGap src keepComments .matched :=
  fun s n _ hs => ⟨s, n, rfl, hs, .refl⟩

lemma SkipsGap.andThen (hp : SkipsGap src keepComments p)
    (hq : AlwaysSkipsGap src keepComments q) :
    SkipsGap src keepComments (fun s => (p s).andThen q) := by
  intro s n hn hs
  rcases hp s n hn hs with hfail | ⟨t, k, ht, hpos, hgap⟩
  · exact .inl (by simp only [hfail, Outcome.andThen_failed])
  · obtain ⟨u, m, hu, hpos', hgap'⟩ := hq t k (hgap.le_size hn) hpos
    exact .inr ⟨u, m, by simp only [ht, Outcome.andThen_matched, hu], hpos', hgap.trans hgap'⟩

/-- A loop ends in a match when its recogniser fails without moving. -/
lemma SkipsGap.upTo (hp : SkipsGap src keepComments p) (rounds : Nat) :
    AlwaysSkipsGap src keepComments (Pattern.upTo p rounds) := by
  induction rounds with
  | zero => exact alwaysSkipsGap_matched
  | succ rounds ih =>
    intro s n hn hs
    rcases hp s n hn hs with hfail | ⟨t, k, ht, hpos, hgap⟩
    · refine ⟨s, n, ?_, hs, .refl⟩
      simp [Pattern.upTo, Pattern.marked, hfail, Checkpoint.moved, Scan.checkpoint]
    · by_cases hmoved : s.checkpoint.moved t.position = true
      · obtain ⟨u, m, hu, hpos', hgap'⟩ := ih t k (hgap.le_size hn) hpos
        refine ⟨u, m, ?_, hpos', hgap.trans hgap'⟩
        simp [Pattern.upTo, Pattern.marked, ht, hmoved, hu]
      · refine ⟨t, k, ?_, hpos, hgap⟩
        simp [Pattern.upTo, Pattern.marked, ht, hmoved]

lemma SkipsGap.atLeastOnce {p : Pattern} (hp : SkipsGap src keepComments (p.run src)) (most : Nat) :
    SkipsGap src keepComments ((p.repetition 1 most).run src) :=
  (hp.andThen alwaysSkipsGap_matched).andThen (hp.upTo (most - 1))

lemma SkipsGap.anyTimes {p : Pattern} (hp : SkipsGap src keepComments (p.run src)) (most : Nat) :
    AlwaysSkipsGap src keepComments ((p.repetition 0 most).run src) :=
  hp.upTo most

lemma SkipsGap.choice (hp : SkipsGap src keepComments p) (hq : SkipsGap src keepComments q) :
    SkipsGap src keepComments (Pattern.choice p q) := by
  intro s n hn hs
  rcases hp s n hn hs with hfail | ⟨t, m, ht, hpos, hgap⟩
  · have hchoice : Pattern.choice p q s = q s := by
      simp [Pattern.choice, Pattern.marked, hfail, Checkpoint.moved, Scan.checkpoint]
    rw [hchoice]
    exact hq s n hn hs
  · exact .inr ⟨t, m, by simp [Pattern.choice, Pattern.marked, ht], hpos, hgap⟩

/-- An attempt comes out as its pattern does where that matches, and otherwise where it began. -/
lemma Pattern.run_attempt (p : Pattern) (hle : s.position.offset ≤ src.bytes.size) :
    p.attempt.run src s = match p.run src s with
      | .matched t => .matched t
      | .failed _ => .failed s := by
  have hrun : p.attempt.run src s = speculate src (p.run src) s := rfl
  rw [hrun, speculate, marked]
  obtain ⟨bytes, -, ⟨h, -⟩ | ⟨h, -⟩⟩ := p.run_inStep src src s s ⟨hle, hle, rfl⟩
  · rw [h]
  · rw [h]
    exact congrArg Outcome.failed (Scan.restore_keepAll hle bytes)

lemma rewinds_attempt (src : Source) (p : Pattern) : Rewinds src (p.attempt.run src) := by
  intro s t hle hfail
  rw [p.run_attempt hle] at hfail
  cases h : p.run src s with
  | matched u =>
    rw [h] at hfail
    cases hfail
  | failed u =>
    rw [h] at hfail
    cases hfail
    rfl

lemma Rewinds.choice (hp : Rewinds src p) (hq : Rewinds src q) :
    Rewinds src (Pattern.choice p q) := by
  intro s t hle hfail
  cases h : p s with
  | matched u => simp [Pattern.choice, Pattern.marked, h] at hfail
  | failed u =>
    have hu := hp s u hle h
    subst hu
    have hchoice : Pattern.choice p q u = q u := by
      simp [Pattern.choice, Pattern.marked, h, Checkpoint.moved, Scan.checkpoint]
    rw [hchoice] at hfail
    exact hq u t hle hfail

lemma rewinds_comment (src : Source) : Rewinds src (Lexeme.comment.run src) :=
  (rewinds_attempt src Lexeme.lineComment).choice (rewinds_attempt src Lexeme.blockComment)

lemma contains_space : ByteClass.space.contains byte = true ↔ byte ∈ [32, 9, 13, 10] := by
  have hlist : ByteClass.space = .ofList [32, 9, 13, 10] := by decide
  rw [hlist, ByteClass.contains_ofList, List.contains_iff_mem]

lemma skipsGap_space : SkipsGap src keepComments ((Pattern.ofClass .space).run src) := by
  intro s n hn hs
  have hrun : (Pattern.ofClass .space).run src s = s.byteIf src ByteClass.space.contains := rfl
  have hpeek : src.peek s.position = src.bytes[n]? := by
    rw [Source.peek, hs, Source.offset_placeAt hn]
  rw [hrun, Scan.byteIf, hpeek]
  cases hbyte : src.bytes[n]? with
  | none => exact .inl rfl
  | some byte =>
    dsimp only
    split
    · next hspace =>
      have hmem : byte ∈ [32, 9, 13, 10] := contains_space.mp hspace
      have hprefix : [byte] <+: src.bytes.toList.drop n := by
        rw [← Array.getElem?_toList] at hbyte
        obtain ⟨hlt, rfl⟩ := List.getElem?_eq_some_iff.mp hbyte
        rw [List.drop_eq_getElem_cons hlt]
        exact ⟨_, rfl⟩
      refine .inr ⟨s.keep byte, n + 1, rfl, ?_, .blank hbyte hmem .refl⟩
      rw [← List.length_singleton (a := byte), Source.placeAt_add hprefix, ← hs]
      rfl
    · exact .inl rfl

lemma skipsGap_comment : SkipsGap src false (Lexeme.comment.run src) := by
  intro s n hn hs
  have hle : s.position.offset ≤ src.bytes.size := by rwa [hs, Source.offset_placeAt hn]
  -- The scan has kept other bytes before; a fresh one at the same place comes out alike.
  obtain ⟨bytes, hb, ⟨h, hfresh⟩ | ⟨h, -⟩⟩ :=
    Lexeme.comment.run_inStep src src s (.fresh s.position) ⟨hle, hle, rfl⟩
  · rw [hs, Source.remaining_placeAt hn] at hb
    have hplace : (s.keepAll bytes).position = src.placeAt (n + bytes.length) := by
      rw [Scan.position_keepAll, hs, Source.placeAt_add hb]
    refine .inr ⟨s.keepAll bytes, n + bytes.length, h, hplace, ?_⟩
    by_cases hempty : bytes = []
    · subst hempty
      exact .refl
    · have hpos := List.length_pos_iff.mpr hempty
      refine .comment rfl (by omega) (Source.add_length_le hn hb) ?_ .refl
      rw [Source.slice_eq_toArray hb, Source.placeAt_add hb, ← hs]
      exact Pattern.recognize_of_run hfresh
  · have heq := rewinds_comment src s _ hle h
    rw [heq] at h
    exact .inl h

lemma skipsGap_spaces : SkipsGap src keepComments (Lexeme.spaces.run src) :=
  skipsGap_space.atLeastOnce _

lemma skipsGap_trivia : SkipsGap src false (Lexeme.trivia.run src) :=
  ((skipsGap_spaces.choice skipsGap_comment).anyTimes _).skipsGap

/-- What a lexer skips is a gap, also when the skipping fails. -/
lemma skipped_gap (settings : Settings) (hn : n ≤ src.bytes.size) :
    ∃ m, ((Lexer.skipped settings).recognize src (src.placeAt n)).2 = src.placeAt m ∧
      src.Gap settings.keepComments n m := by
  have hskips : SkipsGap src settings.keepComments ((Lexer.skipped settings).run src) := by
    unfold Lexer.skipped
    cases settings.keepComments with
    | true => exact skipsGap_spaces
    | false => exact skipsGap_trivia
  rw [Pattern.recognize]
  rcases hskips (.fresh (src.placeAt n)) n hn rfl with h | ⟨t, m, h, hpos, hgap⟩
  · rw [h]
    exact ⟨n, rfl, .refl⟩
  · rw [h]
    exact ⟨m, hpos, hgap⟩

end ByteLexer
