import ByteLexer.Proofs.Gaps

/-!
# What patterns read

A pattern sees nothing but the text ahead, so it is a function of texts: what it reads off the front
if it matches. The equations of this file say what that function is for each way of making patterns.
A choice or a repetition has a simple one if the pattern it tries goes back whenever it fails. The
two loops are then what any function is that unfolds as they do.
-/

namespace ByteLexer

/-- The bytes kept in a match. -/
def Outcome.kept? : Outcome → Option (List UInt8)
  | .matched s => some s.kept.toList
  | .failed _ => none

namespace Pattern

/-- What a pattern reads off the front of a text, if it matches there. -/
def reads? (p : Pattern) (ahead : List UInt8) : Option (List UInt8) :=
  (p.run (.ofBytes ahead.toArray) (.fresh .start)).kept?

/-- A pattern that is back where it began whenever it fails. -/
def GoesBack (p : Pattern) : Prop := ∀ src, Rewinds src (p.run src)

variable {src : Source} {s : Scan} {p q opening body closing : Pattern} {ahead bytes : List UInt8}
  {c : ByteClass} {n : Nat}

lemma remaining_ofBytes (ahead : List UInt8) :
    (Source.ofBytes ahead.toArray).remaining .start = ahead := rfl

lemma kept?_matched (bytes : List UInt8) (pos : Position) :
    (Outcome.matched ((Scan.fresh pos).keepAll bytes)).kept? = some bytes := by
  rw [Outcome.kept?, Scan.kept_keepAll]
  rfl

/-- On any source a pattern comes out as it does on the text ahead alone. -/
lemma run_cases (p : Pattern) (hle : s.position.offset ≤ src.bytes.size) :
    (∃ bytes, p.reads? (src.remaining s.position) = some bytes ∧
      bytes <+: src.remaining s.position ∧ p.run src s = .matched (s.keepAll bytes)) ∨
    ∃ bytes, p.reads? (src.remaining s.position) = none ∧
      bytes <+: src.remaining s.position ∧ p.run src s = .failed (s.keepAll bytes) := by
  have ha : Scan.Aligned src (.ofBytes (src.remaining s.position).toArray) s (.fresh .start) :=
    ⟨hle, Nat.zero_le _, rfl⟩
  obtain ⟨bytes, hb, ⟨h, h'⟩ | ⟨h, h'⟩⟩ := p.run_inStep _ _ s _ ha
  · exact .inl ⟨bytes, by rw [reads?, h', kept?_matched], hb, h⟩
  · exact .inr ⟨bytes, by rw [reads?, h', Outcome.kept?], hb, h⟩

lemma run_of_reads (hle : s.position.offset ≤ src.bytes.size)
    (h : p.reads? (src.remaining s.position) = some bytes) :
    p.run src s = .matched (s.keepAll bytes) := by
  obtain ⟨bytes', h', -, hrun⟩ | ⟨bytes', h', -, -⟩ := p.run_cases hle
  · rw [h] at h'
    cases h'
    exact hrun
  · rw [h] at h'
    cases h'

lemma run_of_reads_none (hle : s.position.offset ≤ src.bytes.size)
    (h : p.reads? (src.remaining s.position) = none) :
    ∃ bytes, bytes <+: src.remaining s.position ∧ p.run src s = .failed (s.keepAll bytes) := by
  obtain ⟨bytes', h', -, -⟩ | ⟨bytes', -, hb, hrun⟩ := p.run_cases hle
  · rw [h] at h'
    cases h'
  · exact ⟨bytes', hb, hrun⟩

lemma GoesBack.run_of_none (hp : p.GoesBack) (hle : s.position.offset ≤ src.bytes.size)
    (h : p.reads? (src.remaining s.position) = none) : p.run src s = .failed s := by
  obtain ⟨bytes, -, hrun⟩ := run_of_reads_none hle h
  rw [hrun, hp src s _ hle hrun]

lemma GoesBack.run_eq (hp : p.GoesBack) (hle : s.position.offset ≤ src.bytes.size) :
    p.run src s = match p.reads? (src.remaining s.position) with
      | some w => .matched (s.keepAll w)
      | none => .failed s := by
  cases h : p.reads? (src.remaining s.position) with
  | none => exact hp.run_of_none hle h
  | some w => exact run_of_reads hle h

lemma fresh_le (ahead : List UInt8) :
    (Scan.fresh .start).position.offset ≤ (Source.ofBytes ahead.toArray).bytes.size :=
  Nat.zero_le _

lemma prefix_of_reads (h : p.reads? ahead = some bytes) : bytes <+: ahead := by
  obtain ⟨bytes', h', hb, -⟩ | ⟨bytes', h', -, -⟩ :=
    p.run_cases (fresh_le ahead)
  · rw [← Option.some.inj (h'.symm.trans h)]
    exact hb
  · cases h'.symm.trans h

/-- What a pattern reads after some of the text has been read. -/
lemma kept?_run_after (p : Pattern) (hb : bytes <+: ahead) :
    (p.run (.ofBytes ahead.toArray) ((Scan.fresh .start).keepAll bytes)).kept? =
      (p.reads? (ahead.drop bytes.length)).map (bytes ++ ·) := by
  have hrest : (Source.ofBytes ahead.toArray).remaining
      ((Scan.fresh .start).keepAll bytes).position = ahead.drop bytes.length :=
    Source.remaining_keepAll _ _ _
  have hle : ((Scan.fresh .start).keepAll bytes).position.offset ≤
      (Source.ofBytes ahead.toArray).bytes.size := Scan.offset_keepAll_le (Nat.zero_le _) hb
  obtain ⟨more, h, -, hrun⟩ | ⟨more, h, -, hrun⟩ := p.run_cases hle
  · rw [hrest] at h
    rw [hrun, h, ← Scan.keepAll_append, kept?_matched, Option.map_some]
  · rw [hrest] at h
    rw [hrun, h, Option.map_none, Outcome.kept?]

/-- A pattern either matches on a text alone after what it reads, or it fails. -/
lemma run_ofBytes_cases (p : Pattern) (ahead : List UInt8) :
    (∃ bytes, p.reads? ahead = some bytes ∧ bytes <+: ahead ∧
      p.run (.ofBytes ahead.toArray) (.fresh .start) =
        .matched ((Scan.fresh .start).keepAll bytes)) ∨
    ∃ bytes, p.reads? ahead = none ∧ bytes <+: ahead ∧
      p.run (.ofBytes ahead.toArray) (.fresh .start) =
        .failed ((Scan.fresh .start).keepAll bytes) :=
  p.run_cases (fresh_le ahead)

lemma GoesBack.run_ofBytes_of_none (hp : p.GoesBack) (h : p.reads? ahead = none) :
    p.run (.ofBytes ahead.toArray) (.fresh .start) = .failed (.fresh .start) :=
  hp.run_of_none (fresh_le ahead) h

lemma goesBack_attempt (p : Pattern) : p.attempt.GoesBack := fun src => rewinds_attempt src p

lemma rewinds_byteIf (src : Source) (test : UInt8 → Bool) : Rewinds src (·.byteIf src test) := by
  intro s t _ h
  simp only [Scan.byteIf] at h
  repeat' split at h
  all_goals cases h
  all_goals rfl

lemma goesBack_ofClass (c : ByteClass) : (ofClass c).GoesBack := by
  intro src s t hle h
  have hrun : (ofClass c).run src s =
      if c.isEpsilon then .matched s else s.byteIf src c.contains := rfl
  rw [hrun] at h
  split at h
  · cases h
  · exact rewinds_byteIf src c.contains s t hle h

lemma goesBack_satisfy (test : UInt8 → Bool) : (satisfy test).GoesBack :=
  fun src => rewinds_byteIf src test

lemma goesBack_eof : eof.GoesBack := by
  intro src s t _ h
  have hrun : eof.run src s = if src.atEnd s.position then .matched s else .failed s := rfl
  rw [hrun] at h
  split at h
  all_goals cases h
  rfl

lemma GoesBack.alt (hp : p.GoesBack) (hq : q.GoesBack) : (p.alt q).GoesBack :=
  fun src => (hp src).choice (hq src)

/-- Choices may be nested either way: what comes next is tried where the failures before it have
stayed. -/
lemma choice_assoc (p q r : Scan → Outcome) : choice (choice p q) r = choice p (choice q r) := by
  funext s
  simp only [choice, marked]
  cases hp : p s with
  | matched t => rfl
  | failed t =>
    by_cases hmoved : s.checkpoint.moved t.position = true
    · simp only [if_pos hmoved]
    · have hplace : s.position = t.position :=
        of_not_not fun hne => hmoved (decide_eq_true hne)
      have hsame : s.checkpoint.moved = t.checkpoint.moved := by
        unfold Checkpoint.moved Scan.checkpoint
        rw [hplace]
      simp only [if_neg hmoved]
      cases q t with
      | matched u => rfl
      | failed u => simp only [hsame]

/-- A round that has matched is the last one if nothing was read in it. -/
lemma upTo_succ_of_matched {p : Scan → Outcome} (h : p s = .matched (s.keepAll bytes)) (n : Nat) :
    upTo p (n + 1) s = if bytes = [] then .matched s else upTo p n (s.keepAll bytes) := by
  simp only [upTo, marked, h, Scan.moved_keepAll]
  cases bytes <;> rfl

/-- A round that has failed ends the loop with a match if nothing was read in it. -/
lemma upTo_succ_of_failed {p : Scan → Outcome} (h : p s = .failed (s.keepAll bytes)) (n : Nat) :
    upTo p (n + 1) s = if bytes = [] then .matched s else .failed (s.keepAll bytes) := by
  simp only [upTo, marked, h, Scan.moved_keepAll]
  cases bytes <;> rfl

lemma GoesBack.upTo_of_none (hp : p.GoesBack) (hle : s.position.offset ≤ src.bytes.size)
    (h : p.reads? (src.remaining s.position) = none) (n : Nat) :
    Pattern.upTo (p.run src) n s = .matched s := by
  cases n with
  | zero => rfl
  | succ n =>
    have hfailed : p.run src s = .failed (s.keepAll []) := hp.run_of_none hle h
    rw [upTo_succ_of_failed hfailed, if_pos rfl]

lemma GoesBack.upTo (hp : p.GoesBack) (hle : s.position.offset ≤ src.bytes.size) (n : Nat) :
    ∃ t, Pattern.upTo (p.run src) n s = .matched t := by
  induction n generalizing s with
  | zero => exact ⟨s, rfl⟩
  | succ n ih =>
    obtain ⟨bytes, -, hb, hrun⟩ | ⟨bytes, h, -, -⟩ := p.run_cases hle
    · rw [upTo_succ_of_matched hrun]
      split
      · exact ⟨s, rfl⟩
      · exact ih (Scan.offset_keepAll_le hle hb)
    · exact ⟨s, hp.upTo_of_none hle h (n + 1)⟩

lemma run_repetition_zero (p : Pattern) (src : Source) (n : Nat) (s : Scan) :
    (p.repetition 0 n).run src s = upTo (p.run src) n s := rfl

/-- A repetition that may stay empty never fails. -/
lemma GoesBack.reads?_repetition_isSome (hp : p.GoesBack) (n : Nat) (ahead : List UInt8) :
    ((p.repetition 0 n).reads? ahead).isSome := by
  obtain ⟨t, ht⟩ := hp.upTo (fresh_le ahead) n
  rw [reads?, run_repetition_zero, ht]
  rfl

lemma GoesBack.seq (hp : p.GoesBack) (hq : ∀ ahead, (q.reads? ahead).isSome) :
    (p.seq q).GoesBack := by
  intro src s t hle h
  have hrun : (p.seq q).run src s = (p.run src s).andThen (q.run src) := rfl
  rw [hrun] at h
  obtain ⟨bytes, -, hb, hp'⟩ | ⟨bytes, hn, -, -⟩ := p.run_cases hle
  · obtain ⟨more, hmore⟩ :=
      Option.isSome_iff_exists.mp (hq (src.remaining (s.keepAll bytes).position))
    rw [hp', Outcome.andThen_matched, run_of_reads (Scan.offset_keepAll_le hle hb) hmore] at h
    cases h
  · rw [hp.run_of_none hle hn, Outcome.andThen_failed] at h
    cases h
    rfl

/-- A repetition that has to run runs once and then as the rest of it. -/
lemma run_repetition_succ (p : Pattern) (src : Source) (least most : Nat) (s : Scan) :
    (p.repetition (least + 1) most).run src s =
      (p.seq (p.repetition least (most - 1))).run src s := by
  have hrounds : most - (least + 1) = most - 1 - least := by omega
  simp only [run, exactly, hrounds]
  cases p.run src s <;> rfl

lemma GoesBack.repetition_one (hp : p.GoesBack) (n : Nat) : (p.repetition 1 n).GoesBack := by
  intro src s t hle h
  rw [run_repetition_succ] at h
  exact hp.seq (hp.reads?_repetition_isSome (n - 1)) src s t hle h

lemma goesBack_of_isSome (h : ∀ ahead, (p.reads? ahead).isSome) : p.GoesBack := by
  intro src s t hle hfail
  obtain ⟨bytes, hbytes⟩ := Option.isSome_iff_exists.mp (h (src.remaining s.position))
  rw [run_of_reads hle hbytes] at hfail
  cases hfail

/-- On its own, a pattern that goes back gives what it reads and the place after it, or nothing and
the old place. -/
lemma GoesBack.recognize_eq (hp : p.GoesBack) {pos : Position} (hle : pos.offset ≤ src.bytes.size) :
    p.recognize src pos = match p.reads? (src.remaining pos) with
      | some bytes => (some bytes.toArray, pos.advanceOver bytes)
      | none => (none, pos) := by
  have hplace : src.remaining (Scan.fresh pos).position = src.remaining pos := rfl
  obtain ⟨bytes, h, -, hrun⟩ | ⟨bytes, h, -, -⟩ := p.run_cases (s := .fresh pos) hle
  · rw [recognize_of_run hrun, ← hplace, h]
  · rw [recognize, hp.run_of_none (s := .fresh pos) hle h, ← hplace, h]
    rfl

lemma reads?_satisfy_cons (test : UInt8 → Bool) (byte : UInt8) (rest : List UInt8) :
    (satisfy test).reads? (byte :: rest) = if test byte then some [byte] else none := by
  have hrun : (satisfy test).run (.ofBytes (byte :: rest).toArray) (.fresh .start) =
      if test byte then .matched ((Scan.fresh .start).keepAll [byte])
      else .failed (.fresh .start) := rfl
  rw [reads?, hrun]
  split
  · exact kept?_matched _ _
  · rfl

lemma reads?_satisfy_nil (test : UInt8 → Bool) : (satisfy test).reads? [] = none := rfl

lemma reads?_ofClass (hc : c.isEpsilon = false) (ahead : List UInt8) :
    (ofClass c).reads? ahead = (satisfy c.contains).reads? ahead := by
  rw [reads?, run, hc]
  rfl

lemma reads?_ofClass_cons (hc : c.isEpsilon = false) (byte : UInt8) (rest : List UInt8) :
    (ofClass c).reads? (byte :: rest) = if c.contains byte then some [byte] else none := by
  rw [reads?_ofClass hc, reads?_satisfy_cons]

lemma reads?_ofClass_nil (hc : c.isEpsilon = false) : (ofClass c).reads? [] = none := by
  rw [reads?_ofClass hc, reads?_satisfy_nil]

lemma readAll_eq (hle : s.position.offset ≤ src.bytes.size) (bytes : List UInt8) :
    (bytes <+: src.remaining s.position ∧ readAll src bytes s = .matched (s.keepAll bytes)) ∨
    (¬ bytes <+: src.remaining s.position ∧ ∃ t, readAll src bytes s = .failed t) := by
  induction bytes generalizing s with
  | nil => exact .inl ⟨List.nil_prefix, rfl⟩
  | cons byte bytes ih =>
    rw [readAll, Scan.byteIf, Source.peek_eq_head?]
    cases hrest : src.remaining s.position with
    | nil => exact .inr ⟨by simp, s, rfl⟩
    | cons first rest =>
      by_cases hfirst : first = byte
      · subst hfirst
        have hnext : src.remaining (s.keep first).position = rest := by
          have h := src.remaining_keepAll s [first]
          rwa [hrest] at h
        have hfront : [first] <+: src.remaining s.position := ⟨rest, hrest.symm⟩
        have hle' : (s.keep first).position.offset ≤ src.bytes.size :=
          Scan.offset_keepAll_le hle hfront
        have ih := ih hle'
        rw [hnext] at ih
        simpa [List.cons_prefix_cons] using ih
      · refine .inr ⟨fun h => hfirst (List.cons_prefix_cons.mp h).1.symm, s, ?_⟩
        simp [hfirst]

lemma reads?_literal (bytes ahead : List UInt8) :
    (literal bytes).reads? ahead = if bytes <+: ahead then some bytes else none := by
  have hrun : (literal bytes).run (.ofBytes ahead.toArray) (.fresh .start) =
      readAll (.ofBytes ahead.toArray) bytes (.fresh .start) := rfl
  rw [reads?, hrun]
  rcases readAll_eq (fresh_le ahead) bytes with
    ⟨hb, h⟩ | ⟨hb, t, h⟩
  · rw [h, kept?_matched, if_pos (remaining_ofBytes ahead ▸ hb)]
  · rw [h, Outcome.kept?, if_neg (remaining_ofBytes ahead ▸ hb)]

lemma reads?_attempt (p : Pattern) (ahead : List UInt8) :
    p.attempt.reads? ahead = p.reads? ahead := by
  rw [reads?, reads?, p.run_attempt (fresh_le ahead)]
  cases p.run (.ofBytes ahead.toArray) (.fresh .start) <;> rfl

lemma reads?_seq (p q : Pattern) (ahead : List UInt8) :
    (p.seq q).reads? ahead =
      (p.reads? ahead).bind fun u => (q.reads? (ahead.drop u.length)).map (u ++ ·) := by
  have hrun : (p.seq q).run (.ofBytes ahead.toArray) (.fresh .start) =
      (p.run (.ofBytes ahead.toArray) (.fresh .start)).andThen (q.run (.ofBytes ahead.toArray)) :=
    rfl
  rw [reads?, hrun]
  obtain ⟨u, h, hu, hp⟩ | ⟨u, h, -, hp⟩ := p.run_ofBytes_cases ahead
  · rw [hp, h, Outcome.andThen_matched, kept?_run_after q hu, Option.bind_some]
  · rw [hp, h, Outcome.andThen_failed, Outcome.kept?, Option.bind_none]

lemma reads?_alt (hp : p.GoesBack) (q : Pattern) (ahead : List UInt8) :
    (p.alt q).reads? ahead = (p.reads? ahead).or (q.reads? ahead) := by
  have hrun : (p.alt q).run (.ofBytes ahead.toArray) (.fresh .start) =
      choice (p.run (.ofBytes ahead.toArray)) (q.run (.ofBytes ahead.toArray)) (.fresh .start) :=
    rfl
  rw [reads?, hrun, choice, marked]
  obtain ⟨u, h, -, hrun⟩ | ⟨u, h, -, -⟩ := p.run_ofBytes_cases ahead
  · rw [hrun, h, Option.some_or]
    exact kept?_matched u _
  · rw [hp.run_ofBytes_of_none h, h, Option.none_or]
    simp [Checkpoint.moved, Scan.checkpoint, reads?]

lemma reads?_repetition_none (hp : p.GoesBack) (h : p.reads? ahead = none) (n : Nat) :
    (p.repetition 0 n).reads? ahead = some [] := by
  rw [reads?, run_repetition_zero, hp.upTo_of_none (fresh_le ahead) h]
  exact kept?_matched [] .start

lemma reads?_repetition_some (h : p.reads? ahead = some bytes) (hne : bytes ≠ []) (n : Nat) :
    (p.repetition 0 (n + 1)).reads? ahead =
      ((p.repetition 0 n).reads? (ahead.drop bytes.length)).map (bytes ++ ·) := by
  have hrun := run_of_reads (fresh_le ahead) h
  rw [reads?, run_repetition_zero, upTo_succ_of_matched hrun, if_neg hne]
  exact kept?_run_after (p.repetition 0 n) (prefix_of_reads h)

lemma reads?_repetition_nil (h : p.reads? ahead = some []) (n : Nat) :
    (p.repetition 0 n).reads? ahead = some [] := by
  cases n with
  | zero => rfl
  | succ n =>
    have hrun := run_of_reads (fresh_le ahead) h
    rw [reads?, run_repetition_zero, upTo_succ_of_matched hrun, if_pos rfl]
    exact kept?_matched [] .start

lemma reads?_optional (hp : p.GoesBack) (ahead : List UInt8) :
    p.optional.reads? ahead = some ((p.reads? ahead).getD []) := by
  cases h : p.reads? ahead with
  | none => exact reads?_repetition_none hp h 1
  | some u =>
    by_cases hne : u = []
    · subst hne
      exact reads?_repetition_nil h 1
    · have hzero : (p.repetition 0 0).reads? (ahead.drop u.length) = some [] := rfl
      rw [optional, reads?_repetition_some h hne, hzero, Option.map_some, List.append_nil]
      rfl

lemma reads?_repetition_succ (p : Pattern) (least most : Nat) (ahead : List UInt8) :
    (p.repetition (least + 1) most).reads? ahead =
      (p.seq (p.repetition least (most - 1))).reads? ahead := by
  rw [reads?, run_repetition_succ, reads?]

lemma length_remaining_keepAll_lt (hb : bytes <+: src.remaining s.position) (hne : bytes ≠ []) :
    (src.remaining (s.keepAll bytes).position).length < (src.remaining s.position).length := by
  have hpos := List.length_pos_iff.mpr hne
  have hlen := hb.length_le
  rw [Source.remaining_keepAll, List.length_drop]
  omega

/-- At the end of a text nothing moves, so a loop is over there at once. -/
lemma upTo_of_remaining_nil (p : Pattern) (hle : s.position.offset ≤ src.bytes.size)
    (h : src.remaining s.position = []) (n : Nat) : upTo (p.run src) n s = .matched s := by
  cases n with
  | zero => rfl
  | succ n =>
    obtain ⟨bytes, -, hb, hrun⟩ | ⟨bytes, -, hb, hrun⟩ := p.run_cases hle
    · rw [upTo_succ_of_matched hrun, if_pos (List.prefix_nil.mp (h ▸ hb))]
    · rw [upTo_succ_of_failed hrun, if_pos (List.prefix_nil.mp (h ▸ hb))]

/-- A loop that may run once for every byte ahead is not cut short. -/
lemma upTo_congr (p : Pattern) {m : Nat} (hle : s.position.offset ≤ src.bytes.size)
    (hn : (src.remaining s.position).length ≤ n) (hm : (src.remaining s.position).length ≤ m) :
    upTo (p.run src) n s = upTo (p.run src) m s := by
  induction n generalizing m s with
  | zero =>
    have h := List.length_eq_zero_iff.mp (Nat.le_zero.mp hn)
    rw [upTo_of_remaining_nil p hle h, upTo_of_remaining_nil p hle h]
  | succ n ih =>
    cases m with
    | zero =>
      have h := List.length_eq_zero_iff.mp (Nat.le_zero.mp hm)
      rw [upTo_of_remaining_nil p hle h, upTo_of_remaining_nil p hle h]
    | succ m =>
      obtain ⟨bytes, -, hb, hrun⟩ | ⟨bytes, -, hb, hrun⟩ := p.run_cases hle
      · rw [upTo_succ_of_matched hrun, upTo_succ_of_matched hrun]
        by_cases hne : bytes = []
        · rw [if_pos hne, if_pos hne]
        · have hless := length_remaining_keepAll_lt hb hne
          rw [if_neg hne, if_neg hne]
          exact ih (Scan.offset_keepAll_le hle hb) (by omega) (by omega)
      · rw [upTo_succ_of_failed hrun, upTo_succ_of_failed hrun]

lemma reads?_repetition_congr (p : Pattern) {m : Nat} (hn : ahead.length ≤ n)
    (hm : ahead.length ≤ m) :
    (p.repetition 0 n).reads? ahead = (p.repetition 0 m).reads? ahead := by
  have hsame : Pattern.upTo (p.run (.ofBytes ahead.toArray)) n (.fresh .start) =
      Pattern.upTo (p.run (.ofBytes ahead.toArray)) m (.fresh .start) :=
    p.upTo_congr (fresh_le ahead) hn hm
  rw [reads?, reads?, run_repetition_zero, run_repetition_zero, hsame]

/-- A function that unfolds as the loop of a bracket: what closes it, or else the body and on. -/
def ReadsOn (body closing : Pattern) (f : List UInt8 → Option (List UInt8)) : Prop :=
  ∀ ahead, f ahead = (closing.reads? ahead).or ((body.reads? ahead).bind fun u =>
    if u = [] then none else (f (ahead.drop u.length)).map (u ++ ·))

/-- With a round for each byte that is left and one more, the loop reads what any function does that
unfolds as it: no round but the last reads nothing. -/
lemma kept?_untilClosed {f : List UInt8 → Option (List UInt8)} (hclosing : closing.GoesBack)
    (hf : ReadsOn body closing f) {pos : Position} (rounds : Nat) (done : List UInt8)
    (hle : ((Scan.fresh pos).keepAll done).position.offset ≤ src.bytes.size)
    (hrounds : src.bytes.size - ((Scan.fresh pos).keepAll done).position.offset < rounds) :
    (untilClosed (body.run src) (closing.run src) rounds ((Scan.fresh pos).keepAll done)).kept? =
      (f (src.remaining ((Scan.fresh pos).keepAll done).position)).map (done ++ ·) := by
  induction rounds generalizing done with
  | zero => omega
  | succ rounds ih =>
    rw [untilClosed, hf]
    obtain ⟨u, h, -, hrun⟩ | ⟨u, h, -, -⟩ := closing.run_cases hle
    · rw [hrun, h, Option.some_or, Option.map_some]
      simp only [← Scan.keepAll_append, kept?_matched]
    · rw [hclosing.run_of_none hle h, h, Option.none_or]
      obtain ⟨v, h', hv, hrun⟩ | ⟨v, h', -, hrun⟩ := body.run_cases hle
      · simp only [marked, hrun, h', Option.bind_some, Checkpoint.offset, Scan.checkpoint,
          Scan.offset_keepAll _ v, Nat.add_eq_left, List.length_eq_zero_iff]
        split
        · rfl
        · next hne =>
          have hpos := List.length_pos_iff.mpr hne
          have hlen := Scan.offset_keepAll ((Scan.fresh pos).keepAll done) v
          have hle' := Scan.offset_keepAll_le hle hv
          rw [← Source.remaining_keepAll]
          rw [← Scan.keepAll_append] at hlen hle' ⊢
          rw [ih _ hle' (by omega), Option.map_map]
          simp [Function.comp_def]
      · simp only [marked, hrun, h']
        rfl

lemma reads?_bracket {f : List UInt8 → Option (List UInt8)} (hclosing : closing.GoesBack)
    (hf : ReadsOn body closing f) (opening : Pattern) (ahead : List UInt8) :
    (bracket opening body closing).reads? ahead =
      (opening.reads? ahead).bind fun u => (f (ahead.drop u.length)).map (u ++ ·) := by
  have hrun : (bracket opening body closing).run (.ofBytes ahead.toArray) (.fresh .start) =
      (opening.run (.ofBytes ahead.toArray) (.fresh .start)).andThen fun t =>
        untilClosed (body.run (.ofBytes ahead.toArray)) (closing.run (.ofBytes ahead.toArray))
          ((Source.ofBytes ahead.toArray).bytes.size - t.position.offset + 1) t := rfl
  rw [reads?, hrun]
  obtain ⟨u, h, hu, hopening⟩ | ⟨u, h, -, hopening⟩ := opening.run_ofBytes_cases ahead
  · have hle : ((Scan.fresh .start).keepAll u).position.offset ≤
        (Source.ofBytes ahead.toArray).bytes.size := Scan.offset_keepAll_le (Nat.zero_le _) hu
    rw [hopening, h, Outcome.andThen_matched, Option.bind_some,
      kept?_untilClosed hclosing hf _ _ hle (Nat.lt_succ_self _), Source.remaining_keepAll]
    rfl
  · rw [hopening, h]
    rfl

end Pattern

end ByteLexer
