import ByteLexer.Proofs.LongestMatch
import ByteLexer.Proofs.Readings

/-!
# Every pattern comes to an end

The executions of patterns are stated once more as rules, in which a loop may go on for as many
rounds as it likes, and with a record of every loop that has been run. Each pattern then has exactly
one execution from any place, which comes out as `run` says. The bytes ahead bound the rounds in it:
no recogniser goes back behind the place where it began, so every round that another one follows
takes a byte or is one of those that a repetition requires.
-/

namespace ByteLexer

/-- A loop that has been run: the repetition or bracket, where that began, and how often it has run
what it repeats. -/
structure LoopRun where
  loop : Pattern
  start : Scan
  rounds : Nat

/-- One round for each byte that was ahead and one more, besides those a repetition requires. -/
def LoopRun.Bounded (src : Source) (run : LoopRun) : Prop :=
  match run.loop with
  | .repetition _ least _ => run.rounds ≤ least + (src.remaining run.start.position).length + 1
  | _ => run.rounds ≤ (src.remaining run.start.position).length + 1

/-- How a recogniser may be executed: where it begins, the loops that are run and what comes of
it. -/
abbrev Execution := Scan → List LoopRun → Outcome → Prop

/-- What a round makes of its loop. -/
inductive Verdict where
  | over (r : Outcome)
  | again (s : Scan)

/-- The verdict on a round of a repetition from `s`. A required round has to match, and then another
follows. Any other round ends the loop if it has not moved, and the failure of one that has moved
stands. -/
def Verdict.ofRound (required : Bool) (s : Scan) : Outcome → Verdict
  | .matched t =>
    if required || s.checkpoint.moved t.position then .again t else .over (.matched t)
  | .failed t =>
    .over (if required || s.checkpoint.moved t.position then .failed t else .matched t)

/-- The verdict on a body of a bracket from `s`: it has to match and get further. -/
def Verdict.ofBody (s : Scan) : Outcome → Verdict
  | .matched t => if t.position.offset = s.position.offset then .over (.failed t) else .again t
  | .failed t => .over (.failed t)

namespace Execution

/-- An execution without loops. -/
inductive Single (p : Scan → Outcome) : Scan → List LoopRun → Outcome → Prop where
  | done {s : Scan} {r : Outcome} (h : p s = r) : Single p s [] r

/-- One and then, if it matches, another. -/
inductive InTurn (P Q : Execution) : Scan → List LoopRun → Outcome → Prop where
  | failed {s t : Scan} {ls : List LoopRun} (h : P s ls (.failed t)) : InTurn P Q s ls (.failed t)
  | matched {s t : Scan} {ls ms : List LoopRun} {r : Outcome} (h : P s ls (.matched t))
      (h' : Q t ms r) : InTurn P Q s (ls ++ ms) r

/-- One and then, if it fails without moving, another. -/
inductive Choice (P Q : Execution) : Scan → List LoopRun → Outcome → Prop where
  | first {s t : Scan} {ls : List LoopRun} (h : P s ls (.matched t)) : Choice P Q s ls (.matched t)
  | overrun {s t : Scan} {ls : List LoopRun} (h : P s ls (.failed t))
      (hm : s.checkpoint.moved t.position = true) : Choice P Q s ls (.failed t)
  | second {s t : Scan} {ls ms : List LoopRun} {r : Outcome} (h : P s ls (.failed t))
      (hm : s.checkpoint.moved t.position = false) (h' : Q t ms r) : Choice P Q s (ls ++ ms) r

/-- One that is taken back if it fails. -/
inductive Attempt (src : Source) (P : Execution) : Scan → List LoopRun → Outcome → Prop where
  | matched {s t : Scan} {ls : List LoopRun} (h : P s ls (.matched t)) :
      Attempt src P s ls (.matched t)
  | failed {s t : Scan} {ls : List LoopRun} (h : P s ls (.failed t)) :
      Attempt src P s ls (.failed (t.restore src s.checkpoint))

/-- The loop of a repetition, from the number of rounds that have matched and a place to the number
of rounds still to come, the loops run in them and the outcome. -/
inductive Repeats (P : Execution) (least most : Nat) :
    Nat → Scan → Nat → List LoopRun → Outcome → Prop where
  | enough {count : Nat} {s : Scan} (hl : least ≤ count) (hm : most ≤ count) :
      Repeats P least most count s 0 [] (.matched s)
  | last {count : Nat} {s : Scan} {ls : List LoopRun} {r r' : Outcome}
      (hc : count < least ∨ count < most) (h : P s ls r)
      (hv : Verdict.ofRound (count < least) s r = .over r') : Repeats P least most count s 1 ls r'
  | again {count n : Nat} {s t : Scan} {ls ms : List LoopRun} {r r' : Outcome}
      (hc : count < least ∨ count < most) (h : P s ls r)
      (hv : Verdict.ofRound (count < least) s r = .again t)
      (h' : Repeats P least most (count + 1) t n ms r') :
      Repeats P least most count s (n + 1) (ls ++ ms) r'

/-- The loop of a bracket, with the number of times that the body is run. -/
inductive Closes (B C : Execution) : Scan → Nat → List LoopRun → Outcome → Prop where
  | closed {s t : Scan} {ls : List LoopRun} (h : C s ls (.matched t)) :
      Closes B C s 0 ls (.matched t)
  | last {s t : Scan} {ls ms : List LoopRun} {r r' : Outcome} (h : C s ls (.failed t))
      (h' : B t ms r) (hv : Verdict.ofBody t r = .over r') : Closes B C s 1 (ls ++ ms) r'
  | again {n : Nat} {s t u : Scan} {ls ms ns : List LoopRun} {r r' : Outcome}
      (h : C s ls (.failed t)) (h' : B t ms r) (hv : Verdict.ofBody t r = .again u)
      (h'' : Closes B C u n ns r') : Closes B C s (n + 1) (ls ++ ms ++ ns) r'

/-- A bracket, with the number of times that its body is run. -/
inductive Bracket (O B C : Execution) : Scan → Nat → List LoopRun → Outcome → Prop where
  | unopened {s t : Scan} {ls : List LoopRun} (h : O s ls (.failed t)) :
      Bracket O B C s 0 ls (.failed t)
  | opened {n : Nat} {s t : Scan} {ls ms : List LoopRun} {r : Outcome} (h : O s ls (.matched t))
      (h' : Closes B C t n ms r) : Bracket O B C s n (ls ++ ms) r

end Execution

/-- The longest match of an automaton at a place, found in as many rounds as it takes. -/
def Automaton.Finds (a : Automaton) (src : Source) (pos : Position) (length : Option Nat) : Prop :=
  match a.root with
  | none => length = none
  | some root => a.Follows src pos.offset 0 [root] none length

open Execution in
/-- The executions of a pattern on a source. A repetition or bracket is recorded before the loops
that are run in it. -/
def Pattern.Executes (src : Source) : Pattern → Scan → List LoopRun → Outcome → Prop
  | ofClass c => Single ((ofClass c).run src)
  | satisfy test => Single ((satisfy test).run src)
  | literal bytes => Single ((literal bytes).run src)
  | seq first second => InTurn (first.Executes src) (second.Executes src)
  | alt first second => Choice (first.Executes src) (second.Executes src)
  | attempt p => Attempt src (p.Executes src)
  | repetition p least most => fun s loops r => ∃ n inner,
      Repeats (p.Executes src) least most 0 s n inner r ∧
        loops = ⟨.repetition p least most, s, n⟩ :: inner
  | bracket opening body closing => fun s loops r => ∃ n inner,
      Bracket (opening.Executes src) (body.Executes src) (closing.Executes src) s n inner r ∧
        loops = ⟨.bracket opening body closing, s, n⟩ :: inner
  | eof => Single (eof.run src)
  | nop => Single (nop.run src)
  | automaton a => fun s loops r => loops = [] ∧
      ∃ length, a.Finds src s.position length ∧ r = readMatch src length s
  | keywords t => Single ((keywords t).run src)

variable {src : Source} {s : Scan} {P Q B C O : Execution} {least most : Nat} {ls : List LoopRun}

/-- From every place there is one execution at most. -/
def Execution.Unique (P : Execution) : Prop :=
  ∀ ⦃s ls ls' r r'⦄, P s ls r → P s ls' r' → ls' = ls ∧ r' = r

namespace Execution

lemma unique_single (p : Scan → Outcome) : Unique (Single p) := by
  intro s ls ls' r r' h h'
  cases h with
  | done h =>
    cases h' with
    | done h' => exact ⟨rfl, h'.symm.trans h⟩

lemma Unique.inTurn (hP : P.Unique) (hQ : Q.Unique) : Unique (InTurn P Q) := by
  intro s ls ls' r r' h h'
  cases h with
  | failed h =>
    cases h' with
    | failed h' => exact hP h h'
    | matched h' _ => cases (hP h h').2
  | matched h hnext =>
    cases h' with
    | failed h' => cases (hP h h').2
    | matched h' hnext' =>
      obtain ⟨rfl, ht⟩ := hP h h'
      cases ht
      obtain ⟨rfl, rfl⟩ := hQ hnext hnext'
      exact ⟨rfl, rfl⟩

lemma Unique.choice (hP : P.Unique) (hQ : Q.Unique) : Unique (Choice P Q) := by
  intro s ls ls' r r' h h'
  cases h with
  | first h =>
    cases h' with
    | first h' => exact hP h h'
    | overrun h' _ => cases (hP h h').2
    | second h' _ _ => cases (hP h h').2
  | overrun h hm =>
    cases h' with
    | first h' => cases (hP h h').2
    | overrun h' _ => exact hP h h'
    | second h' hm' _ =>
      cases (hP h h').2
      cases hm.symm.trans hm'
  | second h hm hnext =>
    cases h' with
    | first h' => cases (hP h h').2
    | overrun h' hm' =>
      cases (hP h h').2
      cases hm.symm.trans hm'
    | second h' _ hnext' =>
      obtain ⟨rfl, ht⟩ := hP h h'
      cases ht
      obtain ⟨rfl, rfl⟩ := hQ hnext hnext'
      exact ⟨rfl, rfl⟩

lemma Unique.attempt (hP : P.Unique) : Unique (Attempt src P) := by
  intro s ls ls' r r' h h'
  cases h with
  | matched h =>
    cases h' with
    | matched h' => exact hP h h'
    | failed h' => cases (hP h h').2
  | failed h =>
    cases h' with
    | matched h' => cases (hP h h').2
    | failed h' =>
      obtain ⟨rfl, ht⟩ := hP h h'
      cases ht
      exact ⟨rfl, rfl⟩

lemma Unique.repeats (hP : P.Unique) {count n n' : Nat} {ls' : List LoopRun} {r r' : Outcome}
    (h : Repeats P least most count s n ls r) (h' : Repeats P least most count s n' ls' r') :
    n' = n ∧ ls' = ls ∧ r' = r := by
  induction h generalizing n' ls' r' with
  | enough hl hm =>
    cases h' with
    | enough _ _ => exact ⟨rfl, rfl, rfl⟩
    | last hc _ _ => omega
    | again hc _ _ _ => omega
  | last hc h hv =>
    cases h' with
    | enough _ _ => omega
    | last _ h' hv' =>
      obtain ⟨rfl, rfl⟩ := hP h h'
      cases hv.symm.trans hv'
      exact ⟨rfl, rfl, rfl⟩
    | again _ h' hv' _ =>
      obtain ⟨rfl, rfl⟩ := hP h h'
      cases hv.symm.trans hv'
  | again hc h hv _ ih =>
    cases h' with
    | enough _ _ => omega
    | last _ h' hv' =>
      obtain ⟨rfl, rfl⟩ := hP h h'
      cases hv.symm.trans hv'
    | again _ h' hv' hrest' =>
      obtain ⟨rfl, rfl⟩ := hP h h'
      cases hv.symm.trans hv'
      obtain ⟨rfl, rfl, rfl⟩ := ih hrest'
      exact ⟨rfl, rfl, rfl⟩

lemma Unique.closes (hB : B.Unique) (hC : C.Unique) {n n' : Nat} {ls' : List LoopRun}
    {r r' : Outcome} (h : Closes B C s n ls r) (h' : Closes B C s n' ls' r') :
    n' = n ∧ ls' = ls ∧ r' = r := by
  induction h generalizing n' ls' r' with
  | closed h =>
    cases h' with
    | closed h' =>
      obtain ⟨rfl, ht⟩ := hC h h'
      exact ⟨rfl, rfl, ht⟩
    | last h' _ _ => cases (hC h h').2
    | again h' _ _ _ => cases (hC h h').2
  | last h hbody hv =>
    cases h' with
    | closed h' => cases (hC h h').2
    | last h' hbody' hv' =>
      obtain ⟨rfl, ht⟩ := hC h h'
      cases ht
      obtain ⟨rfl, rfl⟩ := hB hbody hbody'
      cases hv.symm.trans hv'
      exact ⟨rfl, rfl, rfl⟩
    | again h' hbody' hv' _ =>
      cases (hC h h').2
      obtain ⟨-, rfl⟩ := hB hbody hbody'
      cases hv.symm.trans hv'
  | again h hbody hv _ ih =>
    cases h' with
    | closed h' => cases (hC h h').2
    | last h' hbody' hv' =>
      cases (hC h h').2
      obtain ⟨-, rfl⟩ := hB hbody hbody'
      cases hv.symm.trans hv'
    | again h' hbody' hv' hrest' =>
      obtain ⟨rfl, ht⟩ := hC h h'
      cases ht
      obtain ⟨rfl, rfl⟩ := hB hbody hbody'
      cases hv.symm.trans hv'
      obtain ⟨rfl, rfl, rfl⟩ := ih hrest'
      exact ⟨rfl, rfl, rfl⟩

lemma Unique.bracket (hO : O.Unique) (hB : B.Unique) (hC : C.Unique) {n n' : Nat}
    {ls' : List LoopRun} {r r' : Outcome} (h : Bracket O B C s n ls r)
    (h' : Bracket O B C s n' ls' r') : n' = n ∧ ls' = ls ∧ r' = r := by
  cases h with
  | unopened h =>
    cases h' with
    | unopened h' =>
      obtain ⟨rfl, ht⟩ := hO h h'
      exact ⟨rfl, rfl, ht⟩
    | opened h' _ => cases (hO h h').2
  | opened h hrest =>
    cases h' with
    | unopened h' => cases (hO h h').2
    | opened h' hrest' =>
      obtain ⟨rfl, ht⟩ := hO h h'
      cases ht
      obtain ⟨rfl, rfl, rfl⟩ := hB.closes hC hrest hrest'
      exact ⟨rfl, rfl, rfl⟩

end Execution

/-- The rounds of a matcher end, and what they end with is the longest match. -/
lemma Automaton.finds_iff {a : Automaton} {pos : Position} {length : Option Nat} :
    a.Finds src pos length ↔ length = a.longestMatch src pos := by
  cases hroot : a.root with
  | none => rw [Finds, longestMatch, hroot, Option.bind_none]
  | some root =>
    have hfound := longestMatch_follows src pos hroot
    rw [Finds, hroot]
    constructor
    · intro h
      exact (h.isLongest (by simp)).unique (hfound.isLongest (by simp))
    · rintro rfl
      exact hfound

namespace Verdict

variable (required : Bool) (s : Scan) (bytes : List UInt8)

lemma ofRound_matched : ofRound required s (.matched (s.keepAll bytes)) =
    if required = true ∨ bytes ≠ [] then .again (s.keepAll bytes) else .over (.matched s) := by
  rw [ofRound, Scan.moved_keepAll]
  cases required <;> cases bytes <;> rfl

lemma ofRound_failed : ofRound required s (.failed (s.keepAll bytes)) =
    .over (if required = true ∨ bytes ≠ [] then .failed (s.keepAll bytes) else .matched s) := by
  rw [ofRound, Scan.moved_keepAll]
  cases required <;> cases bytes <;> rfl

lemma ofBody_matched : ofBody s (.matched (s.keepAll bytes)) =
    if bytes = [] then .over (.failed s) else .again (s.keepAll bytes) := by
  rw [ofBody, Scan.offset_keepAll]
  cases bytes <;> simp

end Verdict

/-- Executions that come out as a recogniser does: one from every place inside the source, and all
loops in it keep to their bounds. -/
structure Execution.Describes (src : Source) (P : Execution) (p : Scan → Outcome) : Prop where
  ends : ∀ s, s.position.offset ≤ src.bytes.size →
    ∃ ls, P s ls (p s) ∧ ∀ run ∈ ls, run.Bounded src
  unique : P.Unique

namespace Execution

variable {p q opening body closing : Pattern}

lemma describes_single (p : Scan → Outcome) : Describes src (Single p) p where
  ends s _ := ⟨[], .done rfl, by simp⟩
  unique := unique_single p

/-- An execution of a pattern reads some of what is ahead and matches or fails after it. -/
lemma Describes.run_cases (hp : Describes src P (p.run src))
    (hle : s.position.offset ≤ src.bytes.size) :
    ∃ ls bytes, (∀ run ∈ ls, run.Bounded src) ∧ bytes <+: src.remaining s.position ∧
      (p.run src s = .matched (s.keepAll bytes) ∧ P s ls (.matched (s.keepAll bytes)) ∨
        p.run src s = .failed (s.keepAll bytes) ∧ P s ls (.failed (s.keepAll bytes))) := by
  obtain ⟨ls, h, hls⟩ := hp.ends s hle
  obtain ⟨bytes, -, hb, hout⟩ | ⟨bytes, -, hb, hout⟩ := p.run_cases hle
  · exact ⟨ls, bytes, hls, hb, .inl ⟨hout, hout ▸ h⟩⟩
  · exact ⟨ls, bytes, hls, hb, .inr ⟨hout, hout ▸ h⟩⟩

lemma Describes.inTurn (hp : Describes src P (p.run src)) (hq : Describes src Q (q.run src)) :
    Describes src (InTurn P Q) ((p.seq q).run src) := by
  refine ⟨fun s hle => ?_, hp.unique.inTurn hq.unique⟩
  have hrun : (p.seq q).run src s = (p.run src s).andThen (q.run src) := rfl
  obtain ⟨ls, bytes, hls, hb, ⟨hout, h⟩ | ⟨hout, h⟩⟩ := hp.run_cases hle
  · obtain ⟨ms, h', hms⟩ := hq.ends _ (Scan.offset_keepAll_le hle hb)
    rw [hrun, hout, Outcome.andThen_matched]
    exact ⟨ls ++ ms, .matched h h', List.forall_mem_append.mpr ⟨hls, hms⟩⟩
  · rw [hrun, hout, Outcome.andThen_failed]
    exact ⟨ls, .failed h, hls⟩

lemma Describes.choice (hp : Describes src P (p.run src)) (hq : Describes src Q (q.run src)) :
    Describes src (Choice P Q) ((p.alt q).run src) := by
  refine ⟨fun s hle => ?_, hp.unique.choice hq.unique⟩
  have hrun : (p.alt q).run src s = Pattern.choice (p.run src) (q.run src) s := rfl
  obtain ⟨ls, bytes, hls, hb, ⟨hout, h⟩ | ⟨hout, h⟩⟩ := hp.run_cases hle
  · rw [hrun, Pattern.choice, Pattern.marked, hout]
    exact ⟨ls, .first h, hls⟩
  · simp only [hrun, Pattern.choice, Pattern.marked, hout]
    split
    · next hm => exact ⟨ls, .overrun h hm, hls⟩
    · next hm =>
      obtain ⟨ms, h', hms⟩ := hq.ends _ (Scan.offset_keepAll_le hle hb)
      exact ⟨ls ++ ms, .second h (by simpa using hm) h', List.forall_mem_append.mpr ⟨hls, hms⟩⟩

lemma Describes.attempt (hp : Describes src P (p.run src)) :
    Describes src (Attempt src P) (p.attempt.run src) := by
  refine ⟨fun s hle => ?_, hp.unique.attempt⟩
  have hrun : p.attempt.run src s = Pattern.speculate src (p.run src) s := rfl
  obtain ⟨ls, bytes, hls, -, ⟨hout, h⟩ | ⟨hout, h⟩⟩ := hp.run_cases hle
  · rw [hrun, Pattern.speculate, Pattern.marked, hout]
    exact ⟨ls, .matched h, hls⟩
  · rw [hrun, Pattern.speculate, Pattern.marked, hout]
    exact ⟨ls, .failed h, hls⟩

/-- The rounds of a repetition that are not required: each of them takes a byte or is the last. -/
lemma Describes.repeats_more (hp : Describes src P (p.run src)) (m : Nat) {count : Nat}
    (hl : least ≤ count) (hm : most - count = m) (hle : s.position.offset ≤ src.bytes.size) :
    ∃ n ls, Repeats P least most count s n ls (Pattern.upTo (p.run src) m s) ∧
      n ≤ (src.remaining s.position).length + 1 ∧ ∀ run ∈ ls, run.Bounded src := by
  induction m generalizing count s with
  | zero => exact ⟨0, [], .enough hl (by omega), Nat.zero_le _, by simp⟩
  | succ m ih =>
    have hc : count < least ∨ count < most := by omega
    have hfree : decide (count < least) = false := decide_eq_false (Nat.not_lt.mpr hl)
    obtain ⟨ls, bytes, hls, hb, ⟨hout, h⟩ | ⟨hout, h⟩⟩ := hp.run_cases hle
    · rw [Pattern.upTo_succ_of_matched hout]
      by_cases hne : bytes = []
      · subst hne
        refine ⟨1, ls, .last hc h ?_, by omega, hls⟩
        rw [Verdict.ofRound_matched, hfree, if_neg (by simp), if_pos rfl]
      · obtain ⟨n, ms, h', hn, hms⟩ :=
          ih (Nat.le_succ_of_le hl) (by omega) (Scan.offset_keepAll_le hle hb)
        have hless := Pattern.length_remaining_keepAll_lt hb hne
        rw [if_neg hne]
        refine ⟨n + 1, ls ++ ms, .again hc h ?_ h', by omega, List.forall_mem_append.mpr ⟨hls, hms⟩⟩
        rw [Verdict.ofRound_matched, if_pos (.inr hne)]
    · rw [Pattern.upTo_succ_of_failed hout]
      refine ⟨1, ls, .last hc h ?_, by omega, hls⟩
      rw [Verdict.ofRound_failed, hfree]
      by_cases hne : bytes = [] <;> simp [hne]

/-- The rounds of a repetition, `m` required ones first. -/
lemma Describes.repeats (hp : Describes src P (p.run src)) (most m : Nat) {count : Nat}
    (hm : count + m = least) (hle : s.position.offset ≤ src.bytes.size) :
    ∃ n ls, Repeats P least most count s n ls
        ((Pattern.exactly (p.run src) m s).andThen (Pattern.upTo (p.run src) (most - least))) ∧
      n ≤ m + (src.remaining s.position).length + 1 ∧ ∀ run ∈ ls, run.Bounded src := by
  induction m generalizing count s with
  | zero =>
    rw [Nat.zero_add]
    exact hp.repeats_more _ (by omega) (by rw [← hm, Nat.add_zero]) hle
  | succ m ih =>
    have hc : count < least := by omega
    have hm' : count + 1 + m = least := by omega
    obtain ⟨ls, bytes, hls, hb, ⟨hout, h⟩ | ⟨hout, h⟩⟩ := hp.run_cases hle
    · obtain ⟨n, ms, h', hn, hms⟩ := ih hm' (Scan.offset_keepAll_le hle hb)
      have hlen := src.length_remaining_keepAll_le s bytes
      rw [Pattern.exactly, hout, Outcome.andThen_matched]
      refine ⟨n + 1, ls ++ ms, .again (.inl hc) h ?_ h', by omega,
        List.forall_mem_append.mpr ⟨hls, hms⟩⟩
      rw [Verdict.ofRound_matched, if_pos (.inl (decide_eq_true hc))]
    · rw [Pattern.exactly, hout, Outcome.andThen_failed, Outcome.andThen_failed]
      refine ⟨1, ls, .last (.inl hc) h ?_, by omega, hls⟩
      rw [Verdict.ofRound_failed, if_pos (.inl (decide_eq_true hc))]

/-- The rounds of a bracket: in each of them the body takes a byte or it is the last. A closing that
fails may take more. -/
lemma Describes.closes (hb : Describes src B (body.run src))
    (hc : Describes src C (closing.run src)) (m : Nat)
    (hm : (src.remaining s.position).length < m) (hle : s.position.offset ≤ src.bytes.size) :
    ∃ n ls, Closes B C s n ls (Pattern.untilClosed (body.run src) (closing.run src) m s) ∧
      n ≤ (src.remaining s.position).length + 1 ∧ ∀ run ∈ ls, run.Bounded src := by
  induction m generalizing s with
  | zero => omega
  | succ m ih =>
    rw [Pattern.untilClosed]
    obtain ⟨ls, ends, hls, he, ⟨hout, h⟩ | ⟨hout, h⟩⟩ := hc.run_cases hle
    · rw [hout]
      exact ⟨0, ls, .closed h, Nat.zero_le _, hls⟩
    · have hle' := Scan.offset_keepAll_le hle he
      have hlen := src.length_remaining_keepAll_le s ends
      obtain ⟨ms, bytes, hms, hbytes, ⟨hout', hbody⟩ | ⟨hout', hbody⟩⟩ := hb.run_cases hle'
      · have hboth := List.forall_mem_append.mpr ⟨hls, hms⟩
        simp only [hout, hout', Pattern.marked, Checkpoint.offset, Scan.checkpoint,
          Scan.offset_keepAll _ bytes, Nat.add_eq_left, List.length_eq_zero_iff]
        by_cases hne : bytes = []
        · subst hne
          refine ⟨1, ls ++ ms, .last h hbody ?_, by omega, hboth⟩
          rw [Verdict.ofBody_matched, if_pos rfl, if_pos rfl]
          rfl
        · have hless := Pattern.length_remaining_keepAll_lt hbytes hne
          obtain ⟨n, ns, hrest, hn, hns⟩ := ih (by omega) (Scan.offset_keepAll_le hle' hbytes)
          rw [if_neg hne]
          refine ⟨n + 1, ls ++ ms ++ ns, .again h hbody ?_ hrest, by omega,
            List.forall_mem_append.mpr ⟨hboth, hns⟩⟩
          rw [Verdict.ofBody_matched, if_neg hne]
      · simp only [hout, hout', Pattern.marked]
        exact ⟨1, ls ++ ms, .last h hbody rfl, by omega, List.forall_mem_append.mpr ⟨hls, hms⟩⟩

lemma Describes.bracket (ho : Describes src O (opening.run src))
    (hb : Describes src B (body.run src)) (hc : Describes src C (closing.run src))
    (hle : s.position.offset ≤ src.bytes.size) :
    ∃ n ls, Bracket O B C s n ls ((Pattern.bracket opening body closing).run src s) ∧
      n ≤ (src.remaining s.position).length + 1 ∧ ∀ run ∈ ls, run.Bounded src := by
  have hrun : (Pattern.bracket opening body closing).run src s =
      (opening.run src s).andThen fun t => Pattern.untilClosed (body.run src) (closing.run src)
        (src.bytes.size - t.position.offset + 1) t := rfl
  obtain ⟨ls, bytes, hls, hbytes, ⟨hout, h⟩ | ⟨hout, h⟩⟩ := ho.run_cases hle
  · have hlen := src.length_remaining_keepAll_le s bytes
    obtain ⟨n, ms, h', hn, hms⟩ := hb.closes hc
      (src.bytes.size - (s.keepAll bytes).position.offset + 1)
      (by rw [Source.length_remaining]; exact Nat.lt_succ_self _)
      (Scan.offset_keepAll_le hle hbytes)
    rw [hrun, hout, Outcome.andThen_matched]
    exact ⟨n, ls ++ ms, .opened h h', by omega, List.forall_mem_append.mpr ⟨hls, hms⟩⟩
  · rw [hrun, hout, Outcome.andThen_failed]
    exact ⟨0, ls, .unopened h, Nat.zero_le _, hls⟩

end Execution

namespace Pattern

open Execution

/-- Every pattern has an execution from every place, and no other. -/
lemma executes_describes (src : Source) (p : Pattern) :
    Describes src (p.Executes src) (p.run src) := by
  induction p with
  | ofClass c => exact describes_single _
  | satisfy test => exact describes_single _
  | literal bytes => exact describes_single _
  | seq first second ih₁ ih₂ => exact ih₁.inTurn ih₂
  | alt first second ih₁ ih₂ => exact ih₁.choice ih₂
  | attempt p ih => exact ih.attempt
  | repetition p least most ih =>
    constructor
    · intro s hle
      obtain ⟨n, inner, h, hn, hinner⟩ := ih.repeats most least (Nat.zero_add least) hle
      exact ⟨_, ⟨n, inner, h, rfl⟩, List.forall_mem_cons.mpr ⟨hn, hinner⟩⟩
    · rintro s _ _ r r' ⟨n, inner, h, rfl⟩ ⟨n', inner', h', rfl⟩
      obtain ⟨rfl, rfl, rfl⟩ := ih.unique.repeats h h'
      exact ⟨rfl, rfl⟩
  | bracket opening body closing ih₁ ih₂ ih₃ =>
    constructor
    · intro s hle
      obtain ⟨n, inner, h, hn, hinner⟩ := ih₁.bracket ih₂ ih₃ hle
      exact ⟨_, ⟨n, inner, h, rfl⟩, List.forall_mem_cons.mpr ⟨hn, hinner⟩⟩
    · rintro s _ _ r r' ⟨n, inner, h, rfl⟩ ⟨n', inner', h', rfl⟩
      obtain ⟨rfl, rfl, rfl⟩ := ih₁.unique.bracket ih₂.unique ih₃.unique h h'
      exact ⟨rfl, rfl⟩
  | eof => exact describes_single _
  | nop => exact describes_single _
  | automaton a =>
    constructor
    · intro s _
      exact ⟨[], ⟨rfl, _, Automaton.finds_iff.mpr rfl, rfl⟩, by simp⟩
    · rintro s _ _ _ _ ⟨rfl, length, h, rfl⟩ ⟨rfl, length', h', rfl⟩
      rw [Automaton.finds_iff.mp h, Automaton.finds_iff.mp h']
      exact ⟨rfl, rfl⟩
  | keywords t => exact describes_single _

/-- Every pattern comes to an end from every place in a source, however it is nested and whatever
the patterns do that its loops repeat: it has just one execution and comes out of it as `run` says.
In that execution every repetition has run what it repeats at most as often as it requires, once
more for each byte that was ahead of it and one more time, and every bracket has run its body at
most once for each byte that was ahead of it and one more time. -/
theorem execution_ends (p : Pattern) (src : Source) (s : Scan)
    (hle : s.position.offset ≤ src.bytes.size) :
    ∃ loops, p.Executes src s loops (p.run src s) ∧
      (∀ loops' r, p.Executes src s loops' r → loops' = loops ∧ r = p.run src s) ∧
      (∀ q least most t n, ⟨.repetition q least most, t, n⟩ ∈ loops →
        n ≤ least + (src.remaining t.position).length + 1) ∧
      ∀ opening body closing t n, ⟨.bracket opening body closing, t, n⟩ ∈ loops →
        n ≤ (src.remaining t.position).length + 1 := by
  have hdesc := p.executes_describes src
  obtain ⟨loops, h, hloops⟩ := hdesc.ends s hle
  refine ⟨loops, h, fun loops' r h' => hdesc.unique h h', ?_, ?_⟩
  · intro q least most t n hmem
    exact hloops _ hmem
  · intro opening body closing t n hmem
    exact hloops _ hmem

/-- A repetition whose operand fails after reading, one whose operand reads nothing, and a bracket
whose closing reads before it fails and whose body reads nothing. -/
theorem execution_ends_idle :
    let src := Source.ofBytes (Text.Utf8.encode "abax").toArray
    let s : Scan := .fresh .start
    let words := (ofString "ab").oneOrMore
    let idle := nop.zeroOrMore
    let closed := bracket (char 'a') nop (ofString "b)")
    let p := words.attempt.alt (idle.seq closed)
    let loops : List LoopRun := [⟨words, s, 2⟩, ⟨idle, s, 1⟩, ⟨closed, s, 1⟩]
    s.position.offset ≤ src.bytes.size ∧ p.Executes src s loops (.failed (s.keepAll [97, 98])) ∧
      ∀ loops' r, p.Executes src s loops' r →
        loops' = loops ∧ r = .failed (s.keepAll [97, 98]) := by
  intro src s words idle closed p loops
  have hle : s.position.offset ≤ src.bytes.size := by decide
  have hfirst : (ofString "ab").Executes src s [] (.matched (s.keepAll [97, 98])) :=
    .done (by decide)
  have hsecond : (ofString "ab").Executes src (s.keepAll [97, 98]) []
      (.failed (s.keepAll [97, 98, 97])) := .done (by decide)
  have hwords : words.Executes src s [⟨words, s, 2⟩] (.failed (s.keepAll [97, 98, 97])) :=
    ⟨2, _, .again (.inl Nat.one_pos) hfirst rfl (.last (.inr (by decide)) hsecond rfl), rfl⟩
  have hidle : idle.Executes src s [⟨idle, s, 1⟩] (.matched s) :=
    ⟨1, _, .last (.inr (by decide)) (.done rfl) rfl, rfl⟩
  have hopening : (char 'a').Executes src s [] (.matched (s.keepAll [97])) := .done (by decide)
  have hclosing : (ofString "b)").Executes src (s.keepAll [97]) []
      (.failed (s.keepAll [97, 98])) := .done (by decide)
  have hbody : nop.Executes src (s.keepAll [97, 98]) [] (.matched (s.keepAll [97, 98])) :=
    .done rfl
  have hclosed : closed.Executes src s [⟨closed, s, 1⟩] (.failed (s.keepAll [97, 98])) :=
    ⟨1, _, .opened hopening (.last hclosing hbody rfl), rfl⟩
  have hwordsBack : words.attempt.Executes src s [⟨words, s, 2⟩] (.failed s) :=
    Attempt.failed hwords
  have hp : p.Executes src s loops (.failed (s.keepAll [97, 98])) :=
    Choice.second hwordsBack (by decide) (InTurn.matched hidle hclosed)
  obtain ⟨loops', -, honly, -, -⟩ := execution_ends p src s hle
  obtain ⟨rfl, hrun⟩ := honly _ _ hp
  exact ⟨hle, hp, fun loops' r h => hrun ▸ honly loops' r h⟩

end Pattern

end ByteLexer
