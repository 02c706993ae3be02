import ByteLexer.Proofs.TextAhead
import ByteLexer.Proofs.Words
import Mathlib.Data.Nat.Find

/-!
# Parsing expressions

A parsing expression is a function: from the text ahead to the length of what it reads, if it
matches. Patterns are not like that in general, since a choice or a repetition gives up after a
failure that has moved. They are if whatever is tried before something else, the first of two
alternatives, what is repeated and what closes a bracket, is of a form that goes back when it
fails. Then the pattern runs just as the function says that is read off its form, with no scan,
no checkpoint and no giving up in it.
-/

namespace ByteLexer

open scoped Classical in
/-- The length of the longest text of `L` that a text begins with, if it begins with any. -/
noncomputable def longestLength (L : Language UInt8) (ahead : List UInt8) : Option Nat :=
  if ∃ n ≤ ahead.length, ahead.take n ∈ L then
    some (Nat.findGreatest (fun n => ahead.take n ∈ L) ahead.length)
  else none

namespace Peg

/-- Reads a byte. -/
def byte (test : UInt8 → Bool) (ahead : List UInt8) : Option Nat :=
  if ahead.head?.any test then some 1 else none

/-- Goes on with `g` where `f` has matched. -/
def seq (f g : List UInt8 → Option Nat) (ahead : List UInt8) : Option Nat :=
  (f ahead).bind fun m => (g (ahead.drop m)).map (m + ·)

/-- Matches `f` if it can and `g` otherwise. -/
def choice (f g : List UInt8 → Option Nat) (ahead : List UInt8) : Option Nat :=
  (f ahead).or (g ahead)

/-- Matches as often as it can up to a number of times, and no more once nothing is read. -/
def upTo (f : List UInt8 → Option Nat) : Nat → List UInt8 → Nat
  | 0, _ => 0
  | n + 1, ahead =>
    match f ahead with
    | some (m + 1) => m + 1 + upTo f n (ahead.drop (m + 1))
    | _ => 0

/-- Matches `least` times and then as often as it can up to `most` times in all. -/
def repetition (f : List UInt8 → Option Nat) : (least most : Nat) → List UInt8 → Option Nat
  | 0, most => fun ahead => some (upTo f most ahead)
  | least + 1, most => seq f (repetition f least (most - 1))

/-- Matches `body` up to the first place where `closing` matches. It fails where `body` fails or
leaves as much text as there was. -/
def untilClosed (body closing : List UInt8 → Option Nat) (ahead : List UInt8) : Option Nat :=
  match closing ahead with
  | some m => some m
  | none =>
    match body ahead with
    | some m =>
      if _hless : (ahead.drop m).length < ahead.length then
        (untilClosed body closing (ahead.drop m)).map (m + ·)
      else none
    | none => none
termination_by ahead.length
decreasing_by assumption

end Peg

namespace Pattern

/-- What a pattern is as a parsing expression. -/
noncomputable def peg : Pattern → List UInt8 → Option Nat
  | ofClass c => if c.isEpsilon then fun _ => some 0 else Peg.byte c.contains
  | satisfy test => Peg.byte test
  | literal bytes => fun ahead => if bytes <+: ahead then some bytes.length else none
  | seq first second => Peg.seq first.peg second.peg
  | alt first second => Peg.choice first.peg second.peg
  | attempt p => p.peg
  | repetition p least most => Peg.repetition p.peg least most
  | bracket opening body closing => Peg.seq opening.peg (Peg.untilClosed body.peg closing.peg)
  | eof => fun ahead => if ahead = [] then some 0 else none
  | nop => fun _ => some 0
  | automaton a => longestLength a.language
  | keywords t => longestLength t.language

/-- Whether a pattern is attempted or of another form that has not moved when it fails. -/
def isGuard : Pattern → Bool
  | attempt _ | ofClass _ | satisfy _ | eof | nop | automaton _ | keywords _ => true
  | literal _ | seq _ _ | alt _ _ | repetition _ _ _ | bracket _ _ _ => false

/-- Whether everything in a pattern that is tried before something else is a guard. -/
def isGuarded : Pattern → Bool
  | seq first second => first.isGuarded && second.isGuarded
  | alt first second => first.isGuard && first.isGuarded && second.isGuarded
  | attempt p => p.isGuarded
  | repetition p _ _ => p.isGuard && p.isGuarded
  | bracket opening body closing =>
    closing.isGuard && opening.isGuarded && body.isGuarded && closing.isGuarded
  | ofClass _ | satisfy _ | literal _ | eof | nop | automaton _ | keywords _ => true

/-- The length of what a pattern reads off the front of a text, if it matches there. -/
def readLength? (p : Pattern) (ahead : List UInt8) : Option Nat := (p.reads? ahead).map List.length

end Pattern

variable {p closing : Pattern} {ahead : List UInt8} {n : Nat} {L : Language UInt8}
  {r : Option (List UInt8)}

namespace Pattern

lemma goesBack_nop : nop.GoesBack := by
  intro src s t _ h
  cases h

lemma goesBack_of_isGuard (h : p.isGuard = true) : p.GoesBack := by
  cases p with
  | attempt p => exact goesBack_attempt p
  | ofClass c => exact goesBack_ofClass c
  | satisfy test => exact goesBack_satisfy test
  | eof => exact goesBack_eof
  | nop => exact goesBack_nop
  | automaton a => exact goesBack_automaton a
  | keywords t => exact goesBack_keywords t
  | literal _ => cases h
  | seq _ _ => cases h
  | alt _ _ => cases h
  | repetition _ _ _ => cases h
  | bracket _ _ _ => cases h

end Pattern

/-- The longest text ahead has the greatest length. -/
lemma IsLongestPrefix.longestLength_eq (h : IsLongestPrefix L ahead r) :
    longestLength L ahead = r.map List.length := by
  classical
  rw [longestLength]
  cases r with
  | none =>
    rw [if_neg, Option.map_none]
    rintro ⟨n, -, hn⟩
    exact h _ (List.take_prefix n ahead) hn
  | some w =>
    obtain ⟨hw, hmem, hmax⟩ := h
    have htake : ahead.take w.length = w := (List.prefix_iff_eq_take.mp hw).symm
    have hgreatest : Nat.findGreatest (fun n => ahead.take n ∈ L) ahead.length = w.length := by
      rw [Nat.findGreatest_eq_iff]
      refine ⟨hw.length_le, fun _ => by rwa [htake], fun n hlt hle hn => ?_⟩
      have hlen := hmax _ (List.take_prefix n ahead) hn
      rw [List.length_take, Nat.min_eq_left hle] at hlen
      omega
    rw [if_pos ⟨w.length, hw.length_le, by rwa [htake]⟩, hgreatest, Option.map_some]

namespace Pattern

lemma readLength?_le (h : p.readLength? ahead = some n) : n ≤ ahead.length := by
  obtain ⟨w, hw, rfl⟩ := Option.map_eq_some_iff.mp h
  exact (prefix_of_reads hw).length_le

lemma readLength?_satisfy (test : UInt8 → Bool) : (satisfy test).readLength? = Peg.byte test := by
  funext ahead
  cases ahead with
  | nil => rfl
  | cons b rest =>
    rw [readLength?, reads?_satisfy_cons, Peg.byte, List.head?_cons, Option.any_some]
    split <;> rfl

lemma readLength?_ofClass (c : ByteClass) : (ofClass c).readLength? =
    if c.isEpsilon then fun _ => some 0 else Peg.byte c.contains := by
  cases hc : c.isEpsilon with
  | true =>
    funext ahead
    rw [readLength?, reads?, run, hc]
    rfl
  | false =>
    have hsame : (ofClass c).readLength? = (satisfy c.contains).readLength? := by
      funext ahead
      rw [readLength?, readLength?, reads?_ofClass hc]
    rw [hsame]
    exact readLength?_satisfy c.contains

lemma readLength?_literal (bytes : List UInt8) : (literal bytes).readLength? =
    fun ahead => if bytes <+: ahead then some bytes.length else none := by
  funext ahead
  rw [readLength?, reads?_literal]
  split <;> rfl

lemma readLength?_eof : eof.readLength? = fun ahead => if ahead = [] then some 0 else none := by
  funext ahead
  cases ahead with
  | nil => rfl
  | cons b rest => rfl

lemma readLength?_seq (p q : Pattern) :
    (p.seq q).readLength? = Peg.seq p.readLength? q.readLength? := by
  funext ahead
  rw [readLength?, reads?_seq, Peg.seq, readLength?]
  cases p.reads? ahead with
  | none => rfl
  | some u =>
    rw [Option.bind_some, Option.map_some, Option.bind_some, readLength?, Option.map_map,
      Option.map_map]
    congr 1
    funext v
    exact List.length_append

lemma readLength?_alt (hp : p.GoesBack) (q : Pattern) :
    (p.alt q).readLength? = Peg.choice p.readLength? q.readLength? := by
  funext ahead
  rw [readLength?, reads?_alt hp, Peg.choice, readLength?, readLength?]
  cases p.reads? ahead <;> rfl

lemma readLength?_upTo (hp : p.GoesBack) (n : Nat) (ahead : List UInt8) :
    (p.repetition 0 n).readLength? ahead = some (Peg.upTo p.readLength? n ahead) := by
  induction n generalizing ahead with
  | zero => rfl
  | succ n ih =>
    rw [Peg.upTo, readLength?]
    cases h : p.reads? ahead with
    | none =>
      have hlength : p.readLength? ahead = none := by rw [readLength?, h, Option.map_none]
      rw [reads?_repetition_none hp h, hlength]
      rfl
    | some u =>
      have hlength : p.readLength? ahead = some u.length := by rw [readLength?, h, Option.map_some]
      rw [hlength]
      cases u with
      | nil =>
        rw [reads?_repetition_nil h]
        rfl
      | cons b v =>
        obtain ⟨w, hw, hrest⟩ := Option.map_eq_some_iff.mp (ih (ahead.drop (b :: v).length))
        rw [reads?_repetition_some h (List.cons_ne_nil b v), hw, Option.map_some, Option.map_some,
          List.length_append, hrest]
        rfl

lemma readLength?_repetition (hp : p.GoesBack) (least most : Nat) :
    (p.repetition least most).readLength? = Peg.repetition p.readLength? least most := by
  induction least generalizing most with
  | zero =>
    funext ahead
    exact readLength?_upTo hp most ahead
  | succ least ih =>
    rw [Peg.repetition, ← ih, ← readLength?_seq]
    funext ahead
    rw [readLength?, readLength?, reads?_repetition_succ]

lemma untilClosed_le (body closing : Pattern)
    (h : Peg.untilClosed body.readLength? closing.readLength? ahead = some n) :
    n ≤ ahead.length := by
  induction hlen : ahead.length using Nat.strong_induction_on generalizing ahead n with
  | h len ih =>
    rw [Peg.untilClosed] at h
    cases hclosing : closing.readLength? ahead with
    | some m =>
      rw [hclosing] at h
      cases h
      exact hlen ▸ readLength?_le hclosing
    | none =>
      cases hbody : body.readLength? ahead with
      | none =>
        rw [hclosing, hbody] at h
        cases h
      | some m =>
        simp only [hclosing, hbody] at h
        split at h
        · next hless =>
          obtain ⟨k, hk, rfl⟩ := Option.map_eq_some_iff.mp h
          have hm := readLength?_le hbody
          have hle := ih _ (hlen ▸ hless) hk rfl
          rw [List.length_drop] at hle
          omega
        · cases h

/-- The front of a text that a parsing expression for a loop reads unfolds as the loop does. -/
lemma readsOn_untilClosed (body closing : Pattern) : ReadsOn body closing fun ahead =>
    (Peg.untilClosed body.readLength? closing.readLength? ahead).map ahead.take := by
  intro ahead
  dsimp only
  rw [Peg.untilClosed, readLength?, readLength?]
  cases hclosing : closing.reads? ahead with
  | some w => exact congrArg some (List.prefix_iff_eq_take.mp (prefix_of_reads hclosing)).symm
  | none =>
    cases hbody : body.reads? ahead with
    | none => rfl
    | some u =>
      obtain ⟨rest, rfl⟩ := prefix_of_reads hbody
      simp only [Option.map_none, Option.map_some, Option.none_or, Option.bind_some, List.drop_left]
      by_cases hu : u = []
      · rw [dif_neg (by simp [hu]), if_pos hu]
        rfl
      · have hpos := List.length_pos_iff.mpr hu
        have hless : rest.length < (u ++ rest).length := by
          rw [List.length_append]
          omega
        rw [dif_pos hless, if_neg hu, Option.map_map, Option.map_map]
        congr 1
        funext k
        exact List.take_length_add_append k

lemma readLength?_bracket (hclosing : closing.GoesBack) (opening body : Pattern) :
    (bracket opening body closing).readLength? =
      Peg.seq opening.readLength? (Peg.untilClosed body.readLength? closing.readLength?) := by
  funext ahead
  rw [readLength?, reads?_bracket hclosing (readsOn_untilClosed body closing), Peg.seq, readLength?]
  cases opening.reads? ahead with
  | none => rfl
  | some u =>
    simp only [Option.bind_some, Option.map_some, Option.map_map]
    cases hk : Peg.untilClosed body.readLength? closing.readLength? (ahead.drop u.length) with
    | none => rfl
    | some k =>
      have hle := untilClosed_le body closing hk
      simp only [Option.map_some, Function.comp_apply, List.length_append, List.length_take,
        Nat.min_eq_left hle]

/-- A guarded pattern reads as much as it does as a parsing expression. -/
lemma peg_eq_readLength? (h : p.isGuarded = true) : p.peg = p.readLength? := by
  induction p with
  | ofClass c => exact (readLength?_ofClass c).symm
  | satisfy test => exact (readLength?_satisfy test).symm
  | literal bytes => exact (readLength?_literal bytes).symm
  | seq first second ih₁ ih₂ =>
    rw [isGuarded, Bool.and_eq_true] at h
    rw [peg, ih₁ h.1, ih₂ h.2, readLength?_seq]
  | alt first second ih₁ ih₂ =>
    rw [isGuarded, Bool.and_eq_true, Bool.and_eq_true] at h
    rw [peg, ih₁ h.1.2, ih₂ h.2, readLength?_alt (goesBack_of_isGuard h.1.1)]
  | attempt p ih =>
    rw [peg, ih h]
    funext ahead
    rw [readLength?, readLength?, reads?_attempt]
  | repetition p least most ih =>
    rw [isGuarded, Bool.and_eq_true] at h
    rw [peg, ih h.2, readLength?_repetition (goesBack_of_isGuard h.1)]
  | bracket opening body closing ih₁ ih₂ ih₃ =>
    rw [isGuarded, Bool.and_eq_true, Bool.and_eq_true, Bool.and_eq_true] at h
    rw [peg, ih₁ h.1.1.2, ih₂ h.1.2, ih₃ h.2,
      readLength?_bracket (goesBack_of_isGuard h.1.1.1)]
  | eof => exact readLength?_eof.symm
  | nop => rfl
  | automaton a =>
    funext ahead
    exact (isLongestPrefix_automaton a ahead).longestLength_eq
  | keywords t =>
    funext ahead
    exact (isLongestPrefix_keywords t ahead).longestLength_eq

/-- A guarded pattern matches at a place just where it does as a parsing expression on the text
ahead, and then it reads and keeps as many bytes. -/
theorem run_eq_peg (p : Pattern) (h : p.isGuarded = true) (src : Source) (s : Scan)
    (hle : s.position.offset ≤ src.bytes.size) :
    let ahead := src.remaining s.position
    (p.run src s).isMatch = (p.peg ahead).isSome ∧
    ∀ n, p.peg ahead = some n → n ≤ ahead.length ∧
      (p.run src s).scan =
        ⟨s.position.advanceOver (ahead.take n), s.kept ++ (ahead.take n).toArray⟩ := by
  intro ahead
  rw [peg_eq_readLength? h, readLength?]
  obtain ⟨w, hw, hpre, hrun⟩ | ⟨w, hw, -, hrun⟩ := p.run_cases hle
  · rw [hw, hrun]
    refine ⟨rfl, fun n hn => ?_⟩
    cases hn
    rw [← List.prefix_iff_eq_take.mp hpre]
    exact ⟨hpre.length_le, s.keepAll_eq w⟩
  · rw [hw, hrun]
    refine ⟨rfl, fun n hn => ?_⟩
    cases hn

/-- A text whose three quotes are not closed, in the middle of a line. -/
theorem run_eq_peg_unclosed :
    let src := Source.ofBytes (Text.Utf8.encode "x = \"\"\"a\\\"").toArray
    let s : Scan := ⟨⟨1, 5, 4⟩, #[120]⟩
    let p := Lexeme.text
    p.isGuarded = true ∧ s.position.offset ≤ src.bytes.size ∧
    p.peg (src.remaining s.position) = some 2 ∧
    (p.run src s).isMatch = true ∧ (p.run src s).scan = ⟨⟨1, 7, 6⟩, #[120, 34, 34]⟩ := by
  intro src s p
  have hguarded : p.isGuarded = true := by decide
  have hle : s.position.offset ≤ src.bytes.size := by decide
  have hpeg : p.peg (src.remaining s.position) = some 2 := by decide +kernel
  obtain ⟨hmatch, hscan⟩ := run_eq_peg p hguarded src s hle
  refine ⟨hguarded, hle, hpeg, ?_, (hscan 2 hpeg).2⟩
  rw [hmatch, hpeg]
  rfl

/-- Without the guard a choice gives up where the parsing expression goes on. -/
example :
    let p := (Pattern.ofString "ab").alt (.ofString "ac")
    p.reads? [97, 99] = none ∧ p.peg [97, 99] = some 2 := by
  decide

end Pattern

end ByteLexer
