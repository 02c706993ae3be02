import ByteLexer.Proofs.Readings

/-!
# Unrolling repetitions

The first rounds of a repetition may be run before the others as a repetition of their own, for any
pattern and any bounds, since what ends a round in the loop of the least rounds ends it in both. A
repetition without a bound of its own is a first round and then the same repetition again. That
needs more: the repetition that comes again may run one round more, which makes no difference as
long as there are not as many bytes as rounds, and that nothing has been read at its end says that
nothing was read in the first round either.
-/

namespace ByteLexer

variable {src : Source} {s : Scan} {n : Nat}

lemma Outcome.andThen_assoc (r : Outcome) (f g : Scan → Outcome) :
    (r.andThen f).andThen g = r.andThen fun s => (f s).andThen g := by
  cases r <;> rfl

lemma Outcome.andThen_eq_self (r : Outcome) : r.andThen .matched = r := by
  cases r <;> rfl

namespace Pattern

lemma exactly_add (p : Scan → Outcome) (a m : Nat) (s : Scan) :
    exactly p (a + m) s = (exactly p a s).andThen (exactly p m) := by
  induction a generalizing s with
  | zero =>
    rw [Nat.zero_add]
    rfl
  | succ a ih =>
    rw [Nat.succ_add, exactly, exactly, Outcome.andThen_assoc]
    exact congrArg (Outcome.andThen (p s)) (funext ih)

lemma run_times (p : Pattern) (src : Source) (n : Nat) (s : Scan) :
    (p.times n).run src s = exactly (p.run src) n s := by
  have hrun : (p.times n).run src s =
      (exactly (p.run src) n s).andThen (upTo (p.run src) (n - n)) := rfl
  rw [hrun, Nat.sub_self]
  exact Outcome.andThen_eq_self _

lemma run_repetition_add (p : Pattern) (src : Source) (a m n : Nat) (s : Scan) :
    (p.repetition (a + m) (a + n)).run src s = ((p.times a).seq (p.repetition m n)).run src s := by
  have hrun : (p.repetition (a + m) (a + n)).run src s =
      (exactly (p.run src) (a + m) s).andThen (upTo (p.run src) (a + n - (a + m))) := rfl
  have hseq : ((p.times a).seq (p.repetition m n)).run src s =
      ((p.times a).run src s).andThen fun t =>
        (exactly (p.run src) m t).andThen (upTo (p.run src) (n - m)) := rfl
  rw [hrun, hseq, run_times, exactly_add, Outcome.andThen_assoc, Nat.add_sub_add_left]

/-- A loop with more rounds than bytes ahead is a round, if one matches, and then the loop again. -/
lemma upTo_eq_once (p : Pattern) (hle : s.position.offset ≤ src.bytes.size)
    (hn : (src.remaining s.position).length ≤ n) :
    upTo (p.run src) (n + 1) s =
      upTo (fun t => (p.run src t).andThen (upTo (p.run src) (n + 1))) 1 s := by
  obtain ⟨bytes, -, hb, hrun⟩ | ⟨bytes, -, -, hrun⟩ := p.run_cases hle
  · by_cases hne : bytes = []
    · subst hne
      have hloop : upTo (p.run src) (n + 1) s = .matched s := upTo_succ_of_matched hrun n
      have hround : (p.run src s).andThen (upTo (p.run src) (n + 1)) =
          .matched (s.keepAll []) := by
        rw [hrun]
        exact hloop
      rw [hloop, upTo_succ_of_matched hround, if_pos rfl]
    · have hle' := Scan.offset_keepAll_le hle hb
      have hless := length_remaining_keepAll_lt hb hne
      have hround : (p.run src s).andThen (upTo (p.run src) (n + 1)) =
          upTo (p.run src) (n + 1) (s.keepAll bytes) := by
        rw [hrun, Outcome.andThen_matched]
      rw [upTo_succ_of_matched hrun, if_neg hne,
        p.upTo_congr hle' (n := n) (m := n + 1) (by omega) (by omega)]
      -- Whatever comes of the other rounds, it has moved, since the first one has.
      obtain ⟨more, -, -, hrest⟩ | ⟨more, -, -, hrest⟩ := (p.repetition 0 (n + 1)).run_cases hle'
      · rw [run_repetition_zero, ← Scan.keepAll_append] at hrest
        rw [hrest] at hround ⊢
        rw [upTo_succ_of_matched hround, if_neg (by simp [hne])]
        rfl
      · rw [run_repetition_zero, ← Scan.keepAll_append] at hrest
        rw [hrest] at hround ⊢
        rw [upTo_succ_of_failed hround, if_neg (by simp [hne])]
  · have hround : (p.run src s).andThen (upTo (p.run src) (n + 1)) =
        .failed (s.keepAll bytes) := by
      rw [hrun, Outcome.andThen_failed]
    rw [upTo_succ_of_failed hrun, upTo_succ_of_failed hround]

lemma run_repetition_zero_eq_optional (p : Pattern) (hle : s.position.offset ≤ src.bytes.size)
    (hn : (src.remaining s.position).length ≤ n) :
    (p.repetition 0 (n + 1)).run src s = (p.seq (p.repetition 0 (n + 1))).optional.run src s :=
  upTo_eq_once p hle hn

lemma run_repetition_one_eq_seq (p : Pattern) (hle : s.position.offset ≤ src.bytes.size)
    (hn : (src.remaining s.position).length ≤ n) :
    (p.repetition 1 (n + 1)).run src s = (p.seq (p.repetition 0 (n + 1))).run src s := by
  have hseq : ∀ k, (p.seq (p.repetition 0 k)).run src s =
      (p.run src s).andThen (upTo (p.run src) k) := fun k => rfl
  rw [run_repetition_succ, Nat.add_sub_cancel, hseq, hseq]
  obtain ⟨bytes, -, hb, hrun⟩ | ⟨bytes, -, -, hrun⟩ := p.run_cases hle
  · have hlen : (src.remaining (s.keepAll bytes).position).length ≤ n :=
      Nat.le_trans (src.length_remaining_keepAll_le s bytes) hn
    rw [hrun, Outcome.andThen_matched, Outcome.andThen_matched]
    exact p.upTo_congr (Scan.offset_keepAll_le hle hb) hlen (Nat.le_succ_of_le hlen)
  · rw [hrun, Outcome.andThen_failed, Outcome.andThen_failed]

/-- A repetition comes out as its first rounds followed by the other ones, also where it fails and
where its bounds are in the wrong order. Any number of times a pattern is the same as at most once
the pattern followed by any number of times, and one or more times the same as once followed by any
number of times, on every text shorter than the bound of the repetition. -/
theorem repetition_unrolls (p : Pattern) (src : Source) (s : Scan) :
    (∀ a m n, (p.repetition (a + m) (a + n)).run src s =
      ((p.times a).seq (p.repetition m n)).run src s) ∧
    (s.position.offset ≤ src.bytes.size → src.bytes.size < unbounded →
      p.zeroOrMore.run src s = (p.seq p.zeroOrMore).optional.run src s ∧
      p.oneOrMore.run src s = (p.seq p.zeroOrMore).run src s) := by
  refine ⟨fun a m n => run_repetition_add p src a m n s, fun hle hshort => ?_⟩
  have hleft : (src.remaining s.position).length ≤ unbounded - 1 := by
    rw [Source.length_remaining]
    omega
  have hzero := run_repetition_zero_eq_optional p hle hleft
  have hone := run_repetition_one_eq_seq p hle hleft
  rw [Nat.sub_add_cancel (Nat.one_le_of_lt hshort)] at hzero hone
  exact ⟨hzero, hone⟩

/-- A word that is broken off in its third round, in a repetition without a bound and in one whose
bounds are in the wrong order. -/
theorem repetition_unrolls_broken_off :
    let src := Source.ofBytes (Text.Utf8.encode "x\nabac").toArray
    let s : Scan := ⟨⟨1, 2, 1⟩, #[33]⟩
    let p := (Pattern.char '\n').alt (Pattern.ofString "ab")
    let stop : Scan := ⟨⟨2, 4, 5⟩, #[33, 10, 97, 98, 97]⟩
    (s.position.offset ≤ src.bytes.size ∧ src.bytes.size < unbounded) ∧
    ((p.seq p.zeroOrMore).optional.run src s = .failed stop ∧
      p.zeroOrMore.run src s = .failed stop) ∧
    ((p.seq p.zeroOrMore).run src s = .failed stop ∧ p.oneOrMore.run src s = .failed stop) ∧
    ((p.times 1).seq (p.repetition 2 0)).run src s = .failed stop ∧
    (p.repetition 3 1).run src s = .failed stop := by
  intro src s p stop
  have hle : s.position.offset ≤ src.bytes.size := by decide
  have hshort : src.bytes.size < unbounded := by decide
  obtain ⟨hadd, hmore⟩ := repetition_unrolls p src s
  obtain ⟨hzero, hone⟩ := hmore hle hshort
  have hany : p.zeroOrMore.run src s = .failed stop := by decide
  have hsome : p.oneOrMore.run src s = .failed stop := by decide
  have hleast : (p.repetition (1 + 2) (1 + 0)).run src s = .failed stop := by decide
  exact ⟨⟨hle, hshort⟩, ⟨hzero ▸ hany, hany⟩, ⟨hone ▸ hsome, hsome⟩, hadd 1 2 0 ▸ hleast, hleast⟩

end Pattern

end ByteLexer
