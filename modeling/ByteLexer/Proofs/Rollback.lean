import ByteLexer.Proofs.RuleReadings

/-!
# Failures that leave no trace

An attempt goes back by moving to an old place and by cutting what was kept to its old length. That
brings back the old state whatever has been tried in between, since a pattern only ever goes on over
the text and only ever adds to what was kept. Rules that have no token have not moved either,
though they find that out in different ways: nothing matches, a word byte follows the word, or what
matches is empty.
-/

namespace ByteLexer

variable {src : Source} {pos : Position} {r : Rule}

/-- A rule that reads nothing of the text ahead has not moved. -/
lemma Rule.Provided.stop_eq (h : r.Provided) (hle : pos.offset ≤ src.bytes.size)
    (hnone : (r.tryMatch src pos).1 = none) : (r.tryMatch src pos).2 = pos := by
  rw [h.follows.2 src pos hle] at hnone ⊢
  cases hreads : r.reads? (src.remaining pos) with
  | none => rfl
  | some found =>
    rw [hreads] at hnone
    cases hnone

/-- An attempt of any pattern comes out just as the pattern does where that matches, and where it
fails, the place with its line and column and all that was kept are the old ones. A rule made of a
table, of a pattern or of an automaton is at its old place whenever it has no token. -/
theorem failures_leave_no_trace (src : Source) (s : Scan)
    (hle : s.position.offset ≤ src.bytes.size) :
    (∀ p : Pattern, p.attempt.run src s = match p.run src s with
      | .matched t => .matched t
      | .failed _ => .failed s) ∧
    ∀ r : Rule, r.Provided → (r.tryMatch src s.position).1 = none →
      (r.tryMatch src s.position).2 = s.position :=
  ⟨fun p => p.run_attempt hle, fun _ h hnone => h.stop_eq hle hnone⟩

/-- A pattern that gives up on the next line, in the second round of a loop behind an attempt that
has been taken back, and rules of each kind where they have no token: a table before a word that
goes on, the same pattern, and an automaton that matches only the empty text. -/
theorem failures_leave_no_trace_next_line :
    let src := Source.ofBytes (Text.Utf8.encode "x\ndo\ndot").toArray
    let s : Scan := ⟨⟨7, 3, 2⟩, #[33, 34]⟩
    let p := ((Pattern.ofString "dot").attempt.optional).seq (Pattern.ofString "do\n").zeroOrMore
    let table := Rule.ofTable [(Text.Utf8.encode "do", .keyFor)] true 80
    s.position.offset ≤ src.bytes.size ∧
    p.run src s = .failed ⟨⟨8, 3, 7⟩, #[33, 34, 100, 111, 10, 100, 111]⟩ ∧
    p.attempt.run src s = .failed s ∧
    table.tryMatch src s.position = (some (.ofBytes .keyFor s.position [100, 111]), ⟨7, 5, 4⟩) ∧
    ∀ r ∈ [Rule.ofTable [(Text.Utf8.encode "d", .keyFor)] true 80, .ofPattern .text p 30,
      .ofAutomaton .identifier .epsilon 10], r.tryMatch src s.position = (none, s.position) := by
  intro src s p table
  have hle : s.position.offset ≤ src.bytes.size := by decide
  have hfailed : p.run src s = .failed ⟨⟨8, 3, 7⟩, #[33, 34, 100, 111, 10, 100, 111]⟩ := by decide
  obtain ⟨hattempt, hrule⟩ := failures_leave_no_trace src s hle
  refine ⟨hle, hfailed, ?_, by decide, ?_⟩
  · rw [hattempt, hfailed]
  · intro r hr
    simp only [List.mem_cons, List.not_mem_nil, or_false] at hr
    rcases hr with rfl | rfl | rfl
    · exact Prod.ext (by decide) (hrule _ (.ofTable _ _ _) (by decide))
    · exact Prod.ext (by decide) (hrule _ (.ofPattern _ _ _ _) (by decide))
    · exact Prod.ext (by decide) (hrule _ (.ofAutomaton _ _ _) (by decide))

end ByteLexer
