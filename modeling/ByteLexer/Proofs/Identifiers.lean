import ByteLexer.Proofs.TextAhead
import ByteLexer.Proofs.WholeWords

/-!
# Two ways to read an identifier

The automaton of identifiers follows all its paths side by side, around the loop of word bytes as
often as they lead on, while the pattern of identifiers takes one byte after the other. Both take
the longest text that begins as an identifier does and goes on with word bytes. That is the whole
run of word bytes ahead, if it begins so, and otherwise neither takes anything.
-/

open scoped Computability

namespace ByteLexer

open Automaton (oneByte)
open Pattern

variable {src : Source} {s : Scan}

lemma munches_wordBytes : (ofClass .word).zeroOrMore.Munches (oneByte .word)∗ :=
  (munches_ofClass (by decide)).zeroOrMore (goesBack_ofClass _) (Lexeme.nil_notMem_oneByte _)
    (Lexeme.growsBy_oneByte _) (Lexeme.consistsOf_oneByte _).beginsIn (Set.empty_disjoint _)

/-- The pattern of identifiers is greedy, since no text of one byte grows to another. -/
lemma munches_identifier : Lexeme.identifier.Munches Rule.identifierAutomaton.language := by
  rw [language_identifierAutomaton]
  exact (munches_ofClass (by decide)).seq munches_wordBytes (Lexeme.growsBy_oneByte _)
    ((Lexeme.consistsOf_oneByte _).beginsIn.kstar (Lexeme.nil_notMem_oneByte _))
    (Set.empty_disjoint _)

lemma goesBack_identifier : Lexeme.identifier.GoesBack :=
  (goesBack_ofClass _).seq fun ahead => (goesBack_ofClass _).reads?_repetition_isSome _ ahead

/-- Where a word begins the automaton of identifiers reads all of it, and nothing elsewhere. -/
lemma run_identifierAutomaton (hle : s.position.offset ≤ src.bytes.size) :
    (automaton Rule.identifierAutomaton).run src s =
      if (src.peek s.position).any fun b => BeginsWord b then
        .matched (s.keepAll (wordAt src s.position))
      else .failed s := by
  have hbegins : identifierStart.contains = fun b => decide (BeginsWord b) :=
    funext contains_identifierStart
  rw [(goesBack_automaton _).run_eq hle, reads?_identifier, wordAt_eq, Source.peek_eq_head?,
    hbegins]
  by_cases h : ((src.remaining s.position).head?.any fun b => decide (BeginsWord b)) = true
  · rw [if_pos h, if_pos h]
  · rw [if_neg h, if_neg h]

/-- Run from any state of a scan, the automaton of identifiers and the pattern of identifiers come
out alike: where the next byte is a letter or an underscore they match and take all the letters,
digits and underscores that follow one another there, and elsewhere they fail and nothing has
changed. -/
theorem identifier_ways_agree (src : Source) (s : Scan) (hfits : FitsMemory src.bytes)
    (hle : s.position.offset ≤ src.bytes.size) :
    (automaton Rule.identifierAutomaton).run src s = Lexeme.identifier.run src s ∧
    Lexeme.identifier.run src s =
      if (src.peek s.position).any fun b => BeginsWord b then
        .matched ⟨s.position.advanceOver (wordAt src s.position),
          s.kept ++ (wordAt src s.position).toArray⟩
      else .failed s := by
  have halike : (automaton Rule.identifierAutomaton).run src s = Lexeme.identifier.run src s :=
    run_eq_of_isLongestPrefix (goesBack_automaton _) goesBack_identifier hle
      (isLongestPrefix_automaton _ _) (munches_identifier _ (hfits.length_remaining_le _))
  refine ⟨halike, ?_⟩
  rw [← halike, run_identifierAutomaton hle, Scan.keepAll_eq]

/-- An identifier with a digit in it behind other text, and the place of that digit, where none
begins. -/
theorem identifier_ways_agree_inside :
    let src := Source.ofBytes (Text.Utf8.encode "4\n_a9Z-").toArray
    let s : Scan := ⟨⟨2, 1, 2⟩, #[33]⟩
    let s' : Scan := ⟨⟨2, 3, 4⟩, #[33]⟩
    let stop : Scan := ⟨⟨2, 5, 6⟩, #[33] ++ (Text.Utf8.encode "_a9Z").toArray⟩
    (FitsMemory src.bytes ∧ s.position.offset ≤ src.bytes.size ∧
      s'.position.offset ≤ src.bytes.size) ∧
    ((automaton Rule.identifierAutomaton).run src s = .matched stop ∧
      Lexeme.identifier.run src s = .matched stop) ∧
    ((automaton Rule.identifierAutomaton).run src s' = .failed s' ∧
      Lexeme.identifier.run src s' = .failed s') := by
  intro src s s' stop
  have hfits : FitsMemory src.bytes := by decide
  have hle : s.position.offset ≤ src.bytes.size := by decide
  have hle' : s'.position.offset ≤ src.bytes.size := by decide
  obtain ⟨halike, hword⟩ := identifier_ways_agree src s hfits hle
  obtain ⟨halike', hnone⟩ := identifier_ways_agree src s' hfits hle'
  have hmatched : Lexeme.identifier.run src s = .matched stop := hword.trans (by decide)
  have hfailed : Lexeme.identifier.run src s' = .failed s' := hnone.trans (by decide)
  exact ⟨⟨hfits, hle, hle'⟩, ⟨halike.trans hmatched, hmatched⟩, ⟨halike'.trans hfailed, hfailed⟩⟩

end ByteLexer
