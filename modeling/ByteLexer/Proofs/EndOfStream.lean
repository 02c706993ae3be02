import ByteLexer.Proofs.Stream

/-!
# The end of the stream

A stream that has ended stays where it is. Its last step stands behind all that can be skipped, and
there either no rule has a token or the first one that has one stops where it began; so the next
step comes to the same end. That unread input is an error has no part in this: it is only looked for
once the stream has ended.
-/

namespace ByteLexer

/-- Whenever the rule has a token, it stops at a place ahead that it has come to by reading. -/
def Rule.StopsAhead (r : Rule) : Prop :=
  ∀ src pos token stop, pos.offset ≤ src.bytes.size → r.tryMatch src pos = (some token, stop) →
    ∃ bytes, bytes <+: src.remaining pos ∧ stop = pos.advanceOver bytes

namespace Lexer

/-- A lexer inside a text that fits in memory, with rules that stop ahead. -/
structure Ready (l : Lexer) : Prop where
  le : l.cursor.offset ≤ l.cursor.source.bytes.size
  fits : FitsMemory l.cursor.source.bytes
  stopsAhead : ∀ r ∈ l.rules, r.StopsAhead

/-- The lexer after `n` more steps of the stream. -/
def afterSteps (n : Nat) (l : Lexer) : Lexer := (fun l => l.next.2)^[n] l

/-- What comes of some tokens where the stream has ended: an error if input is left there and the
settings say so. -/
def result (tokens : List Token) (stop : Lexer) : Except Unmatched (List Token) :=
  match stop.cursor.peek, stop.settings.unmatched with
  | some byte, .error => .error ⟨stop.cursor.source.name, stop.cursor.position, byte⟩
  | _, _ => .ok tokens

/-- The lexer with another policy for input that no rule reads. -/
def withUnmatched (mode : UnmatchedInput) (l : Lexer) : Lexer :=
  { l with settings.unmatched := mode }

end Lexer

variable {l l' : Lexer} {r : Rule} {settings : Settings} {ahead : List UInt8}

namespace Rule

lemma Reads.stopsAhead (h : r.Reads) : r.StopsAhead := by
  intro src pos token stop hle htry
  obtain ⟨kind, bytes, hb, -, hstop⟩ := h src pos token stop hle htry
  exact ⟨bytes, hb, hstop⟩

/-- A pattern that stops wherever it fails stops ahead when it matches. -/
lemma stopsAhead_unguarded (kind : TokenKind) (p : Pattern) : (unguarded kind p).StopsAhead := by
  intro src pos token stop hle htry
  obtain ⟨bytes, hb, hstop⟩ := p.recognize_stop hle
  have hsame : (tokenOf kind p src pos).2 = (p.recognize src pos).2 := by
    unfold tokenOf
    split
    · next h => rw [h]
    · next h => rw [h]
  have htry : tokenOf kind p src pos = (some token, stop) := htry
  rw [htry] at hsame
  exact ⟨bytes, hb, hsame.trans hstop⟩

end Rule

/-- Behind what is skipped there is nothing to skip. -/
lemma skips_drop_skips (settings : Settings) (hlen : ahead.length ≤ Pattern.unbounded) :
    skips settings (ahead.drop (skips settings ahead).length) = [] := by
  obtain ⟨hblanks, hcomment⟩ := Lexer.drop_skips settings hlen
  have hrest : (ahead.drop (skips settings ahead).length).length ≤ Pattern.unbounded := by
    rw [List.length_drop]
    omega
  generalize ahead.drop (skips settings ahead).length = rest at *
  unfold skips
  by_cases hkeep : settings.keepComments = true
  · rw [if_pos hkeep, hblanks]
  · rw [if_neg hkeep, Lexeme.skippable_eq_nil hrest hblanks
      (hcomment (Bool.eq_false_of_not_eq_true hkeep))]

namespace Lexer

lemma Ready.moveTo (h : l.Ready) {bytes : List UInt8} (hb : bytes <+: l.cursor.remaining) :
    (l.moveTo (l.cursor.position.advanceOver bytes)).Ready where
  le := by
    obtain ⟨hoffset, hin⟩ := offset_moveTo_advanceOver h.le hb
    exact hoffset.le.trans hin
  fits := h.fits
  stopsAhead := h.stopsAhead

lemma Ready.skipTrivia (h : l.Ready) : l.skipTrivia.Ready := by
  obtain ⟨bytes, hb, hskip⟩ := skipTrivia_stop h.le
  rw [hskip]
  exact h.moveTo hb

lemma skipTrivia_eq (h : l.Ready) : l.skipTrivia =
    l.moveTo (l.cursor.position.advanceOver (skips l.settings l.cursor.remaining)) :=
  congrArg l.moveTo (skipped_recognize h.fits.le_unbounded l.settings h.le)

/-- Skipping twice comes to the same as skipping once. -/
lemma skipTrivia_skipTrivia (h : l.Ready) : l.skipTrivia.skipTrivia = l.skipTrivia := by
  have hlen : l.cursor.remaining.length ≤ Pattern.unbounded := h.fits.length_remaining_le _
  have hrest : l.skipTrivia.cursor.remaining =
      l.cursor.remaining.drop (skips l.settings l.cursor.remaining).length := by
    rw [skipTrivia_eq h]
    simp only [moveTo, Cursor.remaining, Source.remaining, Position.offset_advanceOver,
      List.drop_drop]
  have hsettings : l.skipTrivia.settings = l.settings := rfl
  rw [skipTrivia_eq h.skipTrivia, hrest, hsettings, skips_drop_skips l.settings hlen]
  rfl

/-- A step that has no token ends behind what is skipped, and any other goes on from there by
reading something. -/
lemma next_ready_cases (h : l.Ready) : l.next = (none, l.skipTrivia) ∨
    ∃ token bytes, bytes ≠ [] ∧ bytes <+: l.skipTrivia.cursor.remaining ∧
      l.next = (some token,
        l.skipTrivia.moveTo (l.skipTrivia.cursor.position.advanceOver bytes)) := by
  have hready := h.skipTrivia
  have hnext : l.next =
      let found := Rule.firstMatch l.skipTrivia.cursor.source l.skipTrivia.cursor.position
        l.skipTrivia.rules
      (if (l.skipTrivia.moveTo found.2).cursor.offset = l.skipTrivia.cursor.offset then none
        else found.1, l.skipTrivia.moveTo found.2) := rfl
  generalize l.skipTrivia = behind at *
  rw [hnext]
  obtain hnone | ⟨r, hr, token, stop, htry, hfirst⟩ :=
    Rule.firstMatch_mem behind.cursor.source behind.cursor.position behind.rules
  · rw [hnone]
    exact .inl (by simp [moveTo])
  · obtain ⟨bytes, hb, rfl⟩ := hready.stopsAhead r hr _ _ token stop hready.le htry
    obtain ⟨hoffset, -⟩ := offset_moveTo_advanceOver hready.le hb
    rw [hfirst]
    dsimp only
    rw [hoffset]
    by_cases hempty : bytes = []
    · left
      rw [hempty, List.length_nil, Nat.add_zero, if_pos rfl]
      rfl
    · have hpos := List.length_pos_iff.mpr hempty
      rw [if_neg (by omega)]
      exact .inr ⟨token, bytes, hempty, hb, rfl⟩

/-- The step after one that had no token has none and goes nowhere. -/
lemma next_of_next_none (h : l.Ready) (hnone : l.next = (none, l')) : l'.next = (none, l') := by
  have hbehind : l' = l.skipTrivia := by
    obtain hnext | ⟨token, bytes, -, -, hnext⟩ := next_ready_cases h
    · exact (Prod.mk.inj (hnone.symm.trans hnext)).2
    · cases (Prod.mk.inj (hnone.symm.trans hnext)).1
  have hsame : l.skipTrivia.next = l.next := by
    unfold next
    rw [skipTrivia_skipTrivia h]
  rw [hbehind, hsame, hnone, hbehind]

lemma Ready.next (h : l.Ready) : l.next.2.Ready := by
  obtain hnext | ⟨token, bytes, -, hb, hnext⟩ := next_ready_cases h
  · rw [hnext]
    exact h.skipTrivia
  · rw [hnext]
    exact h.skipTrivia.moveTo hb

lemma Ready.afterSteps (h : l.Ready) (n : Nat) : (l.afterSteps n).Ready := by
  unfold Lexer.afterSteps
  induction n generalizing l with
  | zero => exact h
  | succ n ih => exact ih h.next

lemma afterSteps_of_fixed (h : l.next = (none, l)) (n : Nat) : l.afterSteps n = l :=
  Function.iterate_fixed (congrArg Prod.snd h) n

/-- With a round for each byte that is left and one more, a run comes to where the stream ends for
good. -/
lemma collect_ready (rounds : Nat) (h : l.Ready)
    (hrounds : l.cursor.source.bytes.size - l.cursor.offset < rounds) :
    l.Yields (l.collect rounds).1 (l.collect rounds).2 ∧
      (l.collect rounds).2.next = (none, (l.collect rounds).2) := by
  induction rounds generalizing l with
  | zero => omega
  | succ rounds ih =>
    obtain hnext | ⟨token, bytes, hne, hb, hnext⟩ := next_ready_cases h
    · simp only [collect, hnext]
      exact ⟨.done hnext, next_of_next_none h hnext⟩
    · obtain ⟨skipped, hskipped, hskip⟩ := skipTrivia_stop h.le
      obtain ⟨hstart, -⟩ := offset_moveTo_advanceOver h.le hskipped
      obtain ⟨hoffset, hin⟩ := offset_moveTo_advanceOver h.skipTrivia.le hb
      have hpos := List.length_pos_iff.mpr hne
      have hsource : l.skipTrivia.cursor.source = l.cursor.source := rfl
      rw [← hskip] at hstart
      rw [hsource] at hin
      have hrest := ih (h.skipTrivia.moveTo hb) (by
        rw [hoffset]
        change l.cursor.source.bytes.size - _ < rounds
        omega)
      simp only [collect, hnext]
      exact ⟨.token hnext hrest.1, hrest.2⟩

lemma tokens_ready (h : l.Ready) :
    l.Yields l.tokens.1 l.tokens.2 ∧ l.tokens.2.next = (none, l.tokens.2) :=
  collect_ready _ h (Nat.lt_succ_self _)

lemma source_collect (rounds : Nat) (l : Lexer) :
    (l.collect rounds).2.cursor.source = l.cursor.source := by
  induction rounds generalizing l with
  | zero => rfl
  | succ rounds ih =>
    have hstep : l.next.2.cursor.source = l.cursor.source := rfl
    rw [collect]
    rcases hnext : l.next with ⟨_ | token, l'⟩
    · rw [hnext] at hstep
      exact hstep
    · rw [hnext] at hstep
      exact (ih l').trans hstep

/-- Where the stream has ended there are no more tokens. -/
lemma tokens_of_fixed (h : l.next = (none, l)) : l.tokens = ([], l) := by
  unfold tokens
  rw [collect, h]

lemma tokenize_eq_result (l : Lexer) : l.tokenize = (result l.tokens.1 l.tokens.2, l.tokens.2) := by
  unfold tokenize result
  dsimp only
  cases l.tokens.2.cursor.peek with
  | none => rfl
  | some byte => cases l.tokens.2.settings.unmatched <;> rfl

lemma map_result (tokens : List Token) (stop : Lexer) :
    (result tokens stop).map (fun _ => ([] : List Token)) = result [] stop := by
  unfold result
  cases stop.cursor.peek with
  | none => rfl
  | some byte => cases stop.settings.unmatched <;> rfl

lemma tokens_withUnmatched (mode : UnmatchedInput) (l : Lexer) :
    (l.withUnmatched mode).tokens = (l.tokens.1, l.tokens.2.withUnmatched mode) :=
  collect_of_next (P := fun _ => True) (f := withUnmatched mode) (fun _ _ => trivial)
    (fun _ _ => rfl) _ trivial

/-- However many steps have been made, a step without a token is followed only by such steps, and
none of them goes anywhere. The policy for input that no rule reads has no say in the tokens and in
where they end: if it is an error, then there is one just when the end of the text has not been
reached, with the place and the byte there. Asked for all tokens again, the lexer stays where it is
and gives none, or the same error. -/
theorem tokenize_ends_for_good (cursor : Cursor) (rules : List Rule) (settings : Settings)
    (hrules : ∀ r ∈ rules, r.Provided ∨ r.StopsAhead)
    (hle : cursor.offset ≤ cursor.source.bytes.size) (hfits : FitsMemory cursor.source.bytes) :
    let l := ofRules cursor rules settings
    let lenient := (ofRules cursor rules { settings with unmatched := .stop }).tokenize
    let strict := (ofRules cursor rules { settings with unmatched := .error }).tokenize
    (∀ n l', (l.afterSteps n).next = (none, l') →
      ∀ m, l'.afterSteps m = l' ∧ (l'.afterSteps m).next = (none, l')) ∧
    (strict.2.cursor = lenient.2.cursor ∧
      ∃ tokens, lenient.1 = .ok tokens ∧ strict.1 = match lenient.2.cursor.peek with
        | some byte => .error ⟨cursor.source.name, lenient.2.cursor.position, byte⟩
        | none => .ok tokens) ∧
    l.tokenize.2.tokenize = (l.tokenize.1.map fun _ => [], l.tokenize.2) := by
  intro l lenient strict
  have hready : l.Ready := by
    refine ⟨hle, hfits, fun r hr => ?_⟩
    obtain hprovided | hahead := hrules r (Rule.mem_byPriority.mp hr)
    · exact hprovided.reads.stopsAhead
    · exact hahead
  refine ⟨fun n l' hnone m => ?_, ?_, ?_⟩
  · have hfixed := next_of_next_none (hready.afterSteps n) hnone
    have hstay := afterSteps_of_fixed hfixed m
    rw [hstay]
    exact ⟨rfl, hfixed⟩
  · have hlenient : lenient = _ := tokenize_eq_result (l.withUnmatched .stop)
    have hstrict : strict = _ := tokenize_eq_result (l.withUnmatched .error)
    rw [tokens_withUnmatched] at hlenient hstrict
    rw [hlenient, hstrict]
    have hsource : l.tokens.2.cursor.source = cursor.source := source_collect _ l
    refine ⟨rfl, l.tokens.1, ?_, ?_⟩
    · dsimp only [result, withUnmatched]
      cases l.tokens.2.cursor.peek <;> rfl
    · dsimp only [result, withUnmatched]
      rw [hsource]
      cases l.tokens.2.cursor.peek <;> rfl
  · obtain ⟨-, hfixed⟩ := tokens_ready hready
    rw [tokenize_eq_result l, tokenize_eq_result, tokens_of_fixed hfixed, map_result]

/-- A rule that reads nothing before a `c` hides the one that would read a word there, and before it
another rule goes on by one byte and fails. -/
theorem tokenize_ends_for_good_hidden :
    let moves : Rule := { Rule.unguarded .text (.ofString "c!") with priority := 12 }
    let hides := Rule.ofPattern .text .nop 11 (some (ByteClass.char 'c'))
    let rules := [hides, Rule.identifier, moves]
    let cursor := Cursor.ofSource (.ofBytes (Text.Utf8.encode "ab cd").toArray)
    let l := ofRules cursor rules .strict
    ((∀ r ∈ rules, r.Provided ∨ r.StopsAhead) ∧ cursor.offset ≤ cursor.source.bytes.size ∧
      FitsMemory cursor.source.bytes) ∧
    ((l.afterSteps 1).next.1 = none ∧ (l.afterSteps 1).next.2.cursor.position = ⟨1, 4, 3⟩) ∧
    (∀ m, ((l.afterSteps 1).next.2.afterSteps m).next = (none, (l.afterSteps 1).next.2)) ∧
    l.tokenize.1 = .error ⟨cursor.source.name, ⟨1, 4, 3⟩, 99⟩ ∧
    l.tokenize.2.tokenize = l.tokenize := by
  intro moves hides rules cursor l
  have hrules : ∀ r ∈ rules, r.Provided ∨ r.StopsAhead :=
    List.forall_mem_cons.mpr ⟨.inl (.ofPattern _ _ _ _),
      List.forall_mem_cons.mpr ⟨.inl (.ofAutomaton _ _ _),
        List.forall_mem_cons.mpr ⟨.inr (Rule.stopsAhead_unguarded .text (.ofString "c!")),
          fun _ hr => (List.not_mem_nil hr).elim⟩⟩⟩
  have hle : cursor.offset ≤ cursor.source.bytes.size := by decide
  have hfits : FitsMemory cursor.source.bytes := by decide
  have hnone : (l.afterSteps 1).next.1 = none := by decide +kernel
  have hstop : (l.afterSteps 1).next.2.cursor.position = ⟨1, 4, 3⟩ := by decide +kernel
  have herror : l.tokenize.1 = .error ⟨cursor.source.name, ⟨1, 4, 3⟩, 99⟩ := by decide +kernel
  obtain ⟨hends, -, hagain⟩ := tokenize_ends_for_good cursor rules .strict hrules hle hfits
  have hagain : l.tokenize.2.tokenize = (l.tokenize.1.map fun _ => [], l.tokenize.2) := hagain
  have hstep : (l.afterSteps 1).next = (none, (l.afterSteps 1).next.2) := by
    rw [← hnone]
  have hsame : (l.tokenize.1.map fun _ => ([] : List Token)) = l.tokenize.1 := by
    rw [herror]
    rfl
  refine ⟨⟨hrules, hle, hfits⟩, ⟨hnone, hstop⟩, fun m => ?_, herror, ?_⟩
  · exact (hends 1 _ hstep m).2
  · rw [hagain, hsame]

end Lexer

end ByteLexer
