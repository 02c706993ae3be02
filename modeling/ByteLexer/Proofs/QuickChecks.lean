import ByteLexer.Proofs.FirstBytes

/-!
# Asking for the next byte first

A rule may be asked whether the next byte alone rules it out, which spares trying it. The default
rules and the rules of tables never rule out a match by that, and automata are not asked. So a lexer
that tries all its rules gives the same tokens and the same errors, and it stops at the same places.
-/

namespace ByteLexer

namespace Rule

/-- Where the next byte rules the rule out, it has no match. -/
def QuickCheckSound (r : Rule) : Prop :=
  ∀ src pos, r.quickCheck (src.peek pos) = some false → (r.tryMatch src pos).1 = none

/-- The rules that are asked for the next byte: the default ones, with and without comments, and
those of all tables. -/
inductive Asked : Rule → Prop where
  | default {r : Rule} (settings : Settings) (h : r ∈ defaults settings) : Asked r
  | ofTable (words : List (List UInt8 × TokenKind)) (wholeWords : Bool) (priority : Int) :
      Asked (ofTable words wholeWords priority)

/-- The rule without its answer about the next byte. -/
def alwaysTried (r : Rule) : Rule := { r with quickCheck := fun _ => none }

end Rule

/-- The lexer that tries its rules whatever the next byte is. -/
def Lexer.tryingAll (l : Lexer) : Lexer := { l with rules := l.rules.map Rule.alwaysTried }

namespace Rule

variable {r : Rule} {rules : List Rule} {c : ByteClass} {src : Source} {pos : Position}

/-- A rule that asks for the class it starts in is sound. At the end of the text it is not asked. -/
lemma StartsIn.quickCheckSound (h : r.StartsIn c) (hfollows : r.Follows r.reads?)
    (hq : r.quickCheck = startsWith c) : r.QuickCheckSound := by
  intro src pos hveto
  have hle : pos.offset ≤ src.bytes.size := by
    by_contra hgt
    have hpeek : src.peek pos = none := Array.getElem?_eq_none (by omega)
    rw [hq, hpeek] at hveto
    cases hveto
  have hreads : r.reads? (src.remaining pos) = none :=
    h.unhindered hq _ (src.peek_eq_head? pos ▸ hveto)
  rw [hfollows.2 src pos hle, hreads]
  rfl

lemma quickCheckSound_of_unasked (h : r.quickCheck = fun _ => none) : r.QuickCheckSound := by
  intro src pos hveto
  rw [h] at hveto
  cases hveto

lemma Asked.quickCheckSound (h : r.Asked) : r.QuickCheckSound := by
  cases h with
  | default settings h =>
    obtain ⟨c, hc, hq | hq⟩ := startsIn_defaults settings r h
    · exact hc.quickCheckSound (provided_defaults settings r h).follows hq
    · exact quickCheckSound_of_unasked hq
  | ofTable words wholeWords priority =>
    have hfollows := (Provided.ofTable words wholeWords priority).follows
    exact (startsIn_ofTable words wholeWords priority).quickCheckSound hfollows rfl

lemma insertByPriority_map {f : Rule → Rule} (hf : ∀ r, (f r).priority = r.priority) (r : Rule)
    (rules : List Rule) :
    insertByPriority (f r) (rules.map f) = (insertByPriority r rules).map f := by
  induction rules with
  | nil => rfl
  | cons q rules ih =>
    rw [List.map_cons, insertByPriority, insertByPriority, hf, hf]
    split
    · rfl
    · rw [ih, List.map_cons]

lemma byPriority_map {f : Rule → Rule} (hf : ∀ r, (f r).priority = r.priority)
    (rules : List Rule) : byPriority (rules.map f) = (byPriority rules).map f := by
  unfold byPriority
  induction rules with
  | nil => rfl
  | cons r rules ih =>
    rw [List.map_cons, List.foldr_cons, List.foldr_cons, ih, insertByPriority_map hf]

/-- Rules that are ruled out have no match, so trying them changes nothing. -/
lemma firstMatch_alwaysTried (h : ∀ r ∈ rules, r.QuickCheckSound) (src : Source) (pos : Position) :
    firstMatch src pos (rules.map alwaysTried) = firstMatch src pos rules := by
  induction rules with
  | nil => rfl
  | cons r rules ih =>
    have ih := ih fun q hq => h q (List.mem_cons_of_mem _ hq)
    have hunasked : r.alwaysTried.quickCheck (src.peek pos) ≠ some false := nofun
    rw [List.map_cons, firstMatch, if_neg hunasked, firstMatch, ih]
    by_cases hveto : r.quickCheck (src.peek pos) = some false
    · have htry : r.alwaysTried.tryMatch src pos = (none, (r.tryMatch src pos).2) :=
        Prod.ext (h r List.mem_cons_self src pos hveto) rfl
      rw [if_pos hveto, htry]
    · exact (if_neg hveto).symm

end Rule

namespace Lexer

variable {l : Lexer}

lemma ofRules_alwaysTried (cursor : Cursor) (rules : List Rule) (settings : Settings) :
    ofRules cursor (rules.map Rule.alwaysTried) settings =
      (ofRules cursor rules settings).tryingAll := by
  rw [ofRules, Rule.byPriority_map (f := Rule.alwaysTried) fun _ => rfl]
  rfl

lemma readToken_tryingAll (h : ∀ r ∈ l.rules, r.QuickCheckSound) :
    l.tryingAll.readToken = (l.readToken.1, l.readToken.2.tryingAll) := by
  have hmatch := Rule.firstMatch_alwaysTried h l.cursor.source l.cursor.position
  have htrying : l.tryingAll.readToken =
      let found := Rule.firstMatch l.cursor.source l.cursor.position
        (l.rules.map Rule.alwaysTried)
      (found.1, (l.moveTo found.2).tryingAll) := rfl
  rw [htrying, hmatch]
  rfl

lemma next_tryingAll (h : ∀ r ∈ l.rules, r.QuickCheckSound) :
    l.tryingAll.next = (l.next.1, l.next.2.tryingAll) := by
  have hskip : l.tryingAll.skipTrivia = l.skipTrivia.tryingAll := rfl
  have hread : l.skipTrivia.tryingAll.readToken =
      (l.skipTrivia.readToken.1, l.skipTrivia.readToken.2.tryingAll) := readToken_tryingAll h
  rw [next, next, hskip, hread]
  rfl

lemma rules_next (l : Lexer) : l.next.2.rules = l.rules := rfl

/-- Step by step both lexers give the same tokens and stand at the same place. -/
lemma collect_tryingAll (rounds : Nat) (h : ∀ r ∈ l.rules, r.QuickCheckSound) :
    l.tryingAll.collect rounds = ((l.collect rounds).1, (l.collect rounds).2.tryingAll) := by
  have hkept : ∀ l : Lexer, (∀ r ∈ l.rules, r.QuickCheckSound) →
      ∀ r ∈ l.next.2.rules, r.QuickCheckSound := by
    intro l h
    rw [rules_next]
    exact h
  exact collect_of_next hkept (fun l h => next_tryingAll h) rounds h

lemma tokens_tryingAll (h : ∀ r ∈ l.rules, r.QuickCheckSound) :
    l.tryingAll.tokens = (l.tokens.1, l.tokens.2.tryingAll) :=
  collect_tryingAll _ h

lemma tokenize_tryingAll (h : ∀ r ∈ l.rules, r.QuickCheckSound) :
    l.tryingAll.tokenize = (l.tokenize.1, l.tokenize.2.tryingAll) := by
  have hplace : l.tokens.2.tryingAll.cursor = l.tokens.2.cursor := rfl
  have hmode : l.tokens.2.tryingAll.settings = l.tokens.2.settings := rfl
  rw [tokenize, tokenize, tokens_tryingAll h]
  dsimp only
  rw [hplace, hmode]
  split
  · rfl
  · rfl

/-- Where the next byte rules out a default rule or the rule of a table, that rule has no match. So
a lexer with such rules and automata gives the same tokens and errors as one that always tries all
its rules, and both end at the same place. -/
theorem tokenize_quickChecks :
    (∀ r : Rule, r.Asked → ∀ src pos,
      r.quickCheck (src.peek pos) = some false → (r.tryMatch src pos).1 = none) ∧
    ∀ (cursor : Cursor) (rules : List Rule) (settings : Settings),
      (∀ r ∈ rules, r.Asked ∨ ∃ kind a priority, r = Rule.ofAutomaton kind a priority) →
      let l := ofRules cursor rules settings
      let l' := ofRules cursor (rules.map Rule.alwaysTried) settings
      l'.tokens.1 = l.tokens.1 ∧ l'.tokenize.1 = l.tokenize.1 ∧
        l'.tokenize.2.cursor = l.tokenize.2.cursor := by
  refine ⟨fun r hr => hr.quickCheckSound, ?_⟩
  intro cursor rules settings hrules l l'
  have hsound : ∀ r ∈ l.rules, r.QuickCheckSound := by
    intro r hr
    rcases hrules r (Rule.mem_byPriority.mp hr) with hasked | ⟨kind, a, priority, rfl⟩
    · exact hasked.quickCheckSound
    · exact Rule.quickCheckSound_of_unasked rfl
  have hl' : l' = l.tryingAll := ofRules_alwaysTried cursor rules settings
  rw [hl', tokens_tryingAll hsound, tokenize_tryingAll hsound]
  exact ⟨rfl, rfl, rfl⟩

/-- A table with an empty word and an automaton beside the default rules. Before the name the next
byte rules out the table. -/
theorem tokenize_quickChecks_table :
    let colons := Rule.ofTable (Rule.spellings [("", .question), ("::", .colon)]) false 95
    let digits := Rule.ofAutomaton .integer (.ofClass (ByteClass.digit 10)) 65
    let rules := colons :: digits :: Rule.defaults { keepComments := true }
    let src := Source.ofBytes (Text.Utf8.encode "x :: 7 // y").toArray
    (colons.quickCheck (src.peek .start) = some false ∧ (colons.tryMatch src .start).1 = none) ∧
    (∀ r ∈ rules, r.Asked ∨ ∃ kind a priority, r = Rule.ofAutomaton kind a priority) ∧
    (ofRules (.ofSource src) rules { keepComments := true }).tokens.1.map (·.kind) =
      [.identifier, .colon, .integer, .comment] ∧
    let l := ofRules (.ofSource src) rules { keepComments := true }
    let l' := ofRules (.ofSource src) (rules.map Rule.alwaysTried) { keepComments := true }
    l'.tokens.1 = l.tokens.1 ∧ l'.tokenize.1 = l.tokenize.1 ∧
      l'.tokenize.2.cursor = l.tokenize.2.cursor := by
  intro colons digits rules src
  have hveto : colons.quickCheck (src.peek .start) = some false := by decide
  have hrules : ∀ r ∈ rules, r.Asked ∨ ∃ kind a priority, r = Rule.ofAutomaton kind a priority :=
    List.forall_mem_cons.mpr ⟨.inl (.ofTable _ _ _),
      List.forall_mem_cons.mpr ⟨.inr ⟨_, _, _, rfl⟩, fun _ hr => .inl (.default _ hr)⟩⟩
  exact ⟨⟨hveto, tokenize_quickChecks.1 colons (.ofTable _ _ _) src .start hveto⟩, hrules,
    by decide +kernel, tokenize_quickChecks.2 (.ofSource src) rules _ hrules⟩

end Lexer

end ByteLexer
