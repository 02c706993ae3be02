import ByteLexer.Proofs.Tiling
import ByteLexer.Proofs.Words

/-!
# What rules read

Like the patterns, tables and automata they are made of, rules are functions of the text ahead: a
rule reads some bytes as a token of some kind, or nothing. The first match of a list of rules is
then the first of them that reads something, provided that none of them is ruled out by a first byte
it can begin with.
-/

namespace ByteLexer

namespace Rule

/-- The kind and the bytes of the token that a rule reads off the front of a text. -/
def reads? (r : Rule) (ahead : List UInt8) : Option (TokenKind × List UInt8) :=
  match r.tryMatch (.ofBytes ahead.toArray) .start with
  | (some token, stop) => some (token.kind, ahead.take stop.offset)
  | (none, _) => none

/-- What has been read at a place, as a token, and the place after it. -/
def tokenAt (pos : Position) : Option (TokenKind × List UInt8) → Option Token × Position
  | some (kind, bytes) => (some (.ofBytes kind pos bytes), pos.advanceOver bytes)
  | none => (none, pos)

/-- A rule does at every place what `f` says of the text ahead. -/
def Follows (r : Rule) (f : List UInt8 → Option (TokenKind × List UInt8)) : Prop :=
  (∀ ahead kind bytes, f ahead = some (kind, bytes) → bytes <+: ahead) ∧
    ∀ src pos, pos.offset ≤ src.bytes.size →
      r.tryMatch src pos = tokenAt pos (f (src.remaining pos))

/-- A rule is not ruled out by the next byte where it would read something. -/
def Unhindered (r : Rule) : Prop :=
  ∀ ahead, r.quickCheck ahead.head? = some false → r.reads? ahead = none

variable {r : Rule} {rules : List Rule} {src : Source} {pos : Position} {ahead bytes : List UInt8}
  {f : List UInt8 → Option (TokenKind × List UInt8)} {kind : TokenKind}

lemma Follows.reads?_eq (h : r.Follows f) : r.reads? = f := by
  funext ahead
  have htry := h.2 (.ofBytes ahead.toArray) .start (Nat.zero_le _)
  rw [Pattern.remaining_ofBytes] at htry
  rw [reads?, htry]
  cases hf : f ahead with
  | none => rfl
  | some found =>
    obtain ⟨kind, bytes⟩ := found
    simp only [tokenAt, Position.offset_advanceOver, Position.start, Nat.zero_add,
      ← List.prefix_iff_eq_take.mp (h.1 ahead kind bytes hf)]
    rfl

lemma follows_ofPattern (kind : TokenKind) (p : Pattern) (priority : Int)
    (first : Option ByteClass) :
    (ofPattern kind p priority first).Follows fun ahead => (p.reads? ahead).map (kind, ·) := by
  refine ⟨fun ahead kind' bytes h => ?_, fun src pos hle => ?_⟩
  · obtain ⟨u, hu, heq⟩ := Option.map_eq_some_iff.mp h
    cases heq
    exact Pattern.prefix_of_reads hu
  · have htry : (ofPattern kind p priority first).tryMatch src pos =
        tokenOf kind p.attempt src pos := rfl
    dsimp only
    rw [htry, tokenOf, (Pattern.goesBack_attempt p).recognize_eq hle, Pattern.reads?_attempt]
    cases p.reads? (src.remaining pos) <;> rfl

lemma follows_ofAutomaton (kind : TokenKind) (a : Automaton) (priority : Int) :
    (ofAutomaton kind a priority).Follows fun ahead =>
      (((Pattern.automaton a).reads? ahead).filter (· ≠ [])).map (kind, ·) := by
  refine ⟨fun ahead kind' bytes h => ?_, fun src pos hle => ?_⟩
  · obtain ⟨u, hu, heq⟩ := Option.map_eq_some_iff.mp h
    cases heq
    exact Pattern.prefix_of_reads (Option.filter_eq_some_iff.mp hu).1
  · simp only [ofAutomaton, (Pattern.goesBack_automaton a).recognize_eq hle]
    cases (Pattern.automaton a).reads? (src.remaining pos) with
    | none => rfl
    | some bytes =>
      cases bytes with
      | nil => rfl
      | cons byte bytes => rfl

/-- The words of a table are read whole if no word byte comes after them, or if that is not asked
for. -/
lemma follows_ofTable (words : List (List UInt8 × TokenKind)) (wholeWords : Bool) (priority : Int) :
    (ofTable words wholeWords priority).Follows fun ahead =>
      (((KeywordTable.ofList words).longestIn ahead).filter fun found =>
        !(wholeWords && (ahead.drop found.1.length).head?.any ByteClass.word.contains)).map
          fun (w, kind) => (kind, w) := by
  have hprefix : ∀ ahead w kind, (KeywordTable.ofList words).longestIn ahead = some (w, kind) →
      w <+: ahead := by
    intro ahead w kind h
    have hlong := (KeywordTable.ofList words).isLongestPrefix_longestIn ahead
    rw [h] at hlong
    exact hlong.1
  refine ⟨fun ahead kind bytes h => ?_, fun src pos hle => ?_⟩
  · obtain ⟨found, hfound, heq⟩ := Option.map_eq_some_iff.mp h
    cases heq
    exact hprefix ahead _ _ (Option.filter_eq_some_iff.mp hfound).1
  · have hplace : (Scan.fresh pos).position = pos := rfl
    simp only [ofTable, KeywordTable.find_eq, hplace]
    cases h : (KeywordTable.ofList words).longestIn (src.remaining pos) with
    | none => rfl
    | some found =>
      obtain ⟨w, kind⟩ := found
      have hpeek : src.peek (pos.advanceOver w) = ((src.remaining pos).drop w.length).head? := by
        rw [Source.peek_eq_head?, Source.remaining, Position.offset_advanceOver,
          Source.remaining, List.drop_drop]
      have hkept : ((Scan.fresh pos).keepAll w).kept.toList = w := by
        rw [Scan.kept_keepAll]
        rfl
      simp only [hkept, Scan.position_keepAll, hplace, hpeek, Option.filter_some]
      cases wholeWords && ((src.remaining pos).drop w.length).head?.any ByteClass.word.contains with
      | true => simp [tokenAt, Source.seek_of_le hle]
      | false => rfl

lemma Provided.follows (h : r.Provided) : r.Follows r.reads? := by
  cases h with
  | ofTable words wholeWords priority =>
    rw [(follows_ofTable words wholeWords priority).reads?_eq]
    exact follows_ofTable words wholeWords priority
  | ofPattern kind p priority first =>
    rw [(follows_ofPattern kind p priority first).reads?_eq]
    exact follows_ofPattern kind p priority first
  | ofAutomaton kind a priority =>
    rw [(follows_ofAutomaton kind a priority).reads?_eq]
    exact follows_ofAutomaton kind a priority

/-- The first match is what the first rule that reads anything reads. -/
lemma firstMatch_eq (hrules : ∀ r ∈ rules, r.Follows r.reads? ∧ r.Unhindered)
    (hle : pos.offset ≤ src.bytes.size) :
    firstMatch src pos rules = tokenAt pos (rules.findSome? (·.reads? (src.remaining pos))) := by
  induction rules with
  | nil => rfl
  | cons r rules ih =>
    have ih := ih fun q hq => hrules q (List.mem_cons_of_mem _ hq)
    obtain ⟨hfollows, hquick⟩ := hrules r List.mem_cons_self
    rw [firstMatch, List.findSome?_cons, Source.peek_eq_head?]
    split
    · next hveto => rw [hquick _ hveto, ih]
    · rw [hfollows.2 src pos hle]
      cases r.reads? (src.remaining pos) with
      | none => exact ih
      | some found => rfl

end Rule

end ByteLexer
