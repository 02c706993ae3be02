import ByteLexer.Proofs.Tiling
import Mathlib.Data.List.Sort

/-!
# Rules by priority

Whatever the rules are, the next token is that of the first rule by priority which has one, the
rules of one priority in the order they are given. The rules before it leave no trace, wherever they
stopped: trying them in turn on a cursor that is set back after each comes to the same. If no two
rules have the same priority, it does not matter in which order they are given.
-/

namespace ByteLexer

namespace Rule

/-- The rule is not ruled out by the next byte of a place, and it has a token there and stops at
`stop`. -/
def Matches (r : Rule) (src : Source) (pos : Position) (token : Token) (stop : Position) : Prop :=
  r.quickCheck (src.peek pos) ≠ some false ∧ r.tryMatch src pos = (some token, stop)

/-- Of the rules that match at a place, the first in the order of falling priority and, within one
priority, of the list has a certain token and stops at `stop`. -/
def FirstByPriority (rules : List Rule) (src : Source) (pos : Position) (token : Token)
    (stop : Position) : Prop :=
  ∃ earlier r later, rules = earlier ++ r :: later ∧ r.Matches src pos token stop ∧
    (∀ q ∈ earlier, ∀ t e, q.Matches src pos t e → q.priority < r.priority) ∧
    ∀ q ∈ later, ∀ t e, q.Matches src pos t e → q.priority ≤ r.priority

/-- The rules in turn on a cursor that each of them moves. Behind a rule that has no token the
cursor is set back to where it was before; `next` is the byte that was seen there at first. -/
def matchInTurn (next : Option UInt8) : List Rule → Cursor → Option Token × Cursor
  | [], c => (none, c)
  | r :: rest, c =>
    if r.quickCheck next = some false then matchInTurn next rest c
    else
      match r.tryMatch c.source c.position with
      | (some token, stop) => (some token, { c with position := stop })
      | (none, stop) =>
        let moved : Cursor := { c with position := stop }
        matchInTurn next rest (moved.seek c.position)

/-- The rule is tried before the other wherever they stand in a list, unless both have the same
priority. -/
def Precedes (r q : Rule) : Prop := q.priority ≤ r.priority

instance : DecidableRel Precedes := fun r q => inferInstanceAs (Decidable (q.priority ≤ r.priority))

instance : Std.Total Precedes := ⟨fun r q => le_total q.priority r.priority⟩

instance : IsTrans Rule Precedes := ⟨fun _ _ _ h h' => le_trans h' h⟩

variable {r q : Rule} {rules rules' : List Rule} {src : Source} {pos stop : Position}
  {token : Token} {c : Cursor}

lemma byPriority_eq_insertionSort (rules : List Rule) :
    byPriority rules = rules.insertionSort Precedes := by
  have hinsert : insertByPriority = List.orderedInsert Precedes := by
    funext r rules
    induction rules with
    | nil => rfl
    | cons q rules ih =>
      rw [insertByPriority, List.orderedInsert_cons, ih]
      rfl
  unfold byPriority List.insertionSort
  rw [hinsert]

lemma pairwise_byPriority (rules : List Rule) : (byPriority rules).Pairwise Precedes := by
  rw [byPriority_eq_insertionSort]
  exact List.pairwise_insertionSort Precedes rules

lemma perm_byPriority (rules : List Rule) : (byPriority rules).Perm rules := by
  rw [byPriority_eq_insertionSort]
  exact List.perm_insertionSort Precedes rules

/-- Rules of different priorities come into one order, however they are given. -/
lemma byPriority_eq_of_perm (hperm : rules'.Perm rules) (hnodup : (rules.map priority).Nodup) :
    byPriority rules' = byPriority rules := by
  have hsame : (byPriority rules').Perm (byPriority rules) :=
    (perm_byPriority rules').trans (hperm.trans (perm_byPriority rules).symm)
  apply List.Perm.eq_of_pairwise _ (pairwise_byPriority rules') (pairwise_byPriority rules) hsame
  intro r q hr hq hrq hqr
  apply List.inj_on_of_nodup_map hnodup
  · exact hperm.mem_iff.mp (mem_byPriority.mp hr)
  · exact mem_byPriority.mp hq
  · exact le_antisymm hqr hrq

lemma firstMatch_of_matches (h : r.Matches src pos token stop) (rules : List Rule) :
    firstMatch src pos (r :: rules) = (some token, stop) := by
  rw [firstMatch, if_neg h.1, h.2]

lemma firstMatch_of_not_matches (h : ∀ t e, ¬ r.Matches src pos t e) (rules : List Rule) :
    firstMatch src pos (r :: rules) = firstMatch src pos rules := by
  rw [firstMatch]
  by_cases hveto : r.quickCheck (src.peek pos) = some false
  · rw [if_pos hveto]
  · rw [if_neg hveto]
    cases htry : r.tryMatch src pos with
    | mk token stop =>
      cases token with
      | none => rfl
      | some token => exact (h token stop ⟨hveto, htry⟩).elim

/-- A rule that does not match may be left out. -/
lemma firstMatch_insert_of_not_matches (h : ∀ t e, ¬ r.Matches src pos t e) (rules : List Rule) :
    firstMatch src pos (insertByPriority r rules) = firstMatch src pos rules := by
  induction rules with
  | nil => exact firstMatch_of_not_matches h []
  | cons q rules ih =>
    rw [insertByPriority]
    by_cases hle : q.priority ≤ r.priority
    · rw [if_pos hle, firstMatch_of_not_matches h]
    · rw [if_neg hle, firstMatch, firstMatch, ih]

/-- A rule that matches is the first if none of a higher priority does. -/
lemma firstMatch_insert_of_matches (h : r.Matches src pos token stop)
    (hmax : ∀ q ∈ rules, ∀ t e, q.Matches src pos t e → q.priority ≤ r.priority) :
    firstMatch src pos (insertByPriority r rules) = (some token, stop) := by
  induction rules with
  | nil => exact firstMatch_of_matches h []
  | cons q rules ih =>
    rw [insertByPriority]
    by_cases hle : q.priority ≤ r.priority
    · rw [if_pos hle, firstMatch_of_matches h]
    · have hq : ∀ t e, ¬ q.Matches src pos t e :=
        fun t e hmatch => hle (hmax q List.mem_cons_self t e hmatch)
      rw [if_neg hle, firstMatch_of_not_matches hq]
      exact ih fun p hp => hmax p (List.mem_cons_of_mem q hp)

/-- A rule of a lower priority than one that matches makes no difference. -/
lemma firstMatch_insert_of_lt (hsorted : rules.Pairwise Precedes) (hq : q ∈ rules)
    (h : q.Matches src pos token stop) (hlt : r.priority < q.priority) :
    firstMatch src pos (insertByPriority r rules) = firstMatch src pos rules := by
  induction rules with
  | nil => exact (List.not_mem_nil hq).elim
  | cons p rules ih =>
    obtain ⟨hp, hrest⟩ := List.pairwise_cons.mp hsorted
    have hfirst : q.priority ≤ p.priority := by
      by_cases heq : q = p
      · rw [heq]
      · exact hp q (List.mem_of_ne_of_mem heq hq)
    rw [insertByPriority, if_neg (by omega)]
    by_cases hmatch : ∃ t e, p.Matches src pos t e
    · obtain ⟨t, e, hmatch⟩ := hmatch
      rw [firstMatch_of_matches hmatch, firstMatch_of_matches hmatch]
    · have hnone : ∀ t e, ¬ p.Matches src pos t e := fun t e ht => hmatch ⟨t, e, ht⟩
      have hmem : q ∈ rules := by
        apply List.mem_of_ne_of_mem _ hq
        intro heq
        exact hnone token stop (heq ▸ h)
      rw [firstMatch_of_not_matches hnone, firstMatch_of_not_matches hnone, ih hrest hmem]

/-- A rule in front changes nothing if it does not match, or only below a later one. -/
lemma FirstByPriority.cons (h : FirstByPriority rules src pos token stop)
    (hr : ∀ t e, r.Matches src pos t e →
      ∃ q ∈ rules, r.priority < q.priority ∧ ∃ t e, q.Matches src pos t e) :
    FirstByPriority (r :: rules) src pos token stop := by
  obtain ⟨earlier, p, later, rfl, hp, hearlier, hlater⟩ := h
  refine ⟨r :: earlier, p, later, rfl, hp, ?_, hlater⟩
  intro x hx t e hmatch
  by_cases hxr : x = r
  · rw [hxr] at hmatch ⊢
    obtain ⟨q, hq, hlt, u, v, hqmatch⟩ := hr t e hmatch
    have hle : q.priority ≤ p.priority := by
      by_cases hqp : q = p
      · rw [hqp]
      · rcases List.mem_append.mp hq with hq | hq
        · exact (hearlier q hq u v hqmatch).le
        · exact hlater q (List.mem_of_ne_of_mem hqp hq) u v hqmatch
    omega
  · exact hearlier x (List.mem_of_ne_of_mem hxr hx) t e hmatch

/-- In the order of priority the first match is that of the first rule by priority, and without one
no rule matches. -/
lemma firstMatch_byPriority (rules : List Rule) (src : Source) (pos : Position) :
    (∃ token stop, FirstByPriority rules src pos token stop ∧
      firstMatch src pos (byPriority rules) = (some token, stop)) ∨
    ((∀ r ∈ rules, ∀ t e, ¬ r.Matches src pos t e) ∧
      firstMatch src pos (byPriority rules) = (none, pos)) := by
  induction rules with
  | nil => exact .inr ⟨fun r hr => (List.not_mem_nil hr).elim, rfl⟩
  | cons r rules ih =>
    have hinsert : byPriority (r :: rules) = insertByPriority r (byPriority rules) := rfl
    rw [hinsert]
    by_cases hmatch : ∃ token stop, r.Matches src pos token stop
    · by_cases hhigher : ∃ q ∈ rules, r.priority < q.priority ∧ ∃ t e, q.Matches src pos t e
      · obtain ⟨t, e, hfirst, heq⟩ | ⟨hnone, -⟩ := ih
        · refine .inl ⟨t, e, hfirst.cons fun _ _ _ => hhigher, ?_⟩
          obtain ⟨q, hq, hlt, u, v, hq'⟩ := hhigher
          rw [firstMatch_insert_of_lt (pairwise_byPriority rules) (mem_byPriority.mpr hq) hq' hlt,
            heq]
        · obtain ⟨q, hq, -, u, v, hq'⟩ := hhigher
          exact (hnone q hq u v hq').elim
      · obtain ⟨token, stop, hmatch⟩ := hmatch
        have hmax : ∀ q ∈ rules, ∀ t e, q.Matches src pos t e → q.priority ≤ r.priority := by
          intro q hq t e hq'
          by_contra hgt
          exact hhigher ⟨q, hq, by omega, t, e, hq'⟩
        refine .inl ⟨token, stop, ⟨[], r, rules, rfl, hmatch, ?_, hmax⟩, ?_⟩
        · exact fun q hq => (List.not_mem_nil hq).elim
        · exact firstMatch_insert_of_matches hmatch fun q hq => hmax q (mem_byPriority.mp hq)
    · have hr : ∀ t e, ¬ r.Matches src pos t e := fun t e h => hmatch ⟨t, e, h⟩
      rw [firstMatch_insert_of_not_matches hr]
      obtain ⟨t, e, hfirst, heq⟩ | ⟨hnone, heq⟩ := ih
      · exact .inl ⟨t, e, hfirst.cons fun t e h => (hr t e h).elim, heq⟩
      · exact .inr ⟨List.forall_mem_cons.mpr ⟨hr, hnone⟩, heq⟩

/-- Setting the cursor back takes away what a rule without a token has done to it. -/
lemma matchInTurn_eq (hle : c.offset ≤ c.source.bytes.size) (rules : List Rule) :
    matchInTurn c.peek rules c =
      ((firstMatch c.source c.position rules).1,
        { c with position := (firstMatch c.source c.position rules).2 }) := by
  induction rules with
  | nil => rfl
  | cons r rules ih =>
    rw [matchInTurn, firstMatch]
    by_cases hveto : r.quickCheck c.peek = some false
    · rw [if_pos hveto, ih, if_pos (c := r.quickCheck (c.source.peek c.position) = _) hveto]
    · rw [if_neg hveto, if_neg (c := r.quickCheck (c.source.peek c.position) = _) hveto]
      cases htry : r.tryMatch c.source c.position with
      | mk token stop =>
        cases token with
        | none =>
          have hback : ({ c with position := stop } : Cursor).seek c.position = c := by
            rw [Cursor.seek, Source.seek_of_le hle]
          dsimp only
          rw [hback, ih]
        | some token => rfl

end Rule

namespace Lexer

/-- The next token is the one that the first rule by priority has behind blanks and comments, and
the lexer is then where this rule stopped; if no rule has one, the lexer stays behind the blanks and
comments. So it is if the rules move a cursor that is set back after each without a token. Rules of
different priorities give the same tokens and errors in whatever order they are given, and the lexer
comes to the same places. -/
theorem nextToken_by_priority (cursor : Cursor) (rules : List Rule) (settings : Settings)
    (hle : cursor.offset ≤ cursor.source.bytes.size) :
    let l := ofRules cursor rules settings
    let behind := l.skipTrivia.cursor
    let turns := Rule.matchInTurn behind.peek l.rules behind
    ((∃ token stop, Rule.FirstByPriority rules cursor.source behind.position token stop ∧
        l.nextToken = (some token, l.moveTo stop)) ∨
      (∀ r ∈ rules, ∀ t e, ¬ r.Matches cursor.source behind.position t e) ∧
        l.nextToken = (none, l.moveTo behind.position)) ∧
    l.nextToken = (turns.1, { l with cursor := turns.2 }) ∧
    ∀ rules', rules'.Perm rules → (rules.map Rule.priority).Nodup →
      let l' := ofRules cursor rules' settings
      l'.nextToken = l.nextToken ∧ (∀ rounds, l'.collect rounds = l.collect rounds) ∧
        l'.tokenize = l.tokenize := by
  intro l behind turns
  have hread : l.nextToken =
      let found := Rule.firstMatch cursor.source behind.position (Rule.byPriority rules)
      (found.1, l.moveTo found.2) := rfl
  refine ⟨?_, ?_, fun rules' hperm hnodup => ?_⟩
  · rw [hread]
    obtain ⟨token, stop, hfirst, heq⟩ | ⟨hnone, heq⟩ :=
      Rule.firstMatch_byPriority rules cursor.source behind.position
    · exact .inl ⟨token, stop, hfirst, by rw [heq]⟩
    · exact .inr ⟨hnone, by rw [heq]⟩
  · have hturns : turns = _ :=
      Rule.matchInTurn_eq (c := behind) (offset_skipTrivia_le (l := l) hle) l.rules
    rw [hturns]
    rfl
  · have hsame : ofRules cursor rules' settings = l := by
      unfold ofRules
      rw [Rule.byPriority_eq_of_perm hperm hnodup]
      rfl
    intro l'
    rw [show l' = l from hsame]
    exact ⟨rfl, fun rounds => rfl, rfl⟩

/-- Of three rules behind two blanks the next byte rules out the first, and the second goes on by
one byte and fails. -/
theorem nextToken_by_priority_moved :
    let vetoed := Rule.ofTable [(Text.Utf8.encode "b", .colon)] false 9
    let moves : Rule := { Rule.unguarded .identifier (.ofString "ab") with priority := 5 }
    let takes := Rule.ofPattern .text (.ofString "ac") 3
    let rules := [takes, moves, vetoed]
    let rules' := [moves, vetoed, takes]
    let cursor := Cursor.ofSource (.ofBytes (Text.Utf8.encode "  ac").toArray)
    let l := ofRules cursor rules {}
    let l' := ofRules cursor rules' {}
    (cursor.offset ≤ cursor.source.bytes.size ∧ rules'.Perm rules ∧
      (rules.map Rule.priority).Nodup) ∧
    vetoed.quickCheck (cursor.source.peek ⟨1, 3, 2⟩) = some false ∧
    moves.tryMatch cursor.source ⟨1, 3, 2⟩ = (none, ⟨1, 4, 3⟩) ∧
    l.nextToken.1 = some ⟨.text, ⟨1, 3, 2⟩, "ac"⟩ ∧ l.nextToken.2.cursor.position = ⟨1, 5, 4⟩ ∧
    (∃ token stop, Rule.FirstByPriority rules cursor.source ⟨1, 3, 2⟩ token stop ∧
      l.nextToken = (some token, l.moveTo stop)) ∧
    l'.nextToken = l.nextToken ∧ l'.tokenize = l.tokenize := by
  intro vetoed moves takes rules rules' cursor l l'
  have hle : cursor.offset ≤ cursor.source.bytes.size := by decide
  have hperm : ([moves, vetoed] ++ [takes]).Perm ([takes] ++ [moves, vetoed]) :=
    List.perm_append_comm
  have hnodup : (rules.map Rule.priority).Nodup := by
    have hmap : rules.map Rule.priority = [3, 5, 9] := rfl
    rw [hmap]
    decide
  have hplace : l.skipTrivia.cursor.position = ⟨1, 3, 2⟩ := by decide
  have htoken : l.nextToken.1 = some ⟨.text, ⟨1, 3, 2⟩, "ac"⟩ := by decide
  obtain ⟨hfirst, -, hany⟩ := nextToken_by_priority cursor rules {} hle
  obtain ⟨hnext, -, htokenize⟩ := hany rules' hperm hnodup
  refine ⟨⟨hle, hperm, hnodup⟩, by decide, by decide, htoken, by decide, ?_, hnext, htokenize⟩
  rw [← hplace]
  obtain hfirst | ⟨-, hnone⟩ := hfirst
  · exact hfirst
  · have hnone : l.nextToken = (none, _) := hnone
    rw [hnone] at htoken
    cases htoken

end Lexer

end ByteLexer
