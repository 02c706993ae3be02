import ByteLexer.Proofs.Gaps
import Mathlib.Data.List.Induction

/-!
# The tokens tile the text

A rule that reads a token has read just the bytes of its lexeme, from the place of the token on. The
lexer goes back from every rule that has none, so each step of the stream crosses one gap and one
token, and the steps of a whole run lie end to end. The run is over after at most as many tokens as
there are bytes, since no token of the stream is empty.
-/

namespace ByteLexer

/-- A token of the bytes from offset `first` to offset `last`, at the place where they begin. -/
structure Token.CutFrom (src : Source) (token : Token) (first last : Nat) : Prop where
  lt : first < last
  le : last ≤ src.bytes.size
  position : token.position = Position.start.advanceOver (src.bytes.toList.take first)
  line : token.position.line = 1 + (src.bytes.toList.take first).count 10
  column : token.position.column =
    1 + ((src.bytes.toList.take first).reverse.takeWhile (· != 10)).length
  offset : token.position.offset = first
  lexeme : token.lexeme = Text.Utf8.decodeLossy (src.slice first last).toList

/-- The text from offset `n` to offset `m` is cut into gaps and the tokens. -/
inductive Tiles (src : Source) (keepComments : Bool) : Nat → List Token → Nat → Prop where
  | gap {n m : Nat} (h : src.Gap keepComments n m) : Tiles src keepComments n [] m
  | token {n first last m : Nat} {token : Token} {rest : List Token}
      (h : src.Gap keepComments n first) (ht : token.CutFrom src first last)
      (hrest : Tiles src keepComments last rest m) : Tiles src keepComments n (token :: rest) m

/-- A lexer gives the tokens one after the other and then no more, and it is left as the last
argument. -/
inductive Lexer.Yields : Lexer → List Token → Lexer → Prop where
  | done {l l' : Lexer} (h : l.next = (none, l')) : Yields l [] l'
  | token {l l' stop : Lexer} {token : Token} {rest : List Token}
      (h : l.next = (some token, l')) (hrest : Yields l' rest stop) :
      Yields l (token :: rest) stop

/-- The tokens a rule reads are those of the bytes up to where it stops. -/
def Rule.Reads (r : Rule) : Prop :=
  ∀ src pos token stop, pos.offset ≤ src.bytes.size → r.tryMatch src pos = (some token, stop) →
    ∃ kind bytes, bytes <+: src.remaining pos ∧ token = .ofBytes kind pos bytes ∧
      stop = pos.advanceOver bytes

/-- The rules that are made of a table, of a pattern that goes back, or of an automaton. -/
inductive Rule.Provided : Rule → Prop where
  | ofTable (words : List (List UInt8 × TokenKind)) (wholeWords : Bool) (priority : Int) :
      Provided (ofTable words wholeWords priority)
  | ofPattern (kind : TokenKind) (p : Pattern) (priority : Int) (first : Option ByteClass) :
      Provided (ofPattern kind p priority first)
  | ofAutomaton (kind : TokenKind) (a : Automaton) (priority : Int) :
      Provided (ofAutomaton kind a priority)

variable {src : Source} {keepComments : Bool} {n m first last : Nat} {pos : Position}
  {bytes : List UInt8} {r q : Rule} {rules : List Rule} {kind : TokenKind} {tokens : List Token}

lemma line_advanceOver (bytes : List UInt8) :
    (Position.start.advanceOver bytes).line = 1 + bytes.count 10 := by
  induction bytes using List.reverseRecOn with
  | nil => rfl
  | append_singleton bytes byte ih =>
    rw [Position.advanceOver_append, Position.advanceOver_cons, Position.advanceOver_nil,
      List.count_append, Position.advance]
    by_cases hbyte : byte = 10
    · simp [hbyte, ih, Nat.add_assoc]
    · simp [hbyte, ih]

lemma column_advanceOver (bytes : List UInt8) :
    (Position.start.advanceOver bytes).column =
      1 + (bytes.reverse.takeWhile (· != 10)).length := by
  induction bytes using List.reverseRecOn with
  | nil => rfl
  | append_singleton bytes byte ih =>
    rw [Position.advanceOver_append, Position.advanceOver_cons, Position.advanceOver_nil,
      List.reverse_append, Position.advance]
    by_cases hbyte : byte = 10
    · simp [hbyte]
    · simp [hbyte, ih, Nat.add_assoc]

/-- What a rule reads at a place is cut from there, if it is anything. -/
lemma cutFrom_ofBytes (hn : n ≤ src.bytes.size) (hb : bytes <+: src.bytes.toList.drop n)
    (hne : bytes ≠ []) :
    (Token.ofBytes kind (src.placeAt n) bytes).CutFrom src n (n + bytes.length) where
  lt := by
    have hpos := List.length_pos_iff.mpr hne
    omega
  le := Source.add_length_le hn hb
  position := rfl
  line := line_advanceOver _
  column := column_advanceOver _
  offset := Source.offset_placeAt hn
  lexeme := by
    rw [Source.slice_eq_toArray hb]
    rfl

lemma Pattern.recognize_cases (p : Pattern) (hle : pos.offset ≤ src.bytes.size) :
    (∃ bytes, bytes <+: src.remaining pos ∧
      p.recognize src pos = (some bytes.toArray, pos.advanceOver bytes)) ∨
    ∃ stop, p.recognize src pos = (none, stop) := by
  obtain ⟨bytes, hb, ⟨h, -⟩ | ⟨h, -⟩⟩ :=
    p.run_inStep src src (.fresh pos) (.fresh pos) ⟨hle, hle, rfl⟩
  · exact .inl ⟨bytes, hb, recognize_of_run h⟩
  · exact .inr ⟨_, by rw [recognize, h]⟩

/-- Wherever a pattern stops, it has read some of the text ahead. -/
lemma Pattern.recognize_stop (p : Pattern) (hle : pos.offset ≤ src.bytes.size) :
    ∃ bytes, bytes <+: src.remaining pos ∧ (p.recognize src pos).2 = pos.advanceOver bytes := by
  obtain ⟨bytes, hb, ⟨h, -⟩ | ⟨h, -⟩⟩ :=
    p.run_inStep src src (.fresh pos) (.fresh pos) ⟨hle, hle, rfl⟩
  · exact ⟨bytes, hb, by rw [recognize_of_run h]⟩
  · refine ⟨bytes, hb, ?_⟩
    rw [recognize, h]
    exact Scan.position_keepAll (.fresh pos) bytes

namespace Rule

lemma reads_ofPattern (kind : TokenKind) (p : Pattern) (priority : Int)
    (first : Option ByteClass) : (ofPattern kind p priority first).Reads := by
  intro src pos token stop hle h
  have htry : (ofPattern kind p priority first).tryMatch src pos = tokenOf kind p.attempt src pos :=
    rfl
  rw [htry, tokenOf] at h
  rcases p.attempt.recognize_cases hle with ⟨bytes, hb, hrec⟩ | ⟨stop', hrec⟩
  · rw [hrec] at h
    cases h
    exact ⟨kind, bytes, hb, rfl, rfl⟩
  · rw [hrec] at h
    cases h

lemma reads_ofAutomaton (kind : TokenKind) (a : Automaton) (priority : Int) :
    (ofAutomaton kind a priority).Reads := by
  intro src pos token stop hle h
  simp only [ofAutomaton] at h
  rcases (Pattern.automaton a).recognize_cases hle with ⟨bytes, hb, hrec⟩ | ⟨stop', hrec⟩
  · rw [hrec] at h
    dsimp only at h
    split at h
    · cases h
    · cases h
      exact ⟨kind, bytes, hb, rfl, rfl⟩
  · rw [hrec] at h
    cases h

lemma find_cases {α : Type} (t : KeywordTable α) (hle : pos.offset ≤ src.bytes.size) :
    (∃ tag bytes, bytes <+: src.remaining pos ∧
      t.find src (.fresh pos) = (some tag, (Scan.fresh pos).keepAll bytes)) ∨
    ∃ s, t.find src (.fresh pos) = (none, s) := by
  have ha : Scan.Aligned src src (.fresh pos) (.fresh pos) := ⟨hle, hle, rfl⟩
  obtain ⟨tag, bytes, hb, hfind, -⟩ := t.find_inStep ha
  cases tag with
  | none => exact .inr ⟨_, hfind⟩
  | some tag => exact .inl ⟨tag, bytes, hb, hfind⟩

lemma reads_ofTable (words : List (List UInt8 × TokenKind)) (wholeWords : Bool) (priority : Int) :
    (ofTable words wholeWords priority).Reads := by
  intro src pos token stop hle h
  simp only [ofTable] at h
  rcases find_cases (KeywordTable.ofList words) hle with ⟨kind, bytes, hb, hfind⟩ | ⟨s, hfind⟩
  · rw [hfind] at h
    dsimp only at h
    split at h
    · cases h
    · cases h
      refine ⟨kind, bytes, hb, ?_, Scan.position_keepAll _ _⟩
      rw [Scan.kept_keepAll]
      rfl
  · rw [hfind] at h
    cases h

lemma Provided.reads (h : r.Provided) : r.Reads := by
  cases h with
  | ofTable words wholeWords priority => exact reads_ofTable words wholeWords priority
  | ofPattern kind p priority first => exact reads_ofPattern kind p priority first
  | ofAutomaton kind a priority => exact reads_ofAutomaton kind a priority

lemma provided_defaults (settings : Settings) : ∀ r ∈ defaults settings, r.Provided := by
  intro r hr
  simp only [defaults, List.mem_append, List.mem_cons, List.not_mem_nil, or_false] at hr
  rcases hr with (rfl | rfl | rfl | rfl | rfl | rfl | rfl | rfl) | hr
  · exact .ofTable _ _ _
  · exact .ofTable _ _ _
  · exact .ofPattern _ _ _ _
  · exact .ofTable _ _ _
  · exact .ofPattern _ _ _ _
  · exact .ofPattern _ _ _ _
  · exact .ofPattern _ _ _ _
  · exact .ofAutomaton _ _ _
  · split at hr
    · rw [List.mem_singleton.mp hr]
      exact .ofPattern _ _ _ _
    · cases hr

lemma mem_insertByPriority : q ∈ insertByPriority r rules ↔ q = r ∨ q ∈ rules := by
  induction rules with
  | nil => simp [insertByPriority]
  | cons p rules ih =>
    rw [insertByPriority]
    split
    · simp
    · simp [ih, or_left_comm]

lemma mem_byPriority : q ∈ byPriority rules ↔ q ∈ rules := by
  unfold byPriority
  induction rules with
  | nil => rfl
  | cons r rules ih => rw [List.foldr_cons, mem_insertByPriority, ih, List.mem_cons]

/-- The first match is a match of one of the rules, or the place is the old one. -/
lemma firstMatch_mem (src : Source) (pos : Position) (rules : List Rule) :
    firstMatch src pos rules = (none, pos) ∨
    ∃ r ∈ rules, ∃ token stop, r.tryMatch src pos = (some token, stop) ∧
      firstMatch src pos rules = (some token, stop) := by
  induction rules with
  | nil => exact .inl rfl
  | cons r rules ih =>
    have hlater : firstMatch src pos rules = (none, pos) ∨
        ∃ q ∈ r :: rules, ∃ token stop, q.tryMatch src pos = (some token, stop) ∧
          firstMatch src pos rules = (some token, stop) := by
      obtain h | ⟨q, hq, h⟩ := ih
      · exact .inl h
      · exact .inr ⟨q, List.mem_cons_of_mem r hq, h⟩
    rw [firstMatch]
    split
    · exact hlater
    · cases htry : r.tryMatch src pos with
      | mk token stop =>
        cases token with
        | none => exact hlater
        | some token => exact .inr ⟨r, List.mem_cons_self, token, stop, htry, rfl⟩

/-- The rules read a token together, or the place is the old one. -/
lemma firstMatch_cases (hrules : ∀ r ∈ rules, r.Reads) (hle : pos.offset ≤ src.bytes.size) :
    firstMatch src pos rules = (none, pos) ∨
    ∃ kind bytes, bytes <+: src.remaining pos ∧
      firstMatch src pos rules = (some (.ofBytes kind pos bytes), pos.advanceOver bytes) := by
  obtain h | ⟨r, hr, token, stop, htry, h⟩ := firstMatch_mem src pos rules
  · exact .inl h
  · obtain ⟨kind, bytes, hb, rfl, rfl⟩ := hrules r hr src pos token stop hle htry
    exact .inr ⟨kind, bytes, hb, h⟩

end Rule

lemma Tiles.le (h : Tiles src keepComments n tokens m) : n + tokens.length ≤ m := by
  induction h with
  | gap h => exact h.le
  | token h ht _ ih =>
    have hgap := h.le
    have hlt := ht.lt
    rw [List.length_cons]
    omega

lemma Tiles.exists_cutFrom {token : Token} (h : Tiles src keepComments n tokens m)
    (htoken : token ∈ tokens) : ∃ first last, token.CutFrom src first last := by
  induction h with
  | gap => cases htoken
  | token _ ht _ ih =>
    rcases List.mem_cons.mp htoken with rfl | htoken
    · exact ⟨_, _, ht⟩
    · exact ih htoken

namespace Lexer

variable {l : Lexer}

/-- Skipping goes over some of the text ahead. -/
lemma skipTrivia_stop (hle : l.cursor.offset ≤ l.cursor.source.bytes.size) :
    ∃ bytes, bytes <+: l.cursor.remaining ∧
      l.skipTrivia = l.moveTo (l.cursor.position.advanceOver bytes) := by
  obtain ⟨bytes, hb, hstop⟩ := (skipped l.settings).recognize_stop hle
  exact ⟨bytes, hb, by rw [skipTrivia, hstop]⟩

/-- Over some of the text ahead a lexer comes to a place inside the text. -/
lemma offset_moveTo_advanceOver (hle : l.cursor.offset ≤ l.cursor.source.bytes.size)
    (hb : bytes <+: l.cursor.remaining) :
    (l.moveTo (l.cursor.position.advanceOver bytes)).cursor.offset =
        l.cursor.offset + bytes.length ∧
      l.cursor.offset + bytes.length ≤ l.cursor.source.bytes.size := by
  have hlen : bytes.length ≤ l.cursor.source.bytes.size - l.cursor.offset :=
    Nat.le_trans hb.length_le (Nat.le_of_eq (Source.length_remaining _ _))
  exact ⟨Position.offset_advanceOver _ _, by omega⟩

lemma offset_skipTrivia_le (hle : l.cursor.offset ≤ l.cursor.source.bytes.size) :
    l.skipTrivia.cursor.offset ≤ l.cursor.source.bytes.size := by
  obtain ⟨bytes, hb, hskip⟩ := skipTrivia_stop hle
  obtain ⟨hoffset, hin⟩ := offset_moveTo_advanceOver hle hb
  rw [hskip, hoffset]
  exact hin

/-- One step of the stream skips a gap, and then it reads a token or ends. -/
lemma next_cases (hrules : ∀ r ∈ l.rules, r.Reads) (hn : n ≤ l.cursor.source.bytes.size)
    (hpos : l.cursor.position = l.cursor.source.placeAt n) :
    ∃ first, l.cursor.source.Gap l.settings.keepComments n first ∧
      (l.next = (none, l.moveTo (l.cursor.source.placeAt first)) ∨
        ∃ token last, l.next = (some token, l.moveTo (l.cursor.source.placeAt last)) ∧
          token.CutFrom l.cursor.source first last) := by
  obtain ⟨first, hskip, hgap⟩ := skipped_gap l.settings hn
  have hfirst := hgap.le_size hn
  have hoffset := Source.offset_placeAt hfirst
  have hmoved : l.skipTrivia = l.moveTo (l.cursor.source.placeAt first) := by
    rw [skipTrivia, hpos, hskip]
  refine ⟨first, hgap, ?_⟩
  have hle : (l.cursor.source.placeAt first).offset ≤ l.cursor.source.bytes.size := by
    rw [hoffset]
    exact hfirst
  rw [next, hmoved, readToken]
  rcases Rule.firstMatch_cases hrules hle with hmatch | ⟨kind, bytes, hb, hmatch⟩
  · refine .inl ?_
    simp [moveTo, hmatch]
  · rw [Source.remaining_placeAt hfirst] at hb
    by_cases hempty : bytes = []
    · -- A token without bytes does not move the lexer, so the stream ends as if there were none.
      subst hempty
      refine .inl ?_
      simp [moveTo, hmatch]
    · refine .inr ⟨.ofBytes kind (l.cursor.source.placeAt first) bytes, first + bytes.length, ?_,
        cutFrom_ofBytes hfirst hb hempty⟩
      have hpos := List.length_pos_iff.mpr hempty
      simp only [moveTo, hmatch, Cursor.offset, Position.offset_advanceOver, Source.placeAt_add hb]
      rw [if_neg (by omega)]

/-- A change of the lexer that every step of the stream goes along with changes none of the tokens,
and the lexer that is left is changed alike. -/
lemma collect_of_next {P : Lexer → Prop} {f : Lexer → Lexer} (hP : ∀ l, P l → P l.next.2)
    (hf : ∀ l, P l → (f l).next = (l.next.1, f l.next.2)) (rounds : Nat) (h : P l) :
    (f l).collect rounds = ((l.collect rounds).1, f (l.collect rounds).2) := by
  induction rounds generalizing l with
  | zero => rfl
  | succ rounds ih =>
    have hrest := ih (hP l h)
    rw [collect, collect, hf l h]
    rcases hnext : l.next with ⟨_ | token, l'⟩
    · rfl
    · rw [hnext] at hrest
      simp only [hrest]

/-- With a round for each byte that is left and one more, the stream runs to its end, and what it
crosses is tiled. -/
lemma collect_tiles (rounds : Nat) (hrules : ∀ r ∈ l.rules, r.Reads)
    (hn : n ≤ l.cursor.source.bytes.size) (hpos : l.cursor.position = l.cursor.source.placeAt n)
    (hrounds : l.cursor.source.bytes.size - n < rounds) :
    l.Yields (l.collect rounds).1 (l.collect rounds).2 ∧
    ∃ m, m ≤ l.cursor.source.bytes.size ∧
      (l.collect rounds).2.cursor.position = l.cursor.source.placeAt m ∧
      Tiles l.cursor.source l.settings.keepComments n (l.collect rounds).1 m := by
  induction rounds generalizing l n with
  | zero => omega
  | succ rounds ih =>
    obtain ⟨first, hgap, hnext | ⟨token, last, hnext, hcut⟩⟩ := next_cases hrules hn hpos
    · simp only [collect, hnext]
      exact ⟨.done hnext, first, hgap.le_size hn, rfl, .gap hgap⟩
    · have hle := hgap.le
      have hlt := hcut.lt
      have hlast := hcut.le
      obtain ⟨hyields, m, hm, hstop, htiles⟩ :=
        ih (l := l.moveTo (l.cursor.source.placeAt last)) hrules hlast rfl
          (show l.cursor.source.bytes.size - last < rounds by omega)
      simp only [collect, hnext]
      exact ⟨.token hnext hyields, m, hm, hstop, .token hgap hcut htiles⟩

lemma tokens_tiles (hrules : ∀ r ∈ l.rules, r.Reads) (hstart : l.cursor.position = .start) :
    l.Yields l.tokens.1 l.tokens.2 ∧
    ∃ m, m ≤ l.cursor.source.bytes.size ∧
      l.tokens.2.cursor.position = l.cursor.source.placeAt m ∧
      Tiles l.cursor.source l.settings.keepComments 0 l.tokens.1 m := by
  apply collect_tiles _ hrules (Nat.zero_le _) hstart
  rw [Cursor.offset, hstart]
  exact Nat.lt_succ_self _

lemma reads_ofRules (c : Cursor) (settings : Settings) (hrules : ∀ r ∈ rules, r.Provided) :
    ∀ r ∈ (ofRules c rules settings).rules, r.Reads :=
  fun r hr => (hrules r (Rule.mem_byPriority.mp hr)).reads

/-- The tokens that a lexer with any tables, patterns and automata for rules gives from the start of
any text tile the text up to where the lexer stops: one after the other, each is cut from the text
at its place, with nothing but blanks and skipped comments before, between and behind them. -/
theorem tokens_tile (src : Source) (rules : List Rule) (settings : Settings)
    (hrules : ∀ r ∈ rules, r.Provided) :
    let l := ofRules (.ofSource src) rules settings
    let stop := l.tokens.2.cursor.offset
    l.Yields l.tokens.1 l.tokens.2 ∧
    Tiles src settings.keepComments 0 l.tokens.1 stop ∧
    stop ≤ src.bytes.size ∧
    l.tokens.1.length ≤ src.bytes.size := by
  intro l stop
  obtain ⟨hyields, m, hm, hstop, htiles⟩ :=
    tokens_tiles (reads_ofRules (.ofSource src) settings hrules) rfl
  have heq : stop = m := by
    have hoffset := congrArg Position.offset hstop
    rwa [Source.offset_placeAt hm] at hoffset
  rw [heq]
  have hle : 0 + l.tokens.1.length ≤ m := htiles.le
  have hm' : m ≤ src.bytes.size := hm
  exact ⟨hyields, htiles, hm, by omega⟩

/-- The default rules on a text with a comment, which lies in the gap behind the first token. -/
theorem tokens_tile_defaults :
    let src := Source.ofBytes (Text.Utf8.encode "x /* y */ = 1").toArray
    let l := ofRules (.ofSource src) (Rule.defaults {}) {}
    let tokens : List Token :=
      [⟨.identifier, ⟨1, 1, 0⟩, "x"⟩, ⟨.assign, ⟨1, 11, 10⟩, "="⟩, ⟨.integer, ⟨1, 13, 12⟩, "1"⟩]
    (∀ r ∈ Rule.defaults {}, r.Provided) ∧
    l.tokens.1 = tokens ∧
    l.Yields tokens l.tokens.2 ∧
    Tiles src false 0 tokens l.tokens.2.cursor.offset ∧
    l.tokens.2.cursor.offset ≤ src.bytes.size ∧
    tokens.length ≤ src.bytes.size := by
  intro src l tokens
  have htokens : l.tokens.1 = tokens := by decide +kernel
  have htile := tokens_tile src _ {} (Rule.provided_defaults {})
  exact ⟨Rule.provided_defaults {}, htokens, htokens ▸ htile⟩

end Lexer

end ByteLexer
