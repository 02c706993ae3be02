import ByteLexer.Proofs.NumberReadings
import ByteLexer.Proofs.Stream

/-!
# Where the stream stops

The default rules read something before every byte that a word, a number, a text, a character or an
operator can begin with, whatever comes after it, save for two kinds of quotes: a single quote that
is not closed behind one character, and a double quote that is never closed. So the stream goes on
to the end of the text unless it comes to one of these or to a byte that begins nothing at all.
-/

namespace ByteLexer

open Pattern
open ByteClass (digit)

/-- Whether a double quote is ahead that no backslash escapes; `escaped` tells whether the next byte
is escaped itself. -/
def closes : (escaped : Bool) → List UInt8 → Bool
  | _, [] => false
  | true, _ :: rest => closes false rest
  | false, b :: rest => b == 34 || closes (b == 92) rest

/-- The texts before which a default lexer has nothing to read. -/
inductive Stuck : List UInt8 → Prop where
  /-- Before a byte that is no blank, word byte or quote and begins no operator. -/
  | byte {b : UInt8} {rest : List UInt8} (hblank : b ∉ [32, 9, 13, 10])
      (hword : ByteClass.word.contains b = false) (hquote : b ≠ 34 ∧ b ≠ 39)
      (hop : ∀ entry ∈ TokenKind.operators, (Text.Utf8.encode entry.1).head? ≠ some b) :
      Stuck (b :: rest)
  /-- Before a single quote that is not closed after one byte or an escaped one. -/
  | character {rest : List UInt8} (hplain : ∀ b, b ≠ 92 → ¬ [b, 39] <+: rest)
      (hescaped : ∀ b, ¬ [92, b, 39] <+: rest) : Stuck (39 :: rest)
  /-- Before a double quote that is not closed. -/
  | text {rest : List UInt8} (h : closes false rest = false) : Stuck (34 :: rest)

variable {src : Source} {settings : Settings} {ahead rest : List UInt8} {b : UInt8} {p : Nat}
  {tokens : List Token} {l l' : Lexer}

lemma quote_prefix_iff (b : UInt8) (rest : List UInt8) : [34] <+: b :: rest ↔ b = 34 := by
  rw [List.cons_prefix_cons, and_iff_left List.nil_prefix, eq_comm]

lemma closedBy_isSome (ahead : List UInt8) :
    (Lexeme.closedBy [34] ahead).isSome = closes false ahead := by
  fun_induction Lexeme.closedBy [34] ahead with
  | case1 => rfl
  | case2 b h =>
    rw [quote_prefix_iff] at h
    subst h
    rfl
  | case3 b h =>
    rw [quote_prefix_iff] at h
    cases hb : b == 92 <;> simp [closes, h]
  | case4 b c rest h =>
    rw [quote_prefix_iff] at h
    subst h
    rfl
  | case5 c rest h ih =>
    rw [Option.isSome_map, ih]
    rfl
  | case6 b c rest h hb ih =>
    rw [quote_prefix_iff] at h
    rw [Option.isSome_map, ih, closes.eq_3 b, beq_eq_false_iff_ne.mpr h,
      beq_eq_false_iff_ne.mpr hb, Bool.false_or]

/-- A text is read before a double quote if and only if the quote is closed. -/
lemma text_isSome (rest : List UInt8) :
    (Lexeme.text.reads? (34 :: rest)).isSome = closes false rest := by
  rw [Lexeme.reads?_text, if_pos (c := [34] <+: 34 :: rest) ⟨rest, rfl⟩, Option.isSome_or,
    Option.isSome_map, List.drop_one, List.tail_cons, closedBy_isSome]
  split
  · next hthree =>
    -- The second of three quotes closes the first.
    obtain ⟨tail, htail⟩ := hthree
    have hrest : rest = 34 :: 34 :: tail := (List.cons.inj htail).2.symm
    rw [hrest]
    exact Bool.or_true _
  · rfl

lemma character_eq_none_iff : Lexeme.character.reads? (39 :: rest) = none ↔
    (∀ b, b ≠ 92 → ¬ [b, 39] <+: rest) ∧ ∀ b, ¬ [92, b, 39] <+: rest := by
  have hunit : ∀ u, 39 :: (u ++ [39]) <+: 39 :: rest ↔ u ++ [39] <+: rest := by
    intro u
    rw [List.cons_prefix_cons, and_iff_right rfl]
  rw [Option.eq_none_iff_forall_ne_some]
  constructor
  · intro h
    refine ⟨fun b hb hpre => h _ (Lexeme.character_eq_some_iff.mpr
      ⟨[b], .inl ⟨b, hb, rfl⟩, rfl, (hunit [b]).mpr hpre⟩), fun b hpre => ?_⟩
    exact h _ (Lexeme.character_eq_some_iff.mpr
      ⟨[92, b], .inr ⟨b, rfl⟩, rfl, (hunit [92, b]).mpr hpre⟩)
  · rintro ⟨hplain, hescaped⟩ w hw
    obtain ⟨u, ⟨b, hb, rfl⟩ | ⟨b, rfl⟩, rfl, hpre⟩ := Lexeme.character_eq_some_iff.mp hw
    · exact hplain b hb ((hunit [b]).mp hpre)
    · exact hescaped b ((hunit [92, b]).mp hpre)

lemma numberReading_isSome (h : ahead.head?.any (digit 10).contains = true) :
    (Rule.numberReading ahead).isSome := by
  rw [Rule.numberReading, Option.isSome_or, Option.isSome_map, Option.isSome_map,
    Lexeme.integer_isSome h, Bool.or_true]

lemma operatorStart_eq_true_iff (b : UInt8) : Rule.operatorStart.contains b = true ↔
    ∃ entry ∈ TokenKind.operators, (Text.Utf8.encode entry.1).head? = some b := by
  rw [Rule.operatorStart, ByteClass.contains_ofList, List.contains_iff_mem, Rule.spellings]
  simp

lemma word_eq_false_iff (b : UInt8) : ByteClass.word.contains b = false ↔
    identifierStart.contains b = false ∧ (digit 10).contains b = false := by
  rw [contains_word, Bool.or_eq_false_iff]

/-- A text is not stuck before a byte that begins a word, a number or an operator. -/
lemma Stuck.first (h : Stuck (b :: rest)) : identifierStart.contains b = false ∧
    (digit 10).contains b = false ∧ Rule.operatorStart.contains b = false := by
  cases h with
  | byte _ hword _ hop =>
    obtain ⟨hstart, hdigit⟩ := (word_eq_false_iff b).mp hword
    refine ⟨hstart, hdigit, ?_⟩
    rw [← Bool.not_eq_true, operatorStart_eq_true_iff]
    rintro ⟨entry, hentry, hhead⟩
    exact hop entry hentry hhead
  | character _ _ => decide
  | text _ => decide

/-- Where no blank comes next the default rules read something unless the text is at its end or
stuck. -/
lemma defaultReading_eq_none_iff (hblank : Lexeme.blanks ahead = []) :
    Rule.defaultReading settings ahead = none ↔ ahead = [] ∨ Stuck ahead := by
  cases ahead with
  | nil => exact iff_of_true (Rule.defaultReading_other fun _ => rfl) (.inl rfl)
  | cons b rest =>
    have hany : ∀ c : ByteClass, (b :: rest).head?.any c.contains = c.contains b := fun c => rfl
    rw [or_iff_right (List.cons_ne_nil b rest)]
    by_cases hword : identifierStart.contains b = true
    · rw [Rule.defaultReading_word ((hany _).trans hword)]
      exact iff_of_false (Option.some_ne_none _) fun h => by simp [h.first.1] at hword
    by_cases hdigit : (digit 10).contains b = true
    · rw [Rule.defaultReading_digit ((hany _).trans hdigit)]
      have hsome := numberReading_isSome ((hany (digit 10)).trans hdigit)
      exact iff_of_false (fun h => by simp [h] at hsome) fun h => by simp [h.first.2.1] at hdigit
    by_cases hop : Rule.operatorStart.contains b = true
    · rw [Rule.defaultReading_operator ((hany _).trans hop)]
      have hsome := Rule.operatorReading_isSome ((hany Rule.operatorStart).trans hop)
      exact iff_of_false (fun h => by simp [(Option.or_eq_none_iff.mp h).2] at hsome)
        fun h => by simp [h.first.2.2] at hop
    by_cases hquote : b = 34
    · subst hquote
      rw [Rule.defaultReading_quote ((hany _).trans (by decide)), Option.map_eq_none_iff,
        ← Option.isNone_iff_eq_none, ← Option.isSome_eq_false_iff, text_isSome]
      refine ⟨.text, fun h => ?_⟩
      cases h with
      | byte _ _ hquote _ => exact (hquote.1 rfl).elim
      | text h => exact h
    by_cases hsingle : b = 39
    · subst hsingle
      rw [Rule.defaultReading_singleQuote ((hany _).trans (by decide)), Option.map_eq_none_iff,
        character_eq_none_iff]
      refine ⟨fun h => .character h.1 h.2, fun h => ?_⟩
      cases h with
      | byte _ _ hquote _ => exact (hquote.2 rfl).elim
      | character hplain hescaped => exact ⟨hplain, hescaped⟩
    · rw [Bool.not_eq_true] at hword hdigit hop
      have hchar : ∀ x : Char, b ≠ x.toUInt8 → (ByteClass.char x).contains b = false := by
        intro x hx
        simpa [ByteClass.char] using hx
      have hnone : ∀ s : FirstByte, s.bytes.contains b = false := by
        intro s
        cases s with
        | letter => exact hword
        | digit => exact hdigit
        | quote => exact hchar '"' hquote
        | singleQuote => exact hchar '\'' hsingle
        | operator => exact hop
      refine iff_of_true (Rule.defaultReading_other hnone) (.byte ?_
        ((word_eq_false_iff b).mpr ⟨hword, hdigit⟩) ⟨hquote, hsingle⟩ fun entry hentry hhead => ?_)
      · exact Lexeme.blanks_eq_nil_iff.mp hblank b rfl
      · rw [← Bool.not_eq_true, operatorStart_eq_true_iff] at hop
        exact hop ⟨entry, hentry, hhead⟩

namespace Lexer

/-- A lexer comes to an offset of its text over some tokens, having skipped blanks and comments, and
it is stuck there. -/
def StuckAt (l : Lexer) (tokens : List Token) (p : Nat) : Prop :=
  ∃ l', l.Gives tokens l' ∧ l'.skipTrivia.cursor.offset = p ∧
    Stuck (l.cursor.source.bytes.toList.drop p)

/-- The stream ends where it is stuck. -/
lemma StuckAt.tokens_eq (hsize : src.bytes.size ≤ Pattern.unbounded)
    (h : (before src settings 0).StuckAt tokens p) : p < src.bytes.size ∧
      (before src settings 0).tokens = (tokens, before src settings p) := by
  obtain ⟨l', hgives, rfl, hstuck⟩ := h
  have hstuck : Stuck (src.bytes.toList.drop l'.skipTrivia.cursor.offset) := hstuck
  obtain ⟨k, hk, rfl⟩ := hgives.place (Nat.zero_le _)
  obtain ⟨first, hfirst, hahead, hskip, hcases⟩ := next_before_cases hsize settings hk
  rw [hskip, offset_before hfirst] at hstuck ⊢
  have hblank := blanks_of_eq_skips (length_drop_le hsize k) hahead
  have hnone : Rule.defaultReading settings (src.bytes.toList.drop first) = none :=
    (defaultReading_eq_none_iff hblank).mpr (.inr hstuck)
  obtain ⟨hnext, -⟩ | ⟨kind, w, -, -, -, hread⟩ := hcases
  · refine ⟨?_, ?_⟩
    · by_contra hge
      rw [List.drop_eq_nil_of_le (by simpa using Nat.le_of_not_lt hge)] at hstuck
      cases hstuck
    · have hyields := hgives.yields (.done hnext)
      rw [List.append_nil] at hyields
      exact hyields.tokens_eq
  · cases hnone.symm.trans hread

/-- The stream ends at the end of the text, or it is stuck. -/
lemma exists_end (hsize : src.bytes.size ≤ Pattern.unbounded) (settings : Settings) :
    ∃ tokens, ∃ p ≤ src.bytes.size,
      (before src settings 0).tokens = (tokens, before src settings p) ∧
      (p = src.bytes.size ∨ (before src settings 0).StuckAt tokens p) := by
  obtain ⟨tokens, stop, hyields⟩ := exists_yields src settings
  obtain ⟨last, hgives, hlast⟩ := hyields.gives
  obtain ⟨k, hk, rfl⟩ := hgives.place (Nat.zero_le _)
  obtain ⟨first, hfirst, hahead, hskip, ⟨hnext, hnone⟩ | ⟨kind, w, -, hnext, -, -⟩⟩ :=
    next_before_cases hsize settings hk
  · obtain ⟨-, rfl⟩ := Prod.mk.inj (hlast.symm.trans hnext)
    refine ⟨tokens, first, hfirst, hyields.tokens_eq, ?_⟩
    have hblank := blanks_of_eq_skips (length_drop_le hsize k) hahead
    rcases (defaultReading_eq_none_iff hblank).mp hnone with hend | hstuck
    · refine .inl (Nat.le_antisymm hfirst ?_)
      simpa using hend
    · refine .inr ⟨_, hgives, ?_, hstuck⟩
      rw [hskip, offset_before hfirst]
  · cases (Prod.mk.inj (hlast.symm.trans hnext)).1

/-- With the default rules the stream stops short of the end of the text at an offset if and only if
the lexer comes to that offset and is stuck there. Then the tokens before it are returned, or the
byte there with its position if unmatched input is an error; otherwise all of the text is read. -/
theorem tokenize_stops (src : Source) (settings : Settings) (hfits : FitsMemory src.bytes) :
    let l := ofCursor (.ofSource src) settings
    (∀ p, l.tokenize.2.cursor.offset = p ∧ p < src.bytes.size ↔ ∃ tokens, l.StuckAt tokens p) ∧
    (∀ tokens p, l.StuckAt tokens p → ∃ byte, src.bytes[p]? = some byte ∧
      l.tokenize.1 = match settings.unmatched with
        | .stop => .ok tokens
        | .error => .error ⟨src.name, src.placeAt p, byte⟩) ∧
    ((∀ tokens p, ¬ l.StuckAt tokens p) →
      (∃ tokens, l.tokenize.1 = .ok tokens) ∧ l.tokenize.2.cursor.offset = src.bytes.size) := by
  intro l
  have hstuck : ∀ tokens p, l.StuckAt tokens p → p < src.bytes.size ∧
      l.tokens = (tokens, before src settings p) :=
    fun tokens p h => StuckAt.tokens_eq hfits.le_unbounded h
  obtain ⟨tokens, q, hq, htokens, hend⟩ := exists_end hfits.le_unbounded settings
  have htokens : l.tokens = (tokens, before src settings q) := htokens
  have htokenize : l.tokenize = _ := tokenize_eq hq htokens
  have hoffset : l.tokenize.2.cursor.offset = q := by
    rw [htokenize]
    exact offset_before hq
  refine ⟨fun p => ⟨?_, ?_⟩, fun tokens' p h => ?_, fun hnone => ?_⟩
  · rintro ⟨rfl, hlt⟩
    rw [hoffset] at hlt ⊢
    exact ⟨tokens, hend.resolve_left hlt.ne⟩
  · rintro ⟨tokens', h⟩
    obtain ⟨hlt, heq⟩ := hstuck tokens' p h
    refine ⟨?_, hlt⟩
    have htokenize' : l.tokenize = _ := tokenize_eq hlt.le heq
    rw [htokenize']
    exact offset_before hlt.le
  · obtain ⟨hlt, heq⟩ := hstuck tokens' p h
    have htokenize' : l.tokenize = _ := tokenize_eq hlt.le heq
    refine ⟨src.bytes[p], Array.getElem?_eq_getElem hlt, ?_⟩
    rw [htokenize', Array.getElem?_eq_getElem hlt]
    cases settings.unmatched <;> rfl
  · have hsize : q = src.bytes.size := hend.resolve_right (hnone tokens q)
    refine ⟨⟨tokens, ?_⟩, hoffset.trans hsize⟩
    rw [htokenize, hsize, Array.getElem?_eq_none le_rfl]

/-- A text that ends with a quote that is never closed, where such input is an error. -/
theorem tokenize_stops_unclosed :
    let src := Source.ofBytes (Text.Utf8.encode "x = 'y").toArray
    let l := ofCursor (.ofSource src) .strict
    FitsMemory src.bytes ∧ (∃ tokens, l.StuckAt tokens 4) ∧
      ∃ byte, src.bytes[4]? = some byte ∧
        l.tokenize.1 = .error ⟨src.name, src.placeAt 4, byte⟩ := by
  intro src l
  have hfits : FitsMemory src.bytes := by decide
  obtain ⟨hstops, hstuck, -⟩ := tokenize_stops src .strict hfits
  have hoffset : l.tokenize.2.cursor.offset = 4 ∧ 4 < src.bytes.size := by decide +kernel
  obtain ⟨tokens, h⟩ := (hstops 4).mp hoffset
  exact ⟨hfits, ⟨tokens, h⟩, hstuck tokens 4 h⟩

end Lexer

end ByteLexer
