import ByteLexer.Proofs.NumberReadings
import ByteLexer.Proofs.Stream

/-!
# First match and longest match

The default rules are tried in a fixed order and the first match is taken. Wherever no sign comes
next, that match is also as long as any: keywords, booleans and identifiers all read the whole word,
a real number is not shorter than a whole one and a comment not shorter than an operator, and no
other two of the rules match at the same place. A sign is always read as an operator, since
operators come before numbers.
-/

namespace ByteLexer

open Pattern
open ByteClass (digit sign)

variable {settings : Settings} {ahead w : List UInt8} {kind : TokenKind} {r : Rule}

namespace Rule

/-- An operator where a comment begins is not longer than the delimiter of the comment. -/
lemma operator_le_comment {c : List UInt8} (hop : operatorReading ahead = some (kind, w))
    (hcomment : Lexeme.comment.reads? ahead = some c) : w.length ≤ c.length := by
  have hslash : ∀ entry ∈ spellings TokenKind.operators, entry.1.head? = some 47 →
    entry.1.length ≤ 2 := by decide
  have hread : operators.reads? ahead = some (kind, w) := (reads?_operators ahead).trans hop
  obtain ⟨tail, rfl⟩ := (provided_defaults {} operators (by simp [defaults])).follows.1 _ _ _ hread
  have hne := (startsIn_operators _ _ _ hread).2
  have hhead : (w ++ tail).head? = w.head? := List.head?_append_of_ne_nil w hne
  have hdelimiter : 2 ≤ c.length ∧ (w ++ tail).head? = some 47 := by
    obtain ⟨rest, hahead, rfl⟩ | ⟨rest, v, hahead, -, rfl⟩ := Lexeme.comment_cases hcomment
    · rw [hahead]
      exact ⟨by simp, rfl⟩
    · rw [hahead]
      exact ⟨by simp, rfl⟩
  have hle := hslash _ (mem_of_operatorReading hop) (hhead ▸ hdelimiter.2)
  exact hle.trans hdelimiter.1

/-- Before a digit the number that is read is as long as any. -/
lemma length_le_numberReading (h : r.reads? ahead = some (kind, w)) (hr : r = real ∨ r = integer) :
    ∃ kind' w', numberReading ahead = some (kind', w') ∧ w.length ≤ w'.length := by
  cases hreal : Lexeme.real.reads? ahead with
  | some v =>
    refine ⟨.real, v, by rw [numberReading, hreal]; rfl, ?_⟩
    rcases hr with rfl | rfl
    · rw [real, reads?_ofPattern, hreal] at h
      cases h
      exact le_rfl
    · obtain ⟨u, hu, hpre⟩ := Lexeme.real_extends_integer hreal
      rw [integer, reads?_ofPattern, hu] at h
      cases h
      exact hpre.length_le
  | none =>
    rcases hr with rfl | rfl
    · rw [real, reads?_ofPattern, hreal] at h
      cases h
    · refine ⟨kind, w, ?_, le_rfl⟩
      rw [numberReading, hreal]
      rwa [integer, reads?_ofPattern] at h

/-- Where no sign comes next, no default rule reads more than the first that reads anything. -/
lemma length_le_defaultReading (hsign : ahead.head?.any sign.contains = false)
    (hr : r ∈ defaults settings) (h : r.reads? ahead = some (kind, w)) :
    ∃ kind' w', defaultReading settings ahead = some (kind', w') ∧ w.length ≤ w'.length := by
  have hword : ahead.head?.any identifierStart.contains = true → w = wordRun ahead →
      ∃ kind' w', defaultReading settings ahead = some (kind', w') ∧ w.length ≤ w'.length :=
    fun hstart heq => ⟨_, _, defaultReading_word hstart, heq ▸ le_rfl⟩
  have hnumber : ahead.head?.any (digit 10 ∪ sign).contains = true → r = real ∨ r = integer →
      ∃ kind' w', defaultReading settings ahead = some (kind', w') ∧ w.length ≤ w'.length := by
    intro hstart hr
    have hdigit : ahead.head?.any (digit 10).contains = true := by
      obtain ⟨b, hb, hin⟩ := (Option.any_eq_true _ _).mp hstart
      rw [hb, Option.any_some] at hsign ⊢
      rwa [ByteClass.contains_union, hsign, Bool.or_false] at hin
    rw [defaultReading_digit hdigit]
    exact length_le_numberReading h hr
  simp only [defaults, List.mem_append, List.mem_cons, List.not_mem_nil, or_false] at hr
  rcases hr with (rfl | rfl | rfl | rfl | rfl | rfl | rfl | rfl) | hr
  · refine hword (startsIn_keywords _ _ _ h).1 ?_
    rw [reads?_keywords] at h
    obtain ⟨tag, -, heq⟩ := Option.map_eq_some_iff.mp h
    exact (Prod.mk.inj heq).2.symm
  · have hstart := (startsIn_operators _ _ _ h).1
    rw [reads?_operators] at h
    rw [defaultReading_operator hstart]
    cases hcomment : commentReading settings.keepComments ahead with
    | none => exact ⟨kind, w, h, le_rfl⟩
    | some found =>
      rw [commentReading] at hcomment
      split at hcomment
      · obtain ⟨c, hc, rfl⟩ := Option.map_eq_some_iff.mp hcomment
        exact ⟨.comment, c, rfl, operator_le_comment h hc⟩
      · cases hcomment
  · exact hnumber (startsIn_ofPattern Lexeme.startsIn_real _ _ _ _ _ _ h).1 (.inl rfl)
  · refine hword (startsIn_booleans _ _ _ h).1 ?_
    rw [reads?_booleans] at h
    obtain ⟨tag, -, heq⟩ := Option.map_eq_some_iff.mp h
    exact (Prod.mk.inj heq).2.symm
  · exact hnumber (startsIn_ofPattern Lexeme.startsIn_integer _ _ _ _ _ _ h).1 (.inr rfl)
  · refine ⟨kind, w, ?_, le_rfl⟩
    rw [defaultReading_quote (startsIn_ofPattern Lexeme.startsIn_text _ _ _ _ _ _ h).1]
    rwa [text, reads?_ofPattern] at h
  · refine ⟨kind, w, ?_, le_rfl⟩
    rw [defaultReading_singleQuote (startsIn_ofPattern Lexeme.startsIn_character _ _ _ _ _ _ h).1]
    rwa [character, reads?_ofPattern] at h
  · have hstart := (startsIn_identifier _ _ _ h).1
    refine hword hstart ?_
    rw [reads?_identifierRule, if_pos hstart] at h
    exact (Prod.mk.inj (Option.some.inj h)).2.symm
  · split at hr
    · next hkeep =>
      rw [List.mem_singleton.mp hr, comment, reads?_ofPattern] at h
      refine ⟨kind, w, ?_, le_rfl⟩
      obtain ⟨v, hv, heq⟩ := Option.map_eq_some_iff.mp h
      have hstart := any_of_subset slash_subset_operators (Lexeme.startsIn_comment ahead v hv).1
      rw [defaultReading_operator hstart, commentReading, if_pos hkeep, h, Option.some_or]
    · cases hr

/-- A sign is read as an operator. -/
lemma defaultReading_sign (settings : Settings) (h : ahead.head?.any sign.contains = true) :
    ∃ kind w, defaultReading settings ahead = some (kind, w) ∧
      kind ∈ TokenKind.operators.map (·.2) := by
  have hstart := any_of_subset signs_subset_operators h
  have hslash : ahead.head?.any (ByteClass.char '/').contains = false := by
    obtain ⟨b, hb, hin⟩ := (Option.any_eq_true _ _).mp h
    rw [hb, Option.any_some]
    rcases Lexeme.mem_sign.mp hin with rfl | rfl <;> decide
  obtain ⟨⟨kind, w⟩, hfound⟩ := Option.isSome_iff_exists.mp (operatorReading_isSome hstart)
  refine ⟨kind, w, ?_, ?_⟩
  · rw [defaultReading_operator hstart, commentReading_eq_none hslash, hfound, Option.none_or]
  · obtain ⟨entry, hentry, heq⟩ := List.mem_map.mp (mem_of_operatorReading hfound)
    exact List.mem_map.mpr ⟨entry, hentry, (Prod.mk.inj heq).2⟩

/-- Numbers are read only before a digit. -/
lemma defaultReading_number (h : defaultReading settings ahead = some (kind, w))
    (hkind : kind = .integer ∨ kind = .real) : ahead.head?.any (digit 10).contains = true := by
  obtain ⟨r, hr, hread⟩ := exists_of_defaultReading h
  have hlisted : ∀ kinds : List TokenKind, kind ∈ kinds →
      TokenKind.integer ∉ kinds ∧ TokenKind.real ∉ kinds → False := by
    rintro kinds hmem ⟨hinteger, hreal⟩
    rcases hkind with rfl | rfl
    · exact hinteger hmem
    · exact hreal hmem
  have hnumber : ahead.head?.any (digit 10 ∪ sign).contains = true →
      ahead.head?.any (digit 10).contains = true := by
    intro hstart
    obtain ⟨b, hb, hin⟩ := (Option.any_eq_true _ _).mp hstart
    rw [ByteClass.contains_union, Bool.or_eq_true] at hin
    rcases hin with hin | hin
    · rw [hb, Option.any_some, hin]
    · have hsign : ahead.head?.any sign.contains = true := by rw [hb, Option.any_some, hin]
      obtain ⟨kind', w', hop, hmem⟩ := defaultReading_sign settings hsign
      obtain ⟨rfl, -⟩ := Prod.mk.inj (Option.some.inj (h.symm.trans hop))
      exact (hlisted _ hmem (by decide)).elim
  simp only [defaults, List.mem_append, List.mem_cons, List.not_mem_nil, or_false] at hr
  rcases hr with (rfl | rfl | rfl | rfl | rfl | rfl | rfl | rfl) | hr
  · exact (hlisted _ (kind_of_ofTable hread) (by decide)).elim
  · exact (hlisted _ (kind_of_ofTable hread) (by decide)).elim
  · exact hnumber (startsIn_ofPattern Lexeme.startsIn_real _ _ _ _ _ _ hread).1
  · exact (hlisted _ (kind_of_ofTable hread) (by decide)).elim
  · exact hnumber (startsIn_ofPattern Lexeme.startsIn_integer _ _ _ _ _ _ hread).1
  · rw [kind_of_ofPattern hread] at hkind
    exact absurd hkind (by decide)
  · rw [kind_of_ofPattern hread] at hkind
    exact absurd hkind (by decide)
  · rw [reads?_identifierRule] at hread
    split at hread
    · rw [← (Prod.mk.inj (Option.some.inj hread)).1] at hkind
      exact absurd hkind (by decide)
    · cases hread
  · split at hr
    · rw [List.mem_singleton.mp hr] at hread
      rw [kind_of_ofPattern hread] at hkind
      exact absurd hkind (by decide)
    · cases hr

/-- What a rule matches at a place of a text it reads off the front of the text ahead. -/
lemma reads_of_tryMatch {src : Source} {n : Nat} {token : Token} {stop : Position}
    (hn : n ≤ src.bytes.size) (hr : r ∈ defaults settings)
    (h : r.tryMatch src (src.placeAt n) = (some token, stop)) :
    ∃ kind w, r.reads? (src.bytes.toList.drop n) = some (kind, w) ∧
      stop = (src.placeAt n).advanceOver w := by
  rw [(provided_defaults settings r hr).follows.2 src _ ((Source.offset_placeAt hn).le.trans hn),
    Source.remaining_placeAt hn] at h
  cases hread : r.reads? (src.bytes.toList.drop n) with
  | none =>
    rw [hread] at h
    cases (Prod.mk.inj h).1
  | some found =>
    obtain ⟨kind, w⟩ := found
    rw [hread] at h
    exact ⟨kind, w, rfl, (Prod.mk.inj h).2.symm⟩

/-- A chosen token comes from one of the rules. -/
lemma exists_tryMatch {src : Source} {n : Nat} (hn : n ≤ src.bytes.size)
    (h : defaultReading settings (src.bytes.toList.drop n) = some (kind, w)) :
    ∃ r ∈ defaults settings, r.tryMatch src (src.placeAt n) =
      (some (.ofBytes kind (src.placeAt n) w), (src.placeAt n).advanceOver w) := by
  obtain ⟨r, hr, hread⟩ := exists_of_defaultReading h
  refine ⟨r, hr, ?_⟩
  rw [(provided_defaults settings r hr).follows.2 src _ ((Source.offset_placeAt hn).le.trans hn),
    Source.remaining_placeAt hn, hread]
  rfl

end Rule

namespace Lexer

variable {src : Source} {tokens : List Token} {l : Lexer}

/-- A lexeme that begins with a digit byte begins with a digit. -/
lemma decodeLossy_digit (h : w.head?.any (digit 10).contains = true) :
    ∃ c rest, (Text.Utf8.decodeLossy w).toList = c :: rest ∧ c.isDigit := by
  have hall : ∀ b ∈ allBytes, (digit 10).contains b = true →
    Text.Utf8.beginChar b = ([Char.ofUInt8 b], .ready, 0) ∧ (Char.ofUInt8 b).isDigit :=
    List.all_iff_forall_prop.mp (by decide +kernel)
  obtain ⟨b, hb, hin⟩ := (Option.any_eq_true _ _).mp h
  obtain ⟨v, rfl⟩ := List.head?_eq_some_iff.mp hb
  obtain ⟨hbegin, hdigit⟩ := hall b (ByteClass.mem_allBytes b) hin
  refine ⟨Char.ofUInt8 b, Text.Utf8.decodeFrom .ready 0 v, ?_, hdigit⟩
  rw [Text.Utf8.decodeLossy, String.toList_ofList, Text.Utf8.decodeFrom, if_pos rfl, hbegin]
  rfl

/-- Wherever a lexer with the default rules comes by and has skipped blanks and comments, the token
it reads is as long as any that one of the rules would read there, unless a sign comes next. A sign
is read as an operator, so the numbers of the stream begin with digits. -/
theorem readToken_longest (src : Source) (settings : Settings) {tokens : List Token} {l : Lexer}
    (h : (ofCursor (.ofSource src) settings).Gives tokens l) :
    let here := l.skipTrivia
    (here.cursor.peek ≠ some 43 → here.cursor.peek ≠ some 45 →
      ∀ r ∈ Rule.defaults settings, ∀ token stop,
        r.tryMatch src here.cursor.position = (some token, stop) →
        ∃ chosen ∈ Rule.defaults settings, ∃ token' stop',
          chosen.tryMatch src here.cursor.position = (some token', stop') ∧
          here.readToken = (some token', here.moveTo stop') ∧ stop.offset ≤ stop'.offset) ∧
    (here.cursor.peek = some 43 ∨ here.cursor.peek = some 45 →
      ∃ token, here.readToken.1 = some token ∧ token.kind ∈ TokenKind.operators.map (·.2)) ∧
    ∀ token ∈ tokens, token.kind = .integer ∨ token.kind = .real →
      ∃ c rest, token.lexeme.toList = c :: rest ∧ c.isDigit := by
  dsimp only
  have hgives : (before src settings 0).Gives tokens l := h
  obtain ⟨k, hk, rfl⟩ := hgives.place (Nat.zero_le _)
  obtain ⟨n, hn, hhere⟩ := skipTrivia_place settings hk
  have hnumbers := hgives.forall_tokens (Nat.zero_le _)
    (P := fun token => token.kind = .integer ∨ token.kind = .real →
      ∃ c rest, token.lexeme.toList = c :: rest ∧ c.isDigit)
    fun m kind w hfound hkind => decodeLossy_digit
      (Rule.head?_of_defaultReading hfound ▸ Rule.defaultReading_number hfound hkind)
  rw [hhere]
  have hpeek := peek_before settings hn
  have hread := readToken_before settings hn
  refine ⟨fun hplus hminus r hr token stop htry => ?_, fun hnext => ?_, hnumbers⟩
  · have hsign : (src.bytes.toList.drop n).head?.any sign.contains = false := by
      rw [← hpeek, ← Bool.not_eq_true, Option.any_eq_true]
      rintro ⟨b, hb, hin⟩
      rcases Lexeme.mem_sign.mp hin with rfl | rfl
      · exact hplus hb
      · exact hminus hb
    obtain ⟨kind, w, hreads, rfl⟩ := Rule.reads_of_tryMatch hn hr htry
    obtain ⟨kind', w', hfound, hle⟩ := Rule.length_le_defaultReading hsign hr hreads
    obtain ⟨chosen, hchosen, htry'⟩ := Rule.exists_tryMatch hn hfound
    refine ⟨chosen, hchosen, _, _, htry', ?_, ?_⟩
    · rw [hread, hfound]
      dsimp only [before]
      rw [Source.placeAt_add (Rule.prefix_of_defaultReading hfound)]
      rfl
    · rw [Position.offset_advanceOver, Position.offset_advanceOver]
      omega
  · have hsign : (src.bytes.toList.drop n).head?.any sign.contains = true := by
      rw [← hpeek]
      rcases hnext with hb | hb
      · rw [hb]
        decide
      · rw [hb]
        decide
    obtain ⟨kind, w, hfound, hkind⟩ := Rule.defaultReading_sign settings hsign
    exact ⟨_, by rw [hread, hfound], hkind⟩

/-- The place after the first word of a text, before a sign and a number. -/
theorem readToken_longest_sign :
    let src := Source.ofBytes (Text.Utf8.encode "x -1.5").toArray
    let l := ofCursor (.ofSource src) {}
    let here := l.next.2.skipTrivia
    l.Gives [⟨.identifier, ⟨1, 1, 0⟩, "x"⟩] l.next.2 ∧ here.cursor.peek = some 45 ∧
      ∃ token, here.readToken.1 = some token ∧ token.kind ∈ TokenKind.operators.map (·.2) := by
  intro src l here
  have hnext : l.next.1 = some ⟨.identifier, ⟨1, 1, 0⟩, "x"⟩ := by decide +kernel
  have hgives : l.Gives [⟨.identifier, ⟨1, 1, 0⟩, "x"⟩] l.next.2 :=
    .cons (Prod.ext hnext rfl) .nil
  have hpeek : here.cursor.peek = some 45 := by decide +kernel
  exact ⟨hgives, hpeek, (readToken_longest src {} hgives).2.1 (.inr hpeek)⟩

end Lexer

end ByteLexer
