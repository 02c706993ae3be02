import ByteLexer.Proofs.Stream
import ByteLexer.Proofs.TableLookups
import ByteLexer.Proofs.Utf8

/-!
# Whole words

A table that takes only whole words looks up the run of word bytes at its place: of all the words
that lie ahead only the longest can be the whole run, so no shorter one has to be tried. Of the
default rules three read words, and their priorities give a keyword its own kind before the rule of
identifiers can take the same run.
-/

namespace ByteLexer

open Text.Utf8 (encode decodeLossy encode_decodeLossy isValid_of_ascii)

/-- A letter or an underscore. -/
def BeginsWord (b : UInt8) : Prop := 65 ≤ b ∧ b ≤ 90 ∨ 97 ≤ b ∧ b ≤ 122 ∨ b = 95

/-- A letter, an underscore or a digit. -/
def ContinuesWord (b : UInt8) : Prop := BeginsWord b ∨ 48 ≤ b ∧ b ≤ 57

instance : DecidablePred BeginsWord := fun _ => inferInstanceAs (Decidable (_ ∨ _))

instance : DecidablePred ContinuesWord := fun _ => inferInstanceAs (Decidable (_ ∨ _))

/-- The word at a place, which is empty before any other byte. -/
def wordAt (src : Source) (pos : Position) : List UInt8 :=
  (src.remaining pos).takeWhile fun b => ContinuesWord b

/-- The keywords have the kinds they are listed with, `true` and `false` are booleans, and all other
words are identifiers. -/
structure HasWordKind (w : List UInt8) (kind : TokenKind) : Prop where
  keyword : ∀ listed, (w, listed) ∈ Rule.spellings TokenKind.keywords → kind = listed
  boolean : w = encode "true" ∨ w = encode "false" → kind = .boolean
  identifier : w ∉ (Rule.spellings TokenKind.keywords).map Prod.fst → w ≠ encode "true" →
    w ≠ encode "false" → kind = .identifier

variable {src : Source} {pos : Position} {words : List (List UInt8 × TokenKind)} {w : List UInt8}

lemma contains_identifierStart (b : UInt8) :
    identifierStart.contains b = decide (BeginsWord b) := by
  have hall : ∀ b ∈ allBytes, identifierStart.contains b = decide (BeginsWord b) := by
    decide +kernel
  exact hall b (ByteClass.mem_allBytes b)

lemma contains_word_eq (b : UInt8) : ByteClass.word.contains b = decide (ContinuesWord b) := by
  have hall : ∀ b ∈ allBytes, ByteClass.word.contains b = decide (ContinuesWord b) := by
    decide +kernel
  exact hall b (ByteClass.mem_allBytes b)

lemma wordAt_eq (src : Source) (pos : Position) : wordAt src pos = wordRun (src.remaining pos) := by
  unfold wordAt wordRun
  congr 1
  funext b
  exact (contains_word_eq b).symm

lemma wordAt_ne_nil {b : UInt8} (hb : src.peek pos = some b) (hbegins : BeginsWord b) :
    wordAt src pos ≠ [] := by
  rw [Source.peek_eq_head?] at hb
  obtain ⟨rest, hrest⟩ := List.head?_eq_some_iff.mp hb
  unfold wordAt
  have hfirst : decide (ContinuesWord b) = true := decide_eq_true (.inl hbegins)
  simp [hrest, hfirst]

/-- Word bytes are a text, which decoding keeps. -/
lemma encode_decodeLossy_wordAt (src : Source) (pos : Position) :
    encode (decodeLossy (wordAt src pos)) = wordAt src pos := by
  apply encode_decodeLossy
  apply isValid_of_ascii
  intro b hb
  rw [wordAt_eq] at hb
  exact word_ascii (contains_of_mem_wordRun hb)

namespace Rule

/-- At any place a table of whole words reads the word there if it is listed. -/
lemma tryMatch_wholeWords (hwords : ∀ entry ∈ words, ∀ b ∈ entry.1, ContinuesWord b)
    (priority : Int) (hle : pos.offset ≤ src.bytes.size) :
    (ofTable words true priority).tryMatch src pos =
      tokenAt pos (((KeywordTable.ofList words).get? (wordAt src pos)).map
        (·, wordAt src pos)) := by
  have hlisted : ∀ entry ∈ words, entry.1.all ByteClass.word.contains = true := by
    intro entry hentry
    apply List.all_eq_true.mpr
    intro b hb
    rw [contains_word_eq]
    exact decide_eq_true (hwords entry hentry b hb)
  have htry := (Provided.ofTable words true priority).follows.2 src pos hle
  rw [htry, reads?_wholeWords hlisted, wordAt_eq]

lemma hasWordKind_wordKind (w : List UInt8) : HasWordKind w (wordKind w) where
  keyword listed hmem := by
    have hkinds : ∀ entry ∈ spellings TokenKind.keywords, wordKind entry.1 = entry.2 := by
      decide +kernel
    exact hkinds (w, listed) hmem
  boolean := by
    rintro (rfl | rfl)
    · decide
    · decide
  identifier hkeyword htrue hfalse := by
    have hnone : keywordTable.get? w = none := by
      rw [← Option.not_isSome_iff_eq_none]
      exact fun h => hkeyword (KeywordTable.isSome_get?_ofList.mp h).2
    have hnone' : booleanTable.get? w = none := by
      rw [← Option.not_isSome_iff_eq_none]
      intro h
      have hlisted := (KeywordTable.isSome_get?_ofList.mp h).2
      have hboth : (spellings TokenKind.booleans).map Prod.fst = [encode "true", encode "false"] :=
        rfl
      rw [hboth, List.mem_pair] at hlisted
      exact hlisted.elim htrue hfalse
    rw [wordKind, hnone, hnone']
    rfl

/-- Where a word begins, the first rule to match reads all of it. -/
lemma firstMatch_word (settings : Settings) (hle : pos.offset ≤ src.bytes.size) {b : UInt8}
    (hb : src.peek pos = some b) (hbegins : BeginsWord b) :
    firstMatch src pos (byPriority (defaults settings)) =
      (some (.ofBytes (wordKind (wordAt src pos)) pos (wordAt src pos)),
        pos.advanceOver (wordAt src pos)) := by
  have hstart : (src.remaining pos).head?.any identifierStart.contains = true := by
    rw [← Source.peek_eq_head?, hb, Option.any_some, contains_identifierStart]
    exact decide_eq_true hbegins
  have hword : defaultReading settings (src.remaining pos) = _ := defaultReading_word hstart
  rw [firstMatch_eq (Lexer.follows_byPriority settings) hle, ← defaultReading, hword, ← wordAt_eq]
  rfl

end Rule

namespace Lexer

variable {l l' : Lexer} {token : Token} {found : Option Token} {stop : Position}

lemma nextToken_of_firstMatch
    (h : Rule.firstMatch l.cursor.source l.skipTrivia.cursor.position l.rules = (found, stop)) :
    l.nextToken = (found, l.moveTo stop) := by
  have hread : l.nextToken =
      let answer := Rule.firstMatch l.cursor.source l.skipTrivia.cursor.position l.rules
      (answer.1, l.moveTo answer.2) := rfl
  rw [hread, h]

/-- A token that is not empty does not end the stream. -/
lemma next_of_nextToken (h : l.nextToken = (some token, l'))
    (hmoved : l'.cursor.offset ≠ l.skipTrivia.cursor.offset) : l.next = l.nextToken := by
  have hread : l.skipTrivia.readToken = (some token, l') := h
  rw [h, next, hread]
  dsimp only
  rw [if_neg hmoved]

end Lexer

/-- Anywhere in a text a table of whole words matches just where the word there is one of its own
and not empty, and its token is that word with its last kind. Under the default rules the next token
before a letter or an underscore is the word there: a keyword, a boolean or else an identifier. -/
theorem wholeWords_classified (src : Source) (pos : Position)
    (hle : pos.offset ≤ src.bytes.size) :
    (∀ words priority, (∀ entry ∈ words, ∀ b ∈ entry.1, ContinuesWord b) →
      let found := (Rule.ofTable words true priority).tryMatch src pos
      (found.1.isSome = true ↔ wordAt src pos ≠ [] ∧ wordAt src pos ∈ words.map Prod.fst) ∧
      (∀ token, found.1 = some token →
        KeywordTable.IsLastTag words (wordAt src pos) token.kind ∧ token.position = pos ∧
        encode token.lexeme = wordAt src pos ∧ found.2 = pos.advanceOver (wordAt src pos)) ∧
      (found.1 = none → found.2 = pos)) ∧
    ∀ settings,
      let l := Lexer.ofCursor ⟨src, pos⟩ settings
      let start := l.skipTrivia.cursor.position
      ∀ b, src.peek start = some b → BeginsWord b →
        ∃ token, l.nextToken = (some token, l.moveTo (start.advanceOver (wordAt src start))) ∧
          l.next = l.nextToken ∧ token.position = start ∧
          encode token.lexeme = wordAt src start ∧ HasWordKind (wordAt src start) token.kind := by
  constructor
  · intro words priority hwords found
    have hfound : found = Rule.tokenAt pos
        (((KeywordTable.ofList words).get? (wordAt src pos)).map (·, wordAt src pos)) :=
      Rule.tryMatch_wholeWords hwords priority hle
    rw [← KeywordTable.isSome_get?_ofList, hfound]
    cases hget : (KeywordTable.ofList words).get? (wordAt src pos) with
    | none => simp [Rule.tokenAt]
    | some kind =>
      simp only [Option.map_some, Rule.tokenAt, Option.isSome_some, true_and, reduceCtorEq,
        false_implies, and_true]
      intro token htoken
      cases htoken
      have htag := KeywordTable.get?_ofList_eq_some_iff.mp hget
      exact ⟨htag, rfl, encode_decodeLossy_wordAt src pos⟩
  · intro settings l start b hb hbegins
    have hin : start.offset ≤ src.bytes.size := Lexer.offset_skipTrivia_le (l := l) hle
    let token : Token := .ofBytes (Rule.wordKind (wordAt src start)) start (wordAt src start)
    have hread : l.nextToken = (some token, l.moveTo (start.advanceOver (wordAt src start))) :=
      Lexer.nextToken_of_firstMatch (Rule.firstMatch_word settings hin hb hbegins)
    have hmoved : (start.advanceOver (wordAt src start)).offset ≠ start.offset := by
      have hpos := List.length_pos_iff.mpr (wordAt_ne_nil hb hbegins)
      rw [Position.offset_advanceOver]
      omega
    have hnext : l.next = l.nextToken := Lexer.next_of_nextToken hread hmoved
    have hlexeme : encode token.lexeme = wordAt src start := encode_decodeLossy_wordAt src start
    exact ⟨token, hread, hnext, rfl, hlexeme, Rule.hasWordKind_wordKind _⟩

/-- Before `in` the table takes its last kind; of `int_` it lists only beginnings. Behind a comment
`if_` is an identifier, and the `if` after it a keyword. -/
theorem wholeWords_classified_beginnings :
    let words : List (List UInt8 × TokenKind) :=
      [(encode "int", .integer), (encode "in", .add), (encode "in", .div)]
    let rule := Rule.ofTable words true 80
    let src := Source.ofBytes (encode "in int_/*if*/ if_ if").toArray
    let l := Lexer.ofCursor ⟨src, ⟨1, 8, 7⟩⟩ {}
    let l' := Lexer.ofCursor ⟨src, ⟨1, 18, 17⟩⟩ {}
    ((∀ entry ∈ words, ∀ b ∈ entry.1, ContinuesWord b) ∧ BeginsWord 105 ∧
      src.peek l.skipTrivia.cursor.position = some 105 ∧
      src.peek l'.skipTrivia.cursor.position = some 105) ∧
    (∃ token, (rule.tryMatch src .start).1 = some token ∧ token.kind = .div) ∧
    rule.tryMatch src ⟨1, 4, 3⟩ = (none, ⟨1, 4, 3⟩) ∧
    (∃ token, l.next.1 = some token ∧ encode token.lexeme = encode "if_" ∧
      token.kind = .identifier) ∧
    ∃ token, l'.next.1 = some token ∧ encode token.lexeme = encode "if" ∧ token.kind = .keyIf := by
  intro words rule src l l'
  have hwords : ∀ entry ∈ words, ∀ b ∈ entry.1, ContinuesWord b := by decide +kernel
  have hbegins : BeginsWord 105 := by decide
  have hplace : l.skipTrivia.cursor.position = ⟨1, 15, 14⟩ := by decide +kernel
  have hplace' : l'.skipTrivia.cursor.position = ⟨1, 19, 18⟩ := by decide +kernel
  have hpeek : src.peek l.skipTrivia.cursor.position = some 105 := by
    rw [hplace]
    decide
  have hpeek' : src.peek l'.skipTrivia.cursor.position = some 105 := by
    rw [hplace']
    decide
  refine ⟨⟨hwords, hbegins, hpeek, hpeek'⟩, ?_, ?_, ?_, ?_⟩
  · obtain ⟨hiff, htoken, -⟩ := (wholeWords_classified src .start (by decide)).1 words 80 hwords
    obtain ⟨token, hfound⟩ := Option.isSome_iff_exists.mp (hiff.mpr (by decide))
    have hlast := KeywordTable.get?_ofList_eq_some_iff.mpr (htoken token hfound).1
    have hdiv : (KeywordTable.ofList words).get? (wordAt src .start) = some .div := by decide
    exact ⟨token, hfound, Option.some.inj (hlast.symm.trans hdiv)⟩
  · obtain ⟨hiff, -, hback⟩ :=
      (wholeWords_classified src ⟨1, 4, 3⟩ (by decide)).1 words 80 hwords
    have hnone : (rule.tryMatch src ⟨1, 4, 3⟩).1 = none := by
      rw [← Option.not_isSome_iff_eq_none, hiff]
      decide
    exact Prod.ext hnone (hback hnone)
  · obtain ⟨token, hread, hnext, -, hlexeme, hkind⟩ :=
      (wholeWords_classified src ⟨1, 8, 7⟩ (by decide)).2 {} 105 hpeek hbegins
    have hword : wordAt src l.skipTrivia.cursor.position = encode "if_" := by
      rw [hplace]
      decide
    have hkeyword : encode "if_" ∉ (Rule.spellings TokenKind.keywords).map Prod.fst := by
      decide +kernel
    rw [hword] at hlexeme hkind
    refine ⟨token, ?_, hlexeme, hkind.identifier hkeyword (by decide) (by decide)⟩
    rw [hnext, hread]
  · obtain ⟨token, hread, hnext, -, hlexeme, hkind⟩ :=
      (wholeWords_classified src ⟨1, 18, 17⟩ (by decide)).2 {} 105 hpeek' hbegins
    have hword : wordAt src l'.skipTrivia.cursor.position = encode "if" := by
      rw [hplace']
      decide
    have hkeyword : (encode "if", .keyIf) ∈ Rule.spellings TokenKind.keywords := by decide +kernel
    rw [hword] at hlexeme hkind
    refine ⟨token, ?_, hlexeme, hkind.keyword .keyIf hkeyword⟩
    rw [hnext, hread]

end ByteLexer
