import ByteLexer.Proofs.FirstBytes

/-!
# What the default rules read

The first byte decides which of the default rules come into question: a letter or an underscore
begins a word, a digit a number, and so on. What is left of the priorities is the choice between a
real number and a whole one, and between a comment and an operator.
-/

namespace ByteLexer

open Pattern
open ByteClass (digit sign)

namespace Rule

def keywordTable : KeywordTable TokenKind := .ofList (spellings TokenKind.keywords)

def booleanTable : KeywordTable TokenKind := .ofList (spellings TokenKind.booleans)

def operatorTable : KeywordTable TokenKind := .ofList (spellings TokenKind.operators)

/-- The kind of a word: the one it is listed with, or else it is an identifier. -/
def wordKind (w : List UInt8) : TokenKind :=
  ((keywordTable.get? w).or (booleanTable.get? w)).getD .identifier

/-- The comment that the default rules read, if comments are tokens. -/
def commentReading (keepComments : Bool) (ahead : List UInt8) : Option (TokenKind × List UInt8) :=
  if keepComments then (Lexeme.comment.reads? ahead).map (.comment, ·) else none

/-- The longest operator ahead. -/
def operatorReading (ahead : List UInt8) : Option (TokenKind × List UInt8) :=
  (operatorTable.longestIn ahead).map fun (w, kind) => (kind, w)

/-- The real number ahead, or else the whole one. -/
def numberReading (ahead : List UInt8) : Option (TokenKind × List UInt8) :=
  ((Lexeme.real.reads? ahead).map (.real, ·)).or
    ((Lexeme.integer.reads? ahead).map (.integer, ·))

/-- What the default rules read off the front of a text: the kind and the bytes of the token. -/
def defaultReading (settings : Settings) (ahead : List UInt8) : Option (TokenKind × List UInt8) :=
  (byPriority (defaults settings)).findSome? (·.reads? ahead)

variable {settings : Settings} {ahead w : List UInt8} {kind : TokenKind} {c d : ByteClass}
  {words : List (List UInt8 × TokenKind)} {b : UInt8}

lemma reads?_ofPattern (kind : TokenKind) (p : Pattern) (priority : Int) (first : Option ByteClass)
    (ahead : List UInt8) :
    (ofPattern kind p priority first).reads? ahead = (p.reads? ahead).map (kind, ·) :=
  congrFun (follows_ofPattern kind p priority first).reads?_eq ahead

lemma kind_of_ofTable {wholeWords : Bool} {priority : Int}
    (h : (ofTable words wholeWords priority).reads? ahead = some (kind, w)) :
    kind ∈ words.map (·.2) := by
  rw [(follows_ofTable words wholeWords priority).reads?_eq] at h
  obtain ⟨found, hfound, heq⟩ := Option.map_eq_some_iff.mp h
  cases heq
  have hget := KeywordTable.get?_of_longestIn (Option.filter_eq_some_iff.mp hfound).1
  exact List.mem_map.mpr ⟨_, KeywordTable.mem_of_get?_ofList hget, rfl⟩

lemma kind_of_ofPattern {p : Pattern} {priority : Int} {first : Option ByteClass}
    {kind' : TokenKind} (h : (ofPattern kind p priority first).reads? ahead = some (kind', w)) :
    kind' = kind := by
  rw [reads?_ofPattern] at h
  obtain ⟨v, -, heq⟩ := Option.map_eq_some_iff.mp h
  exact (Prod.mk.inj heq).1.symm

/-- A table of whole words reads the run of word bytes if it is listed. -/
lemma reads?_wholeWords (hwords : ∀ entry ∈ words, entry.1.all ByteClass.word.contains = true)
    (priority : Int) (ahead : List UInt8) : (ofTable words true priority).reads? ahead =
      ((KeywordTable.ofList words).get? (wordRun ahead)).map (·, wordRun ahead) := by
  have hlanguage : ∀ w ∈ (KeywordTable.ofList words).language,
      ∀ b ∈ w, ByteClass.word.contains b = true := by
    intro w hw
    obtain ⟨tag, htag⟩ := Option.isSome_iff_exists.mp hw
    exact List.all_eq_true.mp (hwords _ (KeywordTable.mem_of_get?_ofList htag))
  have hreads := congrFun (follows_ofTable words true priority).reads?_eq ahead
  simp only [Bool.true_and, KeywordTable.wholeWord_eq hlanguage, Option.map_map] at hreads
  exact hreads

lemma reads?_keywords (ahead : List UInt8) :
    keywords.reads? ahead = (keywordTable.get? (wordRun ahead)).map (·, wordRun ahead) :=
  reads?_wholeWords (by decide) 80 ahead

lemma reads?_booleans (ahead : List UInt8) :
    booleans.reads? ahead = (booleanTable.get? (wordRun ahead)).map (·, wordRun ahead) :=
  reads?_wholeWords (by decide) 50 ahead

lemma reads?_operators (ahead : List UInt8) : operators.reads? ahead = operatorReading ahead := by
  have hreads := congrFun (follows_ofTable (spellings TokenKind.operators) false 70).reads?_eq ahead
  refine hreads.trans ?_
  rw [operatorReading, operatorTable]
  cases (KeywordTable.ofList (spellings TokenKind.operators)).longestIn ahead <;> rfl

lemma reads?_identifierRule (ahead : List UInt8) : identifier.reads? ahead =
    if ahead.head?.any identifierStart.contains then some (.identifier, wordRun ahead)
    else none := by
  have hreads := congrFun (follows_ofAutomaton .identifier identifierAutomaton 10).reads?_eq ahead
  rw [identifier, hreads, reads?_identifier]
  split
  · next hstart =>
    have hne : wordRun ahead ≠ [] := by
      intro h
      obtain ⟨b, hb, hin⟩ := (Option.any_eq_true _ _).mp hstart
      rw [wordRun_eq_nil_iff, hb, Option.any_some, contains_word_of_start hin] at h
      cases h
    rw [Option.filter_some, if_pos (decide_eq_true hne), Option.map_some]
  · rfl

lemma mem_of_operatorReading (h : operatorReading ahead = some (kind, w)) :
    (w, kind) ∈ spellings TokenKind.operators := by
  obtain ⟨found, hfound, heq⟩ := Option.map_eq_some_iff.mp h
  cases heq
  exact KeywordTable.mem_of_get?_ofList (KeywordTable.get?_of_longestIn hfound)

/-- The readings of the default rules by falling priority. -/
lemma defaultReading_eq (settings : Settings) (ahead : List UInt8) :
    defaultReading settings ahead =
      (commentReading settings.keepComments ahead).or ((keywords.reads? ahead).or
      ((operatorReading ahead).or ((real.reads? ahead).or ((booleans.reads? ahead).or
      ((integer.reads? ahead).or ((text.reads? ahead).or ((character.reads? ahead).or
      (identifier.reads? ahead)))))))) := by
  have hcons : ∀ (r : Rule) rules, (r :: rules).findSome? (·.reads? ahead) =
      (r.reads? ahead).or (rules.findSome? (·.reads? ahead)) := by
    intro r rules
    rw [List.findSome?_cons]
    cases r.reads? ahead <;> rfl
  have hrules : byPriority (defaults settings) =
      (if settings.keepComments then [comment] else []) ++
        [keywords, operators, real, booleans, integer, text, character, identifier] := by
    obtain ⟨unmatched, keepComments, sourceName⟩ := settings
    cases keepComments <;> rfl
  rw [defaultReading, hrules, commentReading, ← reads?_operators]
  cases settings.keepComments with
  | true =>
    simp only [↓reduceIte, List.cons_append, List.nil_append, hcons, List.findSome?_nil,
      Option.or_none]
    rw [comment, reads?_ofPattern]
  | false =>
    simp only [Bool.false_eq_true, ↓reduceIte, List.nil_append, hcons, List.findSome?_nil,
      Option.or_none, Option.none_or]

/-- What is read is one of the rules' readings. -/
lemma exists_of_defaultReading (h : defaultReading settings ahead = some (kind, w)) :
    ∃ r ∈ defaults settings, r.reads? ahead = some (kind, w) := by
  obtain ⟨r, hr, hread⟩ := List.exists_of_findSome?_eq_some h
  exact ⟨r, mem_byPriority.mp hr, hread⟩

lemma prefix_of_defaultReading (h : defaultReading settings ahead = some (kind, w)) :
    w <+: ahead := by
  obtain ⟨r, hr, hread⟩ := exists_of_defaultReading h
  exact (provided_defaults settings r hr).follows.1 ahead kind w hread

lemma defaultReading_ne_nil (h : defaultReading settings ahead = some (kind, w)) : w ≠ [] := by
  obtain ⟨r, hr, hread⟩ := exists_of_defaultReading h
  obtain ⟨c, hc, -⟩ := startsIn_defaults settings r hr
  exact (hc ahead kind w hread).2

lemma head?_of_defaultReading (h : defaultReading settings ahead = some (kind, w)) :
    ahead.head? = w.head? := by
  obtain ⟨tail, rfl⟩ := prefix_of_defaultReading h
  exact List.head?_append_of_ne_nil w (defaultReading_ne_nil h)

/-- Keeping comments puts one rule in front of the others. -/
lemma defaultReading_keepComments (settings : Settings) (ahead : List UInt8) :
    defaultReading { settings with keepComments := true } ahead =
      ((Lexeme.comment.reads? ahead).map (.comment, ·)).or
        (defaultReading { settings with keepComments := false } ahead) := by
  rw [defaultReading_eq, defaultReading_eq, commentReading, commentReading, if_pos rfl,
    if_neg Bool.false_ne_true, Option.none_or]

lemma kind_ne_comment (hkeep : settings.keepComments = false)
    (h : defaultReading settings ahead = some (kind, w)) : kind ≠ .comment := by
  obtain ⟨r, hr, hread⟩ := exists_of_defaultReading h
  simp only [defaults, hkeep, List.mem_append, List.mem_cons, List.not_mem_nil, or_false,
    Bool.false_eq_true, ↓reduceIte] at hr
  rintro rfl
  rcases hr with rfl | rfl | rfl | rfl | rfl | rfl | rfl | rfl
  · exact absurd (kind_of_ofTable hread) (by decide)
  · exact absurd (kind_of_ofTable hread) (by decide)
  · exact absurd (kind_of_ofPattern hread) (by decide)
  · exact absurd (kind_of_ofTable hread) (by decide)
  · exact absurd (kind_of_ofPattern hread) (by decide)
  · exact absurd (kind_of_ofPattern hread) (by decide)
  · exact absurd (kind_of_ofPattern hread) (by decide)
  · rw [reads?_identifierRule] at hread
    split at hread
    · cases hread
    · cases hread

lemma commentReading_eq_none (h : ahead.head?.any (ByteClass.char '/').contains = false) :
    commentReading settings.keepComments ahead = none := by
  rw [commentReading]
  split
  · rw [Option.map_eq_none_iff]
    refine Option.eq_none_iff_forall_ne_some.mpr fun w hw => ?_
    have hany := (Lexeme.startsIn_comment ahead w hw).1
    rw [h] at hany
    cases hany
  · rfl

lemma operators_eq_none (h : ahead.head?.any operatorStart.contains = false) :
    commentReading settings.keepComments ahead = none ∧ operatorReading ahead = none :=
  ⟨commentReading_eq_none (any_eq_false_of_subset slash_subset_operators h),
    (reads?_operators ahead).symm.trans (startsIn_operators.reads?_eq_none h)⟩

lemma words_eq_none (h : ahead.head?.any identifierStart.contains = false) :
    keywords.reads? ahead = none ∧ booleans.reads? ahead = none ∧ identifier.reads? ahead = none :=
  ⟨startsIn_keywords.reads?_eq_none h, startsIn_booleans.reads?_eq_none h,
    startsIn_identifier.reads?_eq_none h⟩

/-- Numbers begin with digits or with signs, which are operators. -/
lemma numbers_eq_none (h : ahead.head?.any (digit 10).contains = false)
    (hop : ahead.head?.any operatorStart.contains = false) :
    real.reads? ahead = none ∧ integer.reads? ahead = none := by
  have hsigned : ahead.head?.any (digit 10 ∪ sign).contains = false := by
    have hsign := any_eq_false_of_subset signs_subset_operators hop
    cases hhead : ahead.head? with
    | none => rfl
    | some b =>
      rw [hhead, Option.any_some] at h hsign
      rw [Option.any_some, ByteClass.contains_union, h, hsign, Bool.or_false]
  exact ⟨(startsIn_ofPattern Lexeme.startsIn_real _ _ _).reads?_eq_none hsigned,
    (startsIn_ofPattern Lexeme.startsIn_integer _ _ _).reads?_eq_none hsigned⟩

lemma text_eq_none (h : ahead.head?.any (ByteClass.char '"').contains = false) :
    text.reads? ahead = none :=
  (startsIn_ofPattern Lexeme.startsIn_text _ _ _).reads?_eq_none h

lemma character_eq_none (h : ahead.head?.any (ByteClass.char '\'').contains = false) :
    character.reads? ahead = none :=
  (startsIn_ofPattern Lexeme.startsIn_character _ _ _).reads?_eq_none h

/-- Before a letter or an underscore the rules read the whole word. -/
lemma defaultReading_word (h : ahead.head?.any identifierStart.contains = true) :
    defaultReading settings ahead = some (wordKind (wordRun ahead), wordRun ahead) := by
  have hother : ∀ s, .letter ≠ s → ahead.head?.any (FirstByte.bytes s).contains = false :=
    fun s hne => FirstByte.any_eq_false hne h
  obtain ⟨hcomment, hop⟩ := operators_eq_none (hother .operator (by decide))
  obtain ⟨hreal, hinteger⟩ :=
    numbers_eq_none (hother .digit (by decide)) (hother .operator (by decide))
  rw [defaultReading_eq, hcomment, hop, hreal, hinteger, text_eq_none (hother .quote (by decide)),
    character_eq_none (hother .singleQuote (by decide)), reads?_keywords, reads?_booleans,
    reads?_identifierRule, if_pos h, wordKind]
  cases keywordTable.get? (wordRun ahead) with
  | some kind => rfl
  | none => cases booleanTable.get? (wordRun ahead) <;> rfl

lemma defaultReading_digit (h : ahead.head?.any (digit 10).contains = true) :
    defaultReading settings ahead = numberReading ahead := by
  have hother : ∀ s, .digit ≠ s → ahead.head?.any (FirstByte.bytes s).contains = false :=
    fun s hne => FirstByte.any_eq_false hne h
  obtain ⟨hkeywords, hbooleans, hidentifier⟩ := words_eq_none (hother .letter (by decide))
  obtain ⟨hcomment, hop⟩ := operators_eq_none (hother .operator (by decide))
  rw [defaultReading_eq, hcomment, hop, text_eq_none (hother .quote (by decide)),
    character_eq_none (hother .singleQuote (by decide)), hkeywords, hbooleans, hidentifier,
    real, integer, reads?_ofPattern, reads?_ofPattern, numberReading]
  simp only [Option.none_or, Option.or_none]

lemma defaultReading_quote (h : ahead.head?.any (ByteClass.char '"').contains = true) :
    defaultReading settings ahead = (Lexeme.text.reads? ahead).map (.text, ·) := by
  have hother : ∀ s, .quote ≠ s → ahead.head?.any (FirstByte.bytes s).contains = false :=
    fun s hne => FirstByte.any_eq_false hne h
  obtain ⟨hkeywords, hbooleans, hidentifier⟩ := words_eq_none (hother .letter (by decide))
  obtain ⟨hcomment, hop⟩ := operators_eq_none (hother .operator (by decide))
  obtain ⟨hreal, hinteger⟩ :=
    numbers_eq_none (hother .digit (by decide)) (hother .operator (by decide))
  rw [defaultReading_eq, hcomment, hop, hreal, hinteger,
    character_eq_none (hother .singleQuote (by decide)), hkeywords, hbooleans, hidentifier,
    text, reads?_ofPattern]
  simp only [Option.none_or, Option.or_none]

lemma defaultReading_singleQuote (h : ahead.head?.any (ByteClass.char '\'').contains = true) :
    defaultReading settings ahead = (Lexeme.character.reads? ahead).map (.character, ·) := by
  have hother : ∀ s, .singleQuote ≠ s → ahead.head?.any (FirstByte.bytes s).contains = false :=
    fun s hne => FirstByte.any_eq_false hne h
  obtain ⟨hkeywords, hbooleans, hidentifier⟩ := words_eq_none (hother .letter (by decide))
  obtain ⟨hcomment, hop⟩ := operators_eq_none (hother .operator (by decide))
  obtain ⟨hreal, hinteger⟩ :=
    numbers_eq_none (hother .digit (by decide)) (hother .operator (by decide))
  rw [defaultReading_eq, hcomment, hop, hreal, hinteger, text_eq_none (hother .quote (by decide)),
    hkeywords, hbooleans, hidentifier, character, reads?_ofPattern]
  simp only [Option.none_or, Option.or_none]

/-- An operator may be a single byte, so one is read before any first byte of an operator. -/
lemma operatorReading_isSome (h : ahead.head?.any operatorStart.contains = true) :
    (operatorReading ahead).isSome := by
  have hsingle : ∀ b ∈ (spellings TokenKind.operators).filterMap (·.1.head?),
    (operatorTable.get? [b]).isSome = true := List.all_iff_forall_prop.mp (by decide)
  obtain ⟨b, hb, hin⟩ := (Option.any_eq_true _ _).mp h
  rw [operatorStart, ByteClass.contains_ofList, List.contains_iff_mem] at hin
  obtain ⟨tail, rfl⟩ := List.head?_eq_some_iff.mp hb
  have hlong := operatorTable.isLongestPrefix_longestIn (b :: tail)
  rw [operatorReading, Option.isSome_map]
  cases hfound : operatorTable.longestIn (b :: tail) with
  | some found => rfl
  | none =>
    rw [hfound] at hlong
    exact (hlong [b] ⟨tail, rfl⟩ (hsingle b hin)).elim

lemma defaultReading_operator (h : ahead.head?.any operatorStart.contains = true) :
    defaultReading settings ahead =
      (commentReading settings.keepComments ahead).or (operatorReading ahead) := by
  have hletter : ahead.head?.any FirstByte.letter.bytes.contains = false :=
    FirstByte.any_eq_false (s := .operator) (by decide) h
  obtain ⟨found, hfound⟩ := Option.isSome_iff_exists.mp (operatorReading_isSome h)
  have hkeywords := (words_eq_none hletter).1
  rw [defaultReading_eq, hkeywords, hfound, Option.none_or, Option.some_or]

/-- Before any other byte, and at the end, no rule reads anything. -/
lemma defaultReading_other (h : ∀ s : FirstByte, ahead.head?.any s.bytes.contains = false) :
    defaultReading settings ahead = none := by
  obtain ⟨hkeywords, hbooleans, hidentifier⟩ := words_eq_none (h .letter)
  obtain ⟨hcomment, hop⟩ := operators_eq_none (h .operator)
  obtain ⟨hreal, hinteger⟩ := numbers_eq_none (h .digit) (h .operator)
  rw [defaultReading_eq, hcomment, hop, hkeywords, hbooleans, hidentifier, hreal, hinteger,
    text_eq_none (h .quote), character_eq_none (h .singleQuote)]
  rfl

/-- Something is read only before the first byte of a word, a number, a text, a character or an
operator. -/
lemma exists_firstByte (h : defaultReading settings ahead = some (kind, w)) :
    ∃ s : FirstByte, ahead.head?.any s.bytes.contains = true := by
  by_contra hnot
  simp only [not_exists, Bool.not_eq_true] at hnot
  rw [defaultReading_other hnot] at h
  cases h

/-- That byte is below 128 and no blank. -/
lemma first_ascii (h : defaultReading settings ahead = some (kind, w)) :
    ∃ b ∈ ahead.head?, b < 128 ∧ ByteClass.space.contains b = false := by
  obtain ⟨s, hs⟩ := exists_firstByte h
  obtain ⟨b, hb, hin⟩ := (Option.any_eq_true _ _).mp hs
  exact ⟨b, hb, (FirstByte.of?_eq_some s hin).2⟩

end Rule

end ByteLexer
