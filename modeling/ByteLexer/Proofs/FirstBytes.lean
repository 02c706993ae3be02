import ByteLexer.Proofs.Delimiters
import ByteLexer.Proofs.RuleReadings

/-!
# The first byte of a token

Each default rule reads something only before a byte of its own class, so asking for the next byte
first never rules out a match. The classes overlap in the signs, which numbers and operators begin
with, in the slash of comments and operators, and in the letters of words; everything else that
follows about the order of the rules is about these overlaps.
-/

namespace ByteLexer

open Lexeme Pattern
open ByteClass (digit isEpsilon_ofList sign)

variable {p q : Pattern} {c d : ByteClass} {r : Rule} {ahead : List UInt8} {base n : Nat}

namespace Pattern

/-- A pattern matches only before a byte of a class, and it does not match without reading. -/
def StartsIn (p : Pattern) (c : ByteClass) : Prop :=
  ∀ ahead w, p.reads? ahead = some w → ahead.head?.any c.contains ∧ w ≠ []

lemma startsIn_ofClass (hc : c.isEpsilon = false) : (ofClass c).StartsIn c := by
  intro ahead w h
  cases ahead with
  | nil =>
    rw [reads?_ofClass_nil hc] at h
    cases h
  | cons b rest =>
    rw [reads?_ofClass_cons hc] at h
    split at h
    · next hb =>
      cases h
      exact ⟨hb, List.cons_ne_nil _ _⟩
    · cases h

lemma startsIn_spells {b : UInt8} {bytes : List UInt8} (h : Spells p (b :: bytes))
    (hb : c.contains b = true) : p.StartsIn c := by
  intro ahead w hw
  rw [h] at hw
  split at hw
  · next hpre =>
    obtain ⟨tail, rfl⟩ := hpre
    cases hw
    exact ⟨hb, List.cons_ne_nil _ _⟩
  · cases hw

lemma StartsIn.attempt (h : p.StartsIn c) : p.attempt.StartsIn c := by
  intro ahead w hw
  rw [reads?_attempt] at hw
  exact h ahead w hw

lemma StartsIn.seq (h : p.StartsIn c) (q : Pattern) : (p.seq q).StartsIn c := by
  intro ahead w hw
  rw [reads?_seq] at hw
  obtain ⟨u, hu, hw⟩ := Option.bind_eq_some_iff.mp hw
  obtain ⟨v, -, rfl⟩ := Option.map_eq_some_iff.mp hw
  exact ⟨(h ahead u hu).1, List.append_ne_nil_of_left_ne_nil (h ahead u hu).2 v⟩

lemma StartsIn.alt (h : p.StartsIn c) (h' : q.StartsIn c) (hback : p.GoesBack) :
    (p.alt q).StartsIn c := by
  intro ahead w hw
  rw [reads?_alt hback, Option.or_eq_some_iff] at hw
  exact hw.elim (h ahead w) fun hw => h' ahead w hw.2

lemma StartsIn.oneOrMore (h : p.StartsIn c) : p.oneOrMore.StartsIn c := by
  intro ahead w hw
  rw [Pattern.oneOrMore, reads?_repetition_succ] at hw
  exact h.seq _ ahead w hw

end Pattern

namespace Lexeme

lemma startsIn_digits (base : Nat) : (digits base).StartsIn (digit base) :=
  ((startsIn_ofClass (isEpsilon_digit base)).oneOrMore).seq _

lemma startsIn_realDigits (base : Nat) : (realDigits base).StartsIn (digit base) :=
  ((((startsIn_digits base).seq _).attempt).seq _).alt ((startsIn_digits base).seq _)
    (goesBack_realDigits_left base)

/-- A number in a base begins with a digit, since every prefix begins with a zero. -/
lemma startsIn_withBase {body : Nat → Pattern} (h : (body 10).StartsIn (digit 10)) :
    (withBase body).StartsIn (digit 10) := by
  have hprefixes : ∀ prefixes : List (String × Nat),
      (∀ p ∈ prefixes, ∃ letter, Text.Utf8.encode p.1 = [48, letter]) →
      (prefixes.foldr (fun p others => attempt (ofString p.1 >> body p.2) <|> others)
        (body 10)).StartsIn (digit 10) := by
    intro prefixes
    induction prefixes with
    | nil => exact fun _ => h
    | cons p prefixes ih =>
      intro hp
      obtain ⟨letter, hletter⟩ := hp p List.mem_cons_self
      have hword : Spells (Pattern.ofString p.1) [48, letter] := hletter ▸ spells_ofString p.1
      have hfirst := ((startsIn_spells (c := digit 10) hword (by decide)).seq (body p.2)).attempt
      exact hfirst.alt (ih fun q hq => hp q (List.mem_cons_of_mem _ hq)) (goesBack_attempt _)
  refine hprefixes basePrefixes fun p hp => ?_
  obtain ⟨letter, hletter, -⟩ := encode_prefix hp
  exact ⟨letter, hletter⟩

lemma startsIn_afterSign (h : p.StartsIn (digit 10)) :
    (optionalSign.seq p).StartsIn (digit 10 ∪ sign) := by
  intro ahead w hw
  have hsign : optionalSign.reads? ahead = some (((ofClass sign).reads? ahead).getD []) :=
    reads?_optional (goesBack_ofClass sign) ahead
  rw [reads?_seq, hsign, Option.bind_some] at hw
  obtain ⟨v, hv, rfl⟩ := Option.map_eq_some_iff.mp hw
  have hunion : ∀ b, (digit 10 ∪ sign).contains b = ((digit 10).contains b || sign.contains b) :=
    ByteClass.contains_union (digit 10) sign
  cases hread : (ofClass sign).reads? ahead with
  | none =>
    rw [hread] at hv
    obtain ⟨b, hb, hdigit⟩ := (Option.any_eq_true _ _).mp (h ahead v hv).1
    exact ⟨(Option.any_eq_true _ _).mpr ⟨b, hb, by rw [hunion, hdigit, Bool.true_or]⟩,
      (h ahead v hv).2⟩
  | some u =>
    obtain ⟨hany, hne⟩ := startsIn_ofClass (c := sign) (isEpsilon_ofList _) ahead u hread
    obtain ⟨b, hb, hin⟩ := (Option.any_eq_true _ _).mp hany
    exact ⟨(Option.any_eq_true _ _).mpr ⟨b, hb, by rw [hunion, hin, Bool.or_true]⟩,
      List.append_ne_nil_of_left_ne_nil hne v⟩

lemma startsIn_integer : integer.StartsIn (digit 10 ∪ sign) :=
  startsIn_afterSign (startsIn_withBase (startsIn_digits 10))

lemma startsIn_real : real.StartsIn (digit 10 ∪ sign) :=
  startsIn_afterSign (startsIn_withBase (startsIn_realDigits 10))

lemma startsIn_character : character.StartsIn (.char '\'') :=
  (startsIn_ofClass (isEpsilon_ofList _)).seq _

/-- What is read behind an opening delimiter begins with its first byte. -/
lemma startsIn_opening {b : UInt8} {opening w : List UInt8} {rest : Option (List UInt8)}
    (hb : c.contains b = true)
    (h : (if b :: opening <+: ahead then rest.map (b :: opening ++ ·) else none) = some w) :
    ahead.head?.any c.contains ∧ w ≠ [] := by
  split at h
  · next hpre =>
    obtain ⟨tail, rfl⟩ := hpre
    obtain ⟨v, -, rfl⟩ := Option.map_eq_some_iff.mp h
    exact ⟨hb, List.cons_ne_nil _ _⟩
  · cases h

lemma startsIn_text : text.StartsIn (.char '"') := by
  intro ahead w hw
  rw [reads?_text, Option.or_eq_some_iff] at hw
  rcases hw with hw | ⟨-, hw⟩
  · exact startsIn_opening (by decide) hw
  · exact startsIn_opening (by decide) hw

lemma startsIn_comment : comment.StartsIn (.char '/') := by
  intro ahead w hw
  have hslash : (ByteClass.char '/').contains 47 = true := by decide
  obtain ⟨rest, rfl, rfl⟩ | ⟨rest, v, rfl, -, rfl⟩ := comment_cases hw
  · exact ⟨hslash, List.cons_ne_nil _ _⟩
  · exact ⟨hslash, List.cons_ne_nil _ _⟩

end Lexeme

section Next

variable {next : Option UInt8}

lemma any_of_subset (hcd : ∀ b, c.contains b = true → d.contains b = true)
    (h : next.any c.contains = true) : next.any d.contains = true := by
  obtain ⟨b, hb, hc⟩ := (Option.any_eq_true _ _).mp h
  exact (Option.any_eq_true _ _).mpr ⟨b, hb, hcd b hc⟩

lemma any_eq_false_of_subset (hcd : ∀ b, c.contains b = true → d.contains b = true)
    (h : next.any d.contains = false) : next.any c.contains = false := by
  rw [← Bool.not_eq_true] at h ⊢
  exact fun hc => h (any_of_subset hcd hc)

end Next

namespace Rule

/-- A rule reads something only before a byte of a class, and then it reads at least one byte. -/
def StartsIn (r : Rule) (c : ByteClass) : Prop :=
  ∀ ahead kind w, r.reads? ahead = some (kind, w) → ahead.head?.any c.contains ∧ w ≠ []

lemma StartsIn.reads?_eq_none (h : r.StartsIn c) (hc : ahead.head?.any c.contains = false) :
    r.reads? ahead = none := by
  refine Option.eq_none_iff_forall_ne_some.mpr fun ⟨kind, w⟩ hread => ?_
  have hany := (h ahead kind w hread).1
  rw [hc] at hany
  cases hany

lemma StartsIn.mono (h : r.StartsIn c) (hcd : ∀ b, c.contains b = true → d.contains b = true) :
    r.StartsIn d := by
  intro ahead kind w hw
  obtain ⟨hany, hne⟩ := h ahead kind w hw
  exact ⟨any_of_subset hcd hany, hne⟩

/-- A rule that asks for the class it starts in misses nothing. -/
lemma StartsIn.unhindered (h : r.StartsIn c) (hq : r.quickCheck = startsWith c) :
    r.Unhindered := by
  intro ahead hveto
  refine h.reads?_eq_none ?_
  rw [hq, startsWith] at hveto
  obtain ⟨b, hb, hc⟩ := Option.map_eq_some_iff.mp hveto
  rw [hb, Option.any_some, hc]

lemma startsIn_ofPattern (h : p.StartsIn c) (kind : TokenKind) (priority : Int)
    (first : Option ByteClass) : (ofPattern kind p priority first).StartsIn c := by
  intro ahead kind' w hw
  rw [(follows_ofPattern kind p priority first).reads?_eq] at hw
  obtain ⟨v, hv, heq⟩ := Option.map_eq_some_iff.mp hw
  cases heq
  exact h ahead w hv

/-- A table starts in the first bytes of its words. -/
lemma startsIn_ofTable (words : List (List UInt8 × TokenKind)) (wholeWords : Bool)
    (priority : Int) : (ofTable words wholeWords priority).StartsIn
      (.ofList (words.filterMap (·.1.head?))) := by
  intro ahead kind w hw
  rw [(follows_ofTable words wholeWords priority).reads?_eq] at hw
  obtain ⟨found, hfound, heq⟩ := Option.map_eq_some_iff.mp hw
  cases heq
  have hlong := (Option.filter_eq_some_iff.mp hfound).1
  have hget := KeywordTable.get?_of_longestIn hlong
  have hpre := (KeywordTable.ofList words).isLongestPrefix_longestIn ahead
  rw [hlong] at hpre
  obtain ⟨tail, rfl⟩ := hpre.1
  cases hcases : found.1 with
  | nil =>
    rw [hcases, KeywordTable.get?_nil] at hget
    cases hget
  | cons b w =>
    have hmem : b ∈ words.filterMap (·.1.head?) :=
      List.mem_filterMap.mpr ⟨_, KeywordTable.mem_of_get?_ofList hget, by rw [hcases]; rfl⟩
    refine ⟨?_, List.cons_ne_nil _ _⟩
    simpa [hcases] using hmem

/-- The first bytes of the operators. -/
def operatorStart : ByteClass := .ofList ((spellings TokenKind.operators).filterMap (·.1.head?))

lemma startsIn_operators : operators.StartsIn operatorStart := startsIn_ofTable _ _ _

lemma startsIn_identifier : identifier.StartsIn identifierStart := by
  intro ahead kind w hw
  have hreads := (follows_ofAutomaton .identifier identifierAutomaton 10).reads?_eq
  rw [identifier, hreads] at hw
  obtain ⟨v, hv, heq⟩ := Option.map_eq_some_iff.mp hw
  cases heq
  obtain ⟨hv, hne⟩ := Option.filter_eq_some_iff.mp hv
  rw [reads?_identifier] at hv
  refine ⟨?_, of_decide_eq_true hne⟩
  by_contra hb
  rw [if_neg hb] at hv
  cases hv

lemma startsIn_words {words : List (List UInt8 × TokenKind)}
    (hwords : ∀ b ∈ words.filterMap (·.1.head?), c.contains b = true) (wholeWords : Bool)
    (priority : Int) : (ofTable words wholeWords priority).StartsIn c := by
  refine (startsIn_ofTable _ _ _).mono fun b hb => ?_
  rw [ByteClass.contains_ofList, List.contains_iff_mem] at hb
  exact hwords b hb

lemma startsIn_keywords : keywords.StartsIn identifierStart :=
  startsIn_words (List.all_iff_forall_prop.mp (by decide)) _ _

lemma startsIn_booleans : booleans.StartsIn identifierStart :=
  startsIn_words (List.all_iff_forall_prop.mp (by decide)) _ _

lemma slash_subset_operators (b : UInt8) (h : (ByteClass.char '/').contains b = true) :
    operatorStart.contains b = true := by
  rw [ByteClass.char, ByteClass.contains_single, decide_eq_true_eq] at h
  rw [h]
  decide

lemma signs_subset_operators (b : UInt8) (h : sign.contains b = true) :
    operatorStart.contains b = true := by
  rcases mem_sign.mp h with rfl | rfl <;> decide

/-- Every default rule starts in a class, and it asks for that class if for any. -/
lemma startsIn_defaults (settings : Settings) : ∀ r ∈ defaults settings,
    ∃ c, r.StartsIn c ∧ (r.quickCheck = startsWith c ∨ r.quickCheck = fun _ => none) := by
  intro r hr
  simp only [defaults, List.mem_append, List.mem_cons, List.not_mem_nil, or_false] at hr
  rcases hr with (rfl | rfl | rfl | rfl | rfl | rfl | rfl | rfl) | hr
  · exact ⟨_, startsIn_ofTable _ _ _, .inl rfl⟩
  · exact ⟨_, startsIn_operators, .inl rfl⟩
  · exact ⟨_, startsIn_ofPattern startsIn_real _ _ _, .inl rfl⟩
  · exact ⟨_, startsIn_ofTable _ _ _, .inl rfl⟩
  · exact ⟨_, startsIn_ofPattern startsIn_integer _ _ _, .inl rfl⟩
  · exact ⟨_, startsIn_ofPattern startsIn_text _ _ _, .inl rfl⟩
  · exact ⟨_, startsIn_ofPattern startsIn_character _ _ _, .inl rfl⟩
  · exact ⟨_, startsIn_identifier, .inr rfl⟩
  · split at hr
    · rw [List.mem_singleton.mp hr]
      exact ⟨_, startsIn_ofPattern startsIn_comment _ _ _, .inl rfl⟩
    · cases hr

/-- No default rule is kept from a match by the byte it is asked about. -/
lemma unhindered_defaults (settings : Settings) : ∀ r ∈ defaults settings, r.Unhindered := by
  intro r hr
  obtain ⟨c, hc, hq | hq⟩ := startsIn_defaults settings r hr
  · exact hc.unhindered hq
  · intro ahead hveto
    rw [hq] at hveto
    cases hveto

end Rule

/-- What the next byte may begin: a word, a number without a sign, a text, a character or an
operator. -/
inductive FirstByte where
  | letter | digit | quote | singleQuote | operator
deriving DecidableEq

namespace FirstByte

def bytes : FirstByte → ByteClass
  | letter => identifierStart
  | digit => .digit 10
  | quote => .char '"'
  | singleQuote => .char '\''
  | operator => Rule.operatorStart

def all : List FirstByte := [letter, digit, quote, singleQuote, operator]

/-- What a byte begins, if anything. -/
def of? (b : UInt8) : Option FirstByte := all.find? (·.bytes.contains b)

/-- A byte begins one thing at most, and then it is below 128 and no blank. -/
lemma of?_eq_some (s : FirstByte) {b : UInt8} (h : s.bytes.contains b = true) :
    of? b = some s ∧ b < 128 ∧ ByteClass.space.contains b = false := by
  have hall : ∀ b ∈ allBytes, ∀ s ∈ all, s.bytes.contains b = true →
    of? b = some s ∧ b < 128 ∧ ByteClass.space.contains b = false :=
    List.all_iff_forall_prop.mp (by decide +kernel)
  exact hall b (ByteClass.mem_allBytes b) s (by cases s <;> decide) h

lemma any_eq_false {s t : FirstByte} {next : Option UInt8} (hne : s ≠ t)
    (h : next.any s.bytes.contains = true) : next.any t.bytes.contains = false := by
  obtain ⟨b, hb, hs⟩ := (Option.any_eq_true _ _).mp h
  rw [hb, Option.any_some, ← Bool.not_eq_true]
  exact fun ht => hne (Option.some.inj ((of?_eq_some s hs).1.symm.trans (of?_eq_some t ht).1))

end FirstByte

lemma word_ascii {b : UInt8} (h : ByteClass.word.contains b = true) : b < 128 := by
  rw [contains_word, Bool.or_eq_true] at h
  rcases h with h | h
  · exact (FirstByte.of?_eq_some .letter h).2.1
  · exact (FirstByte.of?_eq_some .digit h).2.1

end ByteLexer
