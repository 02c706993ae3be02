import ByteLexer.Proofs.Alternatives
import ByteLexer.Proofs.Words

/-!
# Ways to read a listed word

A table of words walks along its branches, the union of the automata of the words follows all of
them side by side, and a choice tries one word after the other. All three read the longest of the
words that lies ahead, the choice provided that no word is tried before a longer one. None of them
reads anything else, so they come out alike wherever they are run.
-/

namespace ByteLexer

open Pattern

/-- The texts of a list. -/
def listed (words : List (List UInt8)) : Language UInt8 := {w | w ∈ words}

/-- The union of the automata of words, one after the other from the first on. -/
def Automaton.anyOf (first : List UInt8) (others : List (List UInt8)) : Automaton :=
  others.foldl (fun a w => a ∪ ofBytes w) (ofBytes first)

/-- The choice between words, one after the other from the first on, going back from each word that
is not there. -/
def Pattern.firstOf (first : List UInt8) (others : List (List UInt8)) : Pattern :=
  others.foldl (fun p w => p.alt (literal w).attempt) (literal first).attempt

variable {p : Pattern} {ahead w : List UInt8} {words : List (List UInt8)}

lemma KeywordTable.language_ofList (hne : [] ∉ words) :
    (ofList (words.map (·, ()))).language = listed words := by
  ext w
  change ((ofList (words.map (·, ()))).get? w).isSome = true ↔ w ∈ words
  rw [get?_ofList]
  by_cases hw : w = []
  · simp [hw, hne]
  · rw [if_neg hw, Option.isSome_map, List.find?_isSome]
    simp

lemma listed_nil : listed [] = 0 := by
  ext v
  exact iff_of_false List.not_mem_nil (Language.notMem_zero v)

lemma listed_cons (w : List UInt8) (words : List (List UInt8)) :
    listed (w :: words) = {w} + listed words := by
  ext v
  exact List.mem_cons

lemma Automaton.language_foldl_union (words : List (List UInt8)) {a : Automaton} (ha : a.Closed) :
    (words.foldl (fun a w => a ∪ ofBytes w) a).language = a.language + listed words := by
  induction words generalizing a with
  | nil => rw [List.foldl_nil, listed_nil, add_zero]
  | cons w words ih =>
    have hunion := language_union ha (closed_ofBytes w)
    rw [language_ofBytes] at hunion
    rw [List.foldl_cons, ih (ha.union (closed_ofBytes w)), hunion, listed_cons, add_assoc]

lemma Automaton.language_anyOf (first : List UInt8) (others : List (List UInt8)) :
    (anyOf first others).language = listed (first :: others) := by
  unfold anyOf
  rw [language_foldl_union others (closed_ofBytes first), language_ofBytes, listed_cons]

lemma reads?_attempt_literal (w ahead : List UInt8) :
    (literal w).attempt.reads? ahead = if w <+: ahead then some w else none := by
  rw [reads?_attempt, reads?_literal]

lemma goesBack_foldl_alt (words : List (List UInt8)) (hp : p.GoesBack) :
    (words.foldl (fun p w => p.alt (literal w).attempt) p).GoesBack := by
  induction words generalizing p with
  | nil => exact hp
  | cons w words ih => exact ih (hp.alt (goesBack_attempt _))

/-- A choice between words reads the first of them that is there. -/
lemma reads?_foldl_alt (words : List (List UInt8)) (hp : p.GoesBack) (ahead : List UInt8) :
    (words.foldl (fun p w => p.alt (literal w).attempt) p).reads? ahead =
      (p.reads? ahead).or (words.find? (· <+: ahead)) := by
  induction words generalizing p with
  | nil => exact (Option.or_none).symm
  | cons w words ih =>
    rw [List.foldl_cons, ih (hp.alt (goesBack_attempt _)), reads?_alt hp, reads?_attempt_literal,
      Option.or_assoc, List.find?_cons]
    by_cases hw : w <+: ahead
    · simp [hw]
    · simp [hw]

lemma reads?_firstOf (first : List UInt8) (others : List (List UInt8)) (ahead : List UInt8) :
    (firstOf first others).reads? ahead = (first :: others).find? (· <+: ahead) := by
  unfold firstOf
  rw [reads?_foldl_alt others (goesBack_attempt _), reads?_attempt_literal, List.find?_cons]
  by_cases hfirst : first <+: ahead
  · simp [hfirst]
  · simp [hfirst]

lemma goesBack_firstOf (first : List UInt8) (others : List (List UInt8)) :
    (firstOf first others).GoesBack :=
  goesBack_foldl_alt others (goesBack_attempt _)

/-- Of words in the order of falling length the first that is there is the longest. -/
lemma isLongestPrefix_find? (h : words.Pairwise fun v w => w.length ≤ v.length)
    (ahead : List UInt8) : IsLongestPrefix (listed words) ahead (words.find? (· <+: ahead)) := by
  induction words with
  | nil => exact fun v _ hmem => List.not_mem_nil hmem
  | cons w words ih =>
    obtain ⟨hlongest, hrest⟩ := List.pairwise_cons.mp h
    by_cases hw : w <+: ahead
    · rw [List.find?_cons_of_pos (by simpa using hw)]
      refine ⟨hw, List.mem_cons_self, fun v _ hmem => ?_⟩
      by_cases hv : v = w
      · rw [hv]
      · exact hlongest v (List.mem_of_ne_of_mem hv hmem)
    · -- The first word is not there, so it makes no difference to what is.
      have hother : ∀ v, v <+: ahead → v ∈ w :: words → v ∈ words := by
        intro v hv hmem
        apply List.mem_of_ne_of_mem _ hmem
        intro heq
        exact hw (heq ▸ hv)
      have ih := ih hrest
      rw [List.find?_cons_of_neg (by simpa using hw)]
      cases hfound : words.find? (· <+: ahead) with
      | none =>
        rw [hfound] at ih
        exact fun v hv hmem => ih v hv (hother v hv hmem)
      | some u =>
        rw [hfound] at ih
        exact ⟨ih.1, List.mem_cons_of_mem w ih.2.1,
          fun v hv hmem => ih.2.2 v hv (hother v hv hmem)⟩

/-- From any place of a text and whatever was kept before, the table of some words, the union of
their automata and the choice between them by falling length come out alike: each matches after the
longest of the words that is there, or fails where it began if there is none. -/
theorem run_listed_words (first : List UInt8) (others : List (List UInt8)) (longest : List UInt8)
    (shorter : List (List UInt8)) (hne : [] ∉ first :: others)
    (hperm : (longest :: shorter).Perm (first :: others))
    (hfalling : (longest :: shorter).Pairwise fun v w => w.length ≤ v.length)
    (src : Source) (s : Scan) (hle : s.position.offset ≤ src.bytes.size) :
    (automaton (.anyOf first others)).run src s = (oneOfWords (first :: others)).run src s ∧
    (firstOf longest shorter).run src s = (oneOfWords (first :: others)).run src s ∧
    ∃ r, IsLongestPrefix {w | w ∈ first :: others} (src.remaining s.position) r ∧
      (oneOfWords (first :: others)).run src s = match r with
        | some w => .matched (s.keepAll w)
        | none => .failed s := by
  have htable : IsLongestPrefix (listed (first :: others)) (src.remaining s.position)
      ((oneOfWords (first :: others)).reads? (src.remaining s.position)) := by
    rw [← KeywordTable.language_ofList hne]
    exact isLongestPrefix_keywords _ _
  have hunion : IsLongestPrefix (listed (first :: others)) (src.remaining s.position)
      ((automaton (.anyOf first others)).reads? (src.remaining s.position)) := by
    rw [← Automaton.language_anyOf]
    exact isLongestPrefix_automaton _ _
  have hchoice : IsLongestPrefix (listed (first :: others)) (src.remaining s.position)
      ((firstOf longest shorter).reads? (src.remaining s.position)) := by
    have hsame : listed (longest :: shorter) = listed (first :: others) := by
      ext w
      exact hperm.mem_iff
    rw [← hsame, reads?_firstOf]
    exact isLongestPrefix_find? hfalling _
  have hback : (oneOfWords (first :: others)).GoesBack := goesBack_keywords _
  refine ⟨?_, ?_, _, htable, hback.run_eq hle⟩
  · exact run_eq_of_isLongestPrefix (goesBack_automaton _) hback hle hunion htable
  · exact run_eq_of_isLongestPrefix (goesBack_firstOf _ _) hback hle hchoice htable

/-- Words that begin with one another, one of them listed twice, on the second line of a text that
ends within the longest of them. -/
theorem run_listed_words_cut_short :
    let first := Text.Utf8.encode "<"
    let others := [Text.Utf8.encode "<<=>", Text.Utf8.encode "<<", Text.Utf8.encode "<"]
    let longest := Text.Utf8.encode "<<=>"
    let shorter := [Text.Utf8.encode "<<", Text.Utf8.encode "<", Text.Utf8.encode "<"]
    let src := Source.ofBytes (Text.Utf8.encode "\n<<=").toArray
    let s : Scan := ⟨⟨2, 1, 1⟩, #[33]⟩
    ([] ∉ first :: others ∧ (longest :: shorter).Perm (first :: others) ∧
      (longest :: shorter).Pairwise (fun v w => w.length ≤ v.length) ∧
      s.position.offset ≤ src.bytes.size) ∧
    (oneOfWords (first :: others)).run src s = .matched ⟨⟨2, 3, 3⟩, #[33, 60, 60]⟩ ∧
    (automaton (.anyOf first others)).run src s = (oneOfWords (first :: others)).run src s ∧
    (firstOf longest shorter).run src s = (oneOfWords (first :: others)).run src s := by
  intro first others longest shorter src s
  have hne : [] ∉ first :: others := by decide
  have hperm : (longest :: shorter).Perm (first :: others) := by decide
  have hfalling : (longest :: shorter).Pairwise fun v w => w.length ≤ v.length := by decide
  have hle : s.position.offset ≤ src.bytes.size := by decide
  have h := run_listed_words first others longest shorter hne hperm hfalling src s hle
  exact ⟨⟨hne, hperm, hfalling, hle⟩, by decide, h.1, h.2.1⟩

end ByteLexer
