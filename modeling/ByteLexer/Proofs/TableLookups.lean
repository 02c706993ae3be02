import ByteLexer.Proofs.TextAhead
import ByteLexer.Proofs.Words
import Mathlib.Data.Finset.Card
import Mathlib.Data.Finset.Dedup

/-!
# Look-ups in a table of listed words

A trie is built word by word, so what its look-ups answer is told by what one insertion changes:
the beginnings of the new word are added to those of the old ones, and there is a word more if it
was not listed before. The empty word changes nothing.
-/

namespace ByteLexer

namespace KeywordTable

variable {α : Type} {words : List (List UInt8 × α)} {w : List UInt8} {tag : α}

/-- The word is not empty, and the last entry for it gives it the tag. -/
def IsLastTag (words : List (List UInt8 × α)) (w : List UInt8) (tag : α) : Prop :=
  w ≠ [] ∧ ∃ earlier later, words = earlier ++ (w, tag) :: later ∧ ∀ entry ∈ later, entry.1 ≠ w

lemma get?_ofList_eq_some_iff : (ofList words).get? w = some tag ↔ IsLastTag words w tag := by
  rw [get?_ofList, IsLastTag]
  by_cases hw : w = []
  · simp [hw]
  · rw [if_neg hw, Option.map_eq_some_iff]
    constructor
    · rintro ⟨⟨v, _⟩, hfind, rfl⟩
      obtain ⟨hv, later, earlier, hwords, hlater⟩ := List.find?_eq_some_iff_append.mp hfind
      obtain rfl : v = w := by simpa using hv
      refine ⟨hw, earlier.reverse, later.reverse, ?_, fun entry hentry => ?_⟩
      · rw [← List.reverse_reverse words, hwords]
        simp
      · simpa using hlater entry (List.mem_reverse.mp hentry)
    · rintro ⟨-, earlier, later, rfl, hlater⟩
      refine ⟨(w, tag), List.find?_eq_some_iff_append.mpr ⟨by simp, later.reverse,
        earlier.reverse, by simp, fun entry hentry => ?_⟩, rfl⟩
      simpa using hlater entry (List.mem_reverse.mp hentry)

lemma isSome_get?_ofList : ((ofList words).get? w).isSome = true ↔
    w ≠ [] ∧ w ∈ words.map Prod.fst := by
  rw [get?_ofList]
  by_cases hw : w = []
  · simp [hw]
  · simp [hw, List.find?_isSome]

lemma ofList_concat (words : List (List UInt8 × α)) (w : List UInt8) (tag : α) :
    ofList (words ++ [(w, tag)]) = (ofList words).insert w tag := by
  rw [ofList, List.foldl_append]
  rfl

lemma isPrefixOfWord_nil (t : KeywordTable α) : t.isPrefixOfWord [] = false := by
  cases t <;> rfl

lemma isPrefixOfWord_single (tag : α) (word w : List UInt8) :
    (single tag word).isPrefixOfWord w = true ↔ w ≠ [] ∧ w <+: word := by
  induction word generalizing w with
  | nil => cases w <;> simp [single, isPrefixOfWord]
  | cons byte rest ih =>
    cases w with
    | nil => simp [isPrefixOfWord_nil]
    | cons first w =>
      cases rest with
      | nil => simp [single, isPrefixOfWord, List.cons_prefix_cons]
      | cons second rest =>
        by_cases hw : w = []
        · simp [single, isPrefixOfWord, List.cons_prefix_cons, hw]
        · simp [single, isPrefixOfWord, List.cons_prefix_cons, hw, ih]

lemma isPrefixOfWord_insert (word : List UInt8) (tag : α) (t : KeywordTable α) (w : List UInt8) :
    (t.insert word tag).isPrefixOfWord w = true ↔
      (w ≠ [] ∧ w <+: word) ∨ t.isPrefixOfWord w = true := by
  induction t generalizing word w with
  | empty => simp [insert, isPrefixOfWord_single, isPrefixOfWord]
  | branch byte old longer others ihl iho =>
    cases w with
    | nil => simp [isPrefixOfWord_nil]
    | cons b w =>
      cases word with
      | nil => simp [insert]
      | cons first rest => grind [insert, isPrefixOfWord]

lemma size_single (tag : α) (word : List UInt8) :
    (single tag word).size = if word = [] then 0 else 1 := by
  induction word with
  | nil => rfl
  | cons byte rest ih =>
    cases rest with
    | nil => rfl
    | cons second rest => simp [single, size, ih]

lemma size_insert (word : List UInt8) (tag : α) (t : KeywordTable α) :
    (t.insert word tag).size = t.size + if word = [] ∨ (t.get? word).isSome then 0 else 1 := by
  induction t generalizing word with
  | empty => simp [insert, size_single, size, get?]
  | branch byte old longer others ihl iho =>
    cases word with
    | nil => simp [insert]
    | cons first rest => cases old <;> grind [insert, size, get?]

lemma isPrefixOfWord_ofList (words : List (List UInt8 × α)) (w : List UInt8) :
    (ofList words).isPrefixOfWord w = true ↔ w ≠ [] ∧ ∃ entry ∈ words, w <+: entry.1 := by
  induction words using List.reverseRecOn with
  | nil => simp [ofList, isPrefixOfWord]
  | append_singleton words entry ih =>
    rw [ofList_concat, isPrefixOfWord_insert, ih, ← and_or_left]
    simp only [List.mem_append, List.mem_singleton, or_and_right, exists_or, exists_eq_left,
      or_comm]

lemma size_ofList (words : List (List UInt8 × α)) :
    (ofList words).size = ((words.map Prod.fst).toFinset.erase []).card := by
  induction words using List.reverseRecOn with
  | nil => rfl
  | append_singleton words entry ih =>
    obtain ⟨w, tag⟩ := entry
    have hset : ((words ++ [(w, tag)]).map Prod.fst).toFinset =
        Insert.insert w (words.map Prod.fst).toFinset := by
      ext v
      simp
    rw [ofList_concat, size_insert, ih, hset]
    by_cases hw : w = []
    · rw [if_pos (.inl hw), hw, Finset.erase_insert_eq_erase, Nat.add_zero]
    · rw [Finset.erase_insert_of_ne hw]
      by_cases hmem : w ∈ words.map Prod.fst
      · have hin : w ∈ (words.map Prod.fst).toFinset.erase [] :=
          Finset.mem_erase.mpr ⟨hw, List.mem_toFinset.mpr hmem⟩
        rw [if_pos (.inr (isSome_get?_ofList.mpr ⟨hw, hmem⟩)), Finset.insert_eq_self.mpr hin,
          Nat.add_zero]
      · have hout : w ∉ (words.map Prod.fst).toFinset.erase [] :=
          fun h => hmem (List.mem_toFinset.mp (Finset.mem_of_mem_erase h))
        have hnew : ¬ (w = [] ∨ ((ofList words).get? w).isSome) := by
          rw [isSome_get?_ofList]
          exact fun h => h.elim hw fun h => hmem h.2
        rw [if_neg hnew, Finset.card_insert_of_notMem hout]

/-- A table of listed words reads the longest of them ahead, or nothing if there is none. -/
lemma find_ofList_cases (words : List (List UInt8 × α)) (src : Source) (s : Scan) :
    (∃ w tag, IsLastTag words w tag ∧ w <+: src.remaining s.position ∧
      (∀ entry ∈ words, entry.1 <+: src.remaining s.position → entry.1.length ≤ w.length) ∧
      (ofList words).find src s = (some tag, ⟨s.position.advanceOver w, s.kept ++ w.toArray⟩)) ∨
    (∀ entry ∈ words, entry.1 ≠ [] → ¬ entry.1 <+: src.remaining s.position) ∧
      (ofList words).find src s = (none, s) := by
  have hlisted : ∀ entry ∈ words, entry.1 ≠ [] → (ofList words).get? entry.1 ≠ none := by
    intro entry hentry hne
    rw [← Option.isSome_iff_ne_none]
    exact isSome_get?_ofList.mpr ⟨hne, List.mem_map_of_mem hentry⟩
  rw [find_eq]
  rcases (ofList words).longestIn_cases (src.remaining s.position) with
    ⟨w, tag, hlong, hw, hget, hmax⟩ | ⟨hlong, hnone⟩
  · refine .inl ⟨w, tag, get?_ofList_eq_some_iff.mp hget, hw, fun entry hentry hpre => ?_,
      by rw [hlong, ← Scan.keepAll_eq]⟩
    by_contra hlt
    have hne : entry.1 ≠ [] := List.ne_nil_of_length_pos (by omega)
    exact hlisted entry hentry hne (hmax entry.1 hpre (by omega))
  · rw [hlong]
    exact .inr ⟨fun entry hentry hne hpre => hlisted entry hentry hne (hnone entry.1 hpre), rfl⟩

/-- A table finds the longest listed word ahead with its last tag, reads that word and keeps it, and
leaves all as it is where no word lies ahead. It holds the listed words that are not empty, each
once and with its last tag, and knows their beginnings. -/
theorem lookups_ofList (words : List (List UInt8 × α)) :
    let table : KeywordTable α := ofList words
    (∀ (src : Source) (s : Scan),
      (∃ w tag, IsLastTag words w tag ∧ w <+: src.remaining s.position ∧
        (∀ entry ∈ words, entry.1 <+: src.remaining s.position → entry.1.length ≤ w.length) ∧
        table.find src s = (some tag, ⟨s.position.advanceOver w, s.kept ++ w.toArray⟩)) ∨
      (∀ entry ∈ words, entry.1 ≠ [] → ¬ entry.1 <+: src.remaining s.position) ∧
        table.find src s = (none, s)) ∧
    (∀ w tag, table.get? w = some tag ↔ IsLastTag words w tag) ∧
    (∀ w, (table.get? w).isSome = true ↔ w ≠ [] ∧ w ∈ words.map Prod.fst) ∧
    (∀ w, table.isPrefixOfWord w = true ↔ w ≠ [] ∧ ∃ entry ∈ words, w <+: entry.1) ∧
    table.size = ((words.map Prod.fst).toFinset.erase []).card := by
  intro table
  refine ⟨find_ofList_cases words, fun w tag => ?_, fun w => ?_, fun w => ?_, size_ofList words⟩
  · exact get?_ofList_eq_some_iff
  · exact isSome_get?_ofList
  · exact isPrefixOfWord_ofList words w

/-- Two bytes of a longer word lie ahead, and the shorter word before them is what is found. -/
example : (ofList [([60, 60, 61], 1), ([], 2), ([60], 3), ([60], 4)]).find
    (.ofBytes #[60, 60, 45]) (.fresh .start) = (some 4, ⟨⟨1, 2, 1⟩, #[60]⟩) := by decide

end KeywordTable

end ByteLexer
