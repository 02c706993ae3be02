import ByteLexer.Proofs.TableLookups

/-!
# Maps of words and their beginnings

The words of a table may also be kept in one map, which has an entry for every word and for every
beginning of one: first all beginnings are entered and then all words, so that a word that begins
another is a word. The longest word is found by walking a cursor along the text as long as there is
an entry for what has been read, and by setting it back to the last word on the way. The map answers
as the table does.
-/

namespace ByteLexer

/-- What is entered for some bytes: that a longer word begins with them, or that they are a word. -/
inductive WordEntry (α : Type) where
  | beginning
  | word (tag : α)

def WordEntry.isWord {α : Type} : WordEntry α → Bool
  | beginning => false
  | word _ => true

/-- Words with their tags, and the beginnings of words. -/
structure WordMap (α : Type) where
  entries : Std.HashMap (List UInt8) (WordEntry α)

/-- The nonempty beginnings of a word that are shorter than the word. -/
def beginnings (word : List UInt8) : List (List UInt8) :=
  (List.range' 1 (word.length - 1)).map word.take

namespace WordMap

variable {α : Type}

/-- Enters the beginnings of a word, where nothing is entered yet. -/
def enterBeginnings (m : WordMap α) (word : List UInt8) : WordMap α :=
  ⟨(beginnings word).foldl (fun entries w => entries.insertIfNew w .beginning) m.entries⟩

/-- Enters a word with its tag; the empty word is left out. -/
def enterWord (m : WordMap α) (word : List UInt8) (tag : α) : WordMap α :=
  if word = [] then m else ⟨m.entries.insert word (.word tag)⟩

def ofBeginnings (words : List (List UInt8 × α)) : WordMap α :=
  words.foldl (fun m (word, _) => m.enterBeginnings word) ⟨∅⟩

/-- The map of a list of words: all beginnings are entered, and then all words. -/
def ofList (words : List (List UInt8 × α)) : WordMap α :=
  words.foldl (fun m (word, tag) => m.enterWord word tag) (ofBeginnings words)

def get? (m : WordMap α) (w : List UInt8) : Option α :=
  match m.entries[w]? with
  | some (.word tag) => some tag
  | _ => none

def isPrefixOfWord (m : WordMap α) (w : List UInt8) : Bool := m.entries.contains w

/-- The number of words. -/
def size (m : WordMap α) : Nat := m.entries.toList.countP fun (_, entry) => entry.isWord

/-- Walks on from a place as long as there is an entry for what has been read, which is `candidate`
so far; `best` is the last word on the way, with the place after it and its length. -/
def walk (m : WordMap α) (src : Source) (pos : Position) (candidate : List UInt8)
    (best : Option (Position × Nat × α)) : List UInt8 × Option (Position × Nat × α) :=
  match _hpeek : src.peek pos with
  | none => (candidate, best)
  | some byte =>
    match m.entries[candidate ++ [byte]]? with
    | none => (candidate ++ [byte], best)
    | some .beginning => m.walk src (src.advance pos) (candidate ++ [byte]) best
    | some (.word tag) =>
      m.walk src (src.advance pos) (candidate ++ [byte])
        (some (src.advance pos, candidate.length + 1, tag))
termination_by src.bytes.size - pos.offset
decreasing_by
  all_goals
    obtain ⟨hadvance, hlt⟩ := Source.offset_advance_of_peek _hpeek
    omega

/-- Keeps the longest word ahead, gives its tag and sets the cursor back to the place after it;
without a word the cursor is set back to where it was. -/
def find (m : WordMap α) (src : Source) (s : Scan) : Option α × Scan :=
  match m.walk src s.position [] none with
  | (candidate, some (pos, length, tag)) =>
    (some tag, ⟨src.seek pos, s.kept ++ (candidate.take length).toArray⟩)
  | (_, none) => (none, ⟨src.seek s.position, s.kept⟩)

variable {words : List (List UInt8 × α)} {w word ahead further : List UInt8} {byte : UInt8}
  {tag : α}

lemma mem_beginnings : w ∈ beginnings word ↔ w ≠ [] ∧ w <+: word ∧ w ≠ word := by
  rw [beginnings, List.mem_map]
  constructor
  · rintro ⟨k, hk, rfl⟩
    have hk := List.mem_range'_1.mp hk
    have hlen : (word.take k).length = k := by
      rw [List.length_take]
      omega
    refine ⟨?_, List.take_prefix k word, ?_⟩
    · intro h
      rw [h, List.length_nil] at hlen
      omega
    · intro h
      rw [h] at hlen
      omega
  · rintro ⟨hne, hpre, hshort⟩
    have hpos := List.length_pos_iff.mpr hne
    have hlt : w.length < word.length :=
      lt_of_le_of_ne hpre.length_le fun h => hshort (hpre.eq_of_length h)
    exact ⟨w.length, List.mem_range'_1.mpr (by omega), (List.prefix_iff_eq_take.mp hpre).symm⟩

lemma getElem?_enterBeginnings (m : WordMap α) (word w : List UInt8) :
    (m.enterBeginnings word).entries[w]? =
      m.entries[w]?.or (if w ∈ beginnings word then some .beginning else none) := by
  have h : ∀ (ws : List (List UInt8)) (entries : Std.HashMap (List UInt8) (WordEntry α)),
      (ws.foldl (fun entries w => entries.insertIfNew w .beginning) entries)[w]? =
        entries[w]?.or (if w ∈ ws then some .beginning else none) := by
    intro ws
    induction ws with
    | nil => simp
    | cons v ws ih =>
      intro entries
      rw [List.foldl_cons, ih, Std.HashMap.getElem?_insertIfNew]
      by_cases hv : v = w
      · subst hv
        by_cases hold : v ∈ entries
        · simp [hold]
        · simp [hold]
      · simp [hv, Ne.symm hv]
  exact h (beginnings word) m.entries

/-- In the first pass the words themselves are entered only where they begin longer ones. -/
lemma getElem?_ofBeginnings (words : List (List UInt8 × α)) (w : List UInt8) :
    (ofBeginnings words).entries[w]? =
      if ∃ entry ∈ words, w ∈ beginnings entry.1 then some .beginning else none := by
  induction words using List.reverseRecOn with
  | nil => simp [ofBeginnings]
  | append_singleton words entry ih =>
    have hconcat : ofBeginnings (words ++ [entry]) =
        (ofBeginnings words).enterBeginnings entry.1 := by
      rw [ofBeginnings, List.foldl_append]
      rfl
    rw [hconcat, getElem?_enterBeginnings, ih]
    by_cases hold : ∃ entry ∈ words, w ∈ beginnings entry.1
    · have hboth : ∃ e ∈ words ++ [entry], w ∈ beginnings e.1 := by
        obtain ⟨e, he, hw⟩ := hold
        exact ⟨e, List.mem_append_left _ he, hw⟩
      rw [if_pos hold, if_pos hboth, Option.some_or]
    · rw [if_neg hold, Option.none_or]
      apply if_congr _ rfl rfl
      simp only [List.mem_append, List.mem_singleton, or_and_right, exists_or, exists_eq_left]
      exact (or_iff_right hold).symm

/-- The words are entered over the beginnings. -/
lemma getElem?_ofList (words : List (List UInt8 × α)) (w : List UInt8) :
    (ofList words).entries[w]? =
      (((KeywordTable.ofList words).get? w).map .word).or (ofBeginnings words).entries[w]? := by
  unfold ofList
  generalize ofBeginnings words = m
  induction words using List.reverseRecOn with
  | nil => simp [KeywordTable.ofList, KeywordTable.get?]
  | append_singleton words entry ih =>
    obtain ⟨word, tag⟩ := entry
    rw [List.foldl_append, KeywordTable.ofList_concat, KeywordTable.get?_insert]
    simp only [List.foldl_cons, List.foldl_nil, enterWord]
    by_cases hword : word = []
    · rw [if_pos hword, if_neg (fun h => h.2 hword)]
      exact ih
    · rw [if_neg hword, Std.HashMap.getElem?_insert]
      by_cases hw : w = word
      · simp [hw, hword]
      · rw [if_neg (by simpa using Ne.symm hw), if_neg (fun h => hw h.1)]
        exact ih

lemma get?_ofList (words : List (List UInt8 × α)) (w : List UInt8) :
    (ofList words).get? w = (KeywordTable.ofList words).get? w := by
  rw [get?, getElem?_ofList, getElem?_ofBeginnings]
  cases (KeywordTable.ofList words).get? w with
  | some tag => rfl
  | none =>
    by_cases h : ∃ entry ∈ words, w ∈ beginnings entry.1
    · rw [if_pos h]
      rfl
    · rw [if_neg h]
      rfl

lemma isSome_getElem?_ofList : (ofList words).entries[w]?.isSome = true ↔
    w ≠ [] ∧ ∃ entry ∈ words, w <+: entry.1 := by
  have hbeginning : (ofBeginnings words).entries[w]?.isSome = true ↔
      ∃ entry ∈ words, w ∈ beginnings entry.1 := by
    rw [getElem?_ofBeginnings]
    split
    · next h => exact iff_of_true rfl h
    · next h => exact iff_of_false Bool.false_ne_true h
  rw [getElem?_ofList, Option.isSome_or, Option.isSome_map, Bool.or_eq_true, hbeginning,
    KeywordTable.isSome_get?_ofList]
  constructor
  · rintro (⟨hne, hmem⟩ | ⟨entry, hentry, hw⟩)
    · obtain ⟨entry, hentry, rfl⟩ := List.mem_map.mp hmem
      exact ⟨hne, entry, hentry, List.prefix_rfl⟩
    · obtain ⟨hne, hpre, -⟩ := mem_beginnings.mp hw
      exact ⟨hne, entry, hentry, hpre⟩
  · rintro ⟨hne, entry, hentry, hpre⟩
    by_cases hw : w = entry.1
    · exact .inl ⟨hne, hw ▸ List.mem_map_of_mem hentry⟩
    · exact .inr ⟨entry, hentry, mem_beginnings.mpr ⟨hne, hpre, hw⟩⟩

lemma isPrefixOfWord_ofList (words : List (List UInt8 × α)) (w : List UInt8) :
    (ofList words).isPrefixOfWord w = (KeywordTable.ofList words).isPrefixOfWord w := by
  rw [Bool.eq_iff_iff, KeywordTable.isPrefixOfWord_ofList, isPrefixOfWord,
    Std.HashMap.contains_eq_isSome_getElem?, isSome_getElem?_ofList]

lemma isSome_get?_iff {m : WordMap α} :
    (m.get? w).isSome = true ↔ ∃ entry, m.entries[w]? = some entry ∧ entry.isWord = true := by
  rw [get?]
  cases m.entries[w]? with
  | none => simp
  | some entry =>
    cases entry with
    | beginning => simp [WordEntry.isWord]
    | word tag => simp [WordEntry.isWord]

/-- Every word has one entry, so the entries of words are as many as there are words. -/
lemma size_ofList (words : List (List UInt8 × α)) :
    (ofList words).size = (KeywordTable.ofList words).size := by
  let found := (ofList words).entries.toList.filter fun (_, entry) => entry.isWord
  have hnodup : (found.map Prod.fst).Nodup := by
    refine List.Nodup.sublist (List.filter_sublist.map _) ?_
    rw [Std.HashMap.map_fst_toList_eq_keys]
    exact Std.HashMap.nodup_keys
  have hmem : ∀ w, w ∈ found.map Prod.fst ↔ w ≠ [] ∧ w ∈ words.map Prod.fst := by
    intro w
    rw [← KeywordTable.isSome_get?_ofList, ← get?_ofList, isSome_get?_iff]
    simp [found, Std.HashMap.mem_toList_iff_getElem?_eq_some]
  have hwords : (found.map Prod.fst).toFinset = (words.map Prod.fst).toFinset.erase [] := by
    ext w
    rw [List.mem_toFinset, hmem, Finset.mem_erase, List.mem_toFinset]
  rw [KeywordTable.size_ofList, ← hwords, List.toFinset_card_of_nodup hnodup, List.length_map,
    size, List.countP_eq_length_filter]

end WordMap

namespace KeywordTable

variable {t : KeywordTable α}

/-- The longest word stays the same as long as no longer word comes into sight. -/
lemma longestIn_of_prefix (hpre : ahead <+: further)
    (hnone : ∀ v, v <+: further → ¬ v <+: ahead → t.get? v = none) :
    t.longestIn further = t.longestIn ahead := by
  rcases t.longestIn_cases ahead with ⟨w, tag, h, hw, hget, hmax⟩ | ⟨h, hall⟩
  · have hlong : IsLongestPrefix t.language further (some w) := by
      refine ⟨hw.trans hpre, Option.isSome_iff_exists.mpr ⟨tag, hget⟩, fun v hv hmem => ?_⟩
      by_contra hlt
      have hnot : t.get? v = none := by
        by_cases hv' : v <+: ahead
        · exact hmax v hv' (Nat.lt_of_not_le hlt)
        · exact hnone v hv hv'
      have hmem : (t.get? v).isSome = true := hmem
      rw [hnot] at hmem
      cases hmem
    rw [longestIn_of_isLongestPrefix hlong, hget, h, Option.map_some]
  · rcases t.longestIn_cases further with ⟨w, tag, h', hw, hget, -⟩ | ⟨h', -⟩
    · have hnot : t.get? w = none := by
        by_cases hw' : w <+: ahead
        · exact hall w hw'
        · exact hnone w hw hw'
      cases hget.symm.trans hnot
    · rw [h', h]

lemma longestIn_self (h : t.get? w = some tag) : t.longestIn w = some (w, tag) := by
  have hlong : IsLongestPrefix t.language w (some w) :=
    ⟨List.prefix_rfl, Option.isSome_iff_exists.mpr ⟨tag, h⟩, fun v hv _ => hv.length_le⟩
  rw [longestIn_of_isLongestPrefix hlong, h, Option.map_some]

lemma longestIn_concat_of_none (h : t.get? (w ++ [byte]) = none) :
    t.longestIn (w ++ [byte]) = t.longestIn w := by
  refine longestIn_of_prefix (List.prefix_append w [byte]) fun v hv hnot => ?_
  rcases List.prefix_concat_iff.mp hv with rfl | hv
  · exact h
  · exact (hnot hv).elim

end KeywordTable

namespace WordMap

lemma get?_eq_none_of_prefix (h : (ofList words).entries[w]? = none) (hne : w ≠ [])
    (hpre : w <+: word) : (KeywordTable.ofList words).get? word = none := by
  by_contra hsome
  have hlisted := KeywordTable.isSome_get?_ofList.mp (Option.isSome_iff_ne_none.mpr hsome)
  obtain ⟨entry, hentry, rfl⟩ := List.mem_map.mp hlisted.2
  have hentered := isSome_getElem?_ofList.mpr ⟨hne, entry, hentry, hpre⟩
  rw [h] at hentered
  cases hentered

/-- Behind bytes for which there is no entry no longer word comes into sight. -/
lemma longestIn_of_no_entry (h : (ofList words).entries[w ++ [byte]]? = none)
    (rest : List UInt8) :
    (KeywordTable.ofList words).longestIn (w ++ [byte] ++ rest) =
      (KeywordTable.ofList words).longestIn w := by
  have hnone : ∀ v, w ++ [byte] <+: v → (KeywordTable.ofList words).get? v = none := fun v =>
    get?_eq_none_of_prefix h (List.append_ne_nil_of_right_ne_nil w (List.cons_ne_nil byte []))
  apply KeywordTable.longestIn_of_prefix
  · rw [List.append_assoc]
    exact List.prefix_append w _
  · intro v hv hnot
    rcases List.prefix_or_prefix_of_prefix hv (List.prefix_append _ rest) with hv | hv
    · rcases List.prefix_concat_iff.mp hv with rfl | hv
      · exact hnone _ List.prefix_rfl
      · exact (hnot hv).elim
    · exact hnone v hv

/-- A place after a word, with the length and the tag of the word. -/
def mark (p : Position) (found : List UInt8 × α) : Position × Nat × α :=
  (p.advanceOver found.1, found.1.length, found.2)

/-- The walk goes on to where no longer word comes into sight, and has then marked the longest. -/
lemma walk_ofList (words : List (List UInt8 × α)) (src : Source) (p : Position)
    (candidate rest : List UInt8) (hrest : src.remaining (p.advanceOver candidate) = rest) :
    let t := KeywordTable.ofList words
    ∃ read, t.longestIn read = t.longestIn (candidate ++ rest) ∧
      (ofList words).walk src (p.advanceOver candidate) candidate
        ((t.longestIn candidate).map (mark p)) = (read, (t.longestIn read).map (mark p)) := by
  intro t
  have hpeek := src.peek_eq_head? (p.advanceOver candidate)
  -- On what is left of the text: the mark is that of the longest word in what has been read.
  induction rest generalizing candidate with
  | nil =>
    rw [hrest, List.head?_nil] at hpeek
    refine ⟨candidate, by rw [List.append_nil], ?_⟩
    rw [walk]
    split
    · rfl
    · next hsome => cases hpeek.symm.trans hsome
  | cons byte rest ih =>
    rw [hrest, List.head?_cons] at hpeek
    have hadvance : src.advance (p.advanceOver candidate) =
        p.advanceOver (candidate ++ [byte]) := by
      rw [Source.advance, hpeek, Position.advanceOver_append]
      rfl
    have hrest' : src.remaining (p.advanceOver (candidate ++ [byte])) = rest := by
      rw [← hadvance, Source.remaining_advance, hrest, List.tail_cons]
    have hget := get?_ofList words (candidate ++ [byte])
    rw [List.append_cons]
    obtain ⟨read, hread, hwalk⟩ := ih (candidate ++ [byte]) hrest' (src.peek_eq_head? _)
    rw [walk]
    split
    · next hnone => cases hpeek.symm.trans hnone
    · next b hsome =>
      obtain rfl : byte = b := Option.some.inj (hpeek.symm.trans hsome)
      rw [hadvance]
      split
      · next hentry =>
        have hlong := longestIn_of_no_entry hentry []
        rw [List.append_nil] at hlong
        refine ⟨candidate ++ [byte], ?_, ?_⟩
        · rw [longestIn_of_no_entry hentry rest, hlong]
        · rw [hlong]
      · next hentry =>
        rw [get?, hentry] at hget
        rw [KeywordTable.longestIn_concat_of_none hget.symm] at hwalk
        exact ⟨read, hread, hwalk⟩
      · next tag hentry =>
        rw [get?, hentry] at hget
        rw [KeywordTable.longestIn_self hget.symm] at hwalk
        refine ⟨read, hread, ?_⟩
        rw [← hwalk, Option.map_some, mark, List.length_append]
        rfl

/-- Setting the cursor back to the last word on the way keeps the longest word ahead. -/
lemma find_ofList (words : List (List UInt8 × α)) (src : Source) (s : Scan)
    (hle : s.position.offset ≤ src.bytes.size) :
    (ofList words).find src s = (KeywordTable.ofList words).find src s := by
  let t := KeywordTable.ofList words
  obtain ⟨read, hread, hwalk⟩ := walk_ofList words src s.position [] _ rfl
  rw [KeywordTable.longestIn_nil, Option.map_none, Position.advanceOver_nil] at hwalk
  rw [List.nil_append, Position.advanceOver_nil] at hread
  rw [find, hwalk, KeywordTable.find_eq, ← hread]
  rcases t.longestIn_cases read with ⟨w, tag, h, hw, -⟩ | ⟨h, -⟩
  · have hahead := t.isLongestPrefix_longestIn (src.remaining s.position)
    rw [← hread, h] at hahead
    have hin := Scan.offset_keepAll_le hle hahead.1
    rw [Scan.position_keepAll] at hin
    simp only [t, h, Option.map_some, mark, Source.seek_of_le hin, Scan.keepAll_eq,
      ← List.prefix_iff_eq_take.mp hw]
  · simp only [t, h, Option.map_none, Source.seek_of_le hle]

/-- The map of a list of words finds what the table of the list finds and leaves the scan where the
table does. It holds the same words with the same tags, and knows the same beginnings. -/
theorem answers_as_table (words : List (List UInt8 × α)) :
    let map : WordMap α := ofList words
    let table : KeywordTable α := .ofList words
    (∀ (src : Source) (s : Scan), s.position.offset ≤ src.bytes.size →
      map.find src s = table.find src s) ∧
    (∀ w, map.get? w = table.get? w) ∧
    (∀ w, map.isPrefixOfWord w = table.isPrefixOfWord w) ∧
    map.size = table.size :=
  ⟨find_ofList words, get?_ofList words, isPrefixOfWord_ofList words, size_ofList words⟩

end WordMap

end ByteLexer
