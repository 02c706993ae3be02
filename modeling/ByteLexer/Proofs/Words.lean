import ByteLexer.Lexer.DefaultRules
import ByteLexer.Proofs.LongestMatch
import ByteLexer.Proofs.Numbers
import Mathlib.Data.List.TakeWhile

/-!
# The languages of words

A table of words reads the longest of its words that lies ahead, and an automaton the longest text
of its language. Both come down to the run of word bytes ahead when only words are concerned: a
table of whole words reads the run if the run is listed and nothing otherwise, and the automaton of
identifiers reads the run if it does not begin with a digit.
-/

open scoped Computability

namespace ByteLexer

open Automaton (oneByte)

/-- The word bytes up to the first other byte. -/
def wordRun (ahead : List UInt8) : List UInt8 := ahead.takeWhile ByteClass.word.contains

namespace KeywordTable

variable {α : Type} {t : KeywordTable α} {src : Source} {s : Scan} {ahead w : List UInt8} {tag : α}
  {words : List (List UInt8 × α)}

/-- The words of a table. -/
def language (t : KeywordTable α) : Language UInt8 := {w | (t.get? w).isSome}

/-- The longest word that a text begins with, and its tag. -/
def longestIn : KeywordTable α → List UInt8 → Option (List UInt8 × α)
  | empty, _ => none
  | branch _ _ _ _, [] => none
  | branch byte tag longer others, first :: rest =>
    if first = byte then
      ((longer.longestIn rest).map fun (w, tag) => (byte :: w, tag)).or (tag.map ([byte], ·))
    else others.longestIn (first :: rest)

@[simp] lemma get?_nil (t : KeywordTable α) : t.get? [] = none := by
  cases t <;> rfl

@[simp] lemma longestIn_nil (t : KeywordTable α) : t.longestIn [] = none := by
  cases t <;> rfl

/-- A word listed more than once has its last tag, and the empty word has none. -/
lemma get?_ofList (words : List (List UInt8 × α)) (w : List UInt8) :
    (ofList words).get? w =
      if w = [] then none else (words.reverse.find? (·.1 == w)).map (·.2) := by
  have h : ∀ t : KeywordTable α, (words.foldl (fun t (word, tag) => t.insert word tag) t).get? w =
      if w = [] then none else ((words.reverse.find? (·.1 == w)).map (·.2)).or (t.get? w) := by
    induction words with
    | nil =>
      intro t
      by_cases hw : w = []
      · simp [hw]
      · simp [hw]
    | cons entry words ih =>
      intro t
      rw [List.foldl_cons, ih, get?_insert, List.reverse_cons, List.find?_append]
      by_cases hw : w = []
      · simp [hw]
      · by_cases hentry : entry.1 = w
        · subst hentry
          simp [hw]
        · simp [hw, Ne.symm hentry, hentry]
  rw [ofList, h]
  simp [get?]

lemma mem_of_get?_ofList (h : (ofList words).get? w = some tag) : (w, tag) ∈ words := by
  rw [get?_ofList] at h
  split at h
  · cases h
  · obtain ⟨entry, hfind, rfl⟩ := Option.map_eq_some_iff.mp h
    have hw : entry.1 = w := by simpa using List.find?_some hfind
    rw [← hw]
    exact List.mem_reverse.mp (List.mem_of_find?_eq_some hfind)

lemma get?_branch_self (byte : UInt8) (own : Option α) (longer others : KeywordTable α)
    (u : List UInt8) :
    (branch byte own longer others).get? (byte :: u) = if u = [] then own else longer.get? u := by
  simp [get?]

lemma get?_branch_of_ne {first byte : UInt8} (h : first ≠ byte) (own : Option α)
    (longer others : KeywordTable α) (u : List UInt8) :
    (branch byte own longer others).get? (first :: u) = others.get? (first :: u) := by
  simp [get?, h]

/-- The longest word is listed with its tag, and no longer one lies ahead. -/
lemma longestIn_cases (t : KeywordTable α) (ahead : List UInt8) :
    (∃ w tag, t.longestIn ahead = some (w, tag) ∧ w <+: ahead ∧ t.get? w = some tag ∧
      ∀ v, v <+: ahead → w.length < v.length → t.get? v = none) ∨
    (t.longestIn ahead = none ∧ ∀ v, v <+: ahead → t.get? v = none) := by
  induction t generalizing ahead with
  | empty => exact .inr ⟨rfl, fun v _ => rfl⟩
  | branch byte own longer others ihl iho =>
    cases ahead with
    | nil =>
      refine .inr ⟨rfl, fun v hv => ?_⟩
      rw [List.prefix_nil.mp hv, get?_nil]
    | cons first rest =>
      by_cases hfirst : first = byte
      · subst hfirst
        rcases ihl rest with ⟨w, tag, h, hw, hget, hmax⟩ | ⟨h, hnone⟩
        · have hne : w ≠ [] := by
            rintro rfl
            rw [get?_nil] at hget
            cases hget
          refine .inl ⟨first :: w, tag, by simp [longestIn, h],
            List.cons_prefix_cons.mpr ⟨rfl, hw⟩, by rw [get?_branch_self, if_neg hne, hget], ?_⟩
          intro v hv hlt
          rcases List.prefix_cons_iff.mp hv with rfl | ⟨u, rfl, hu⟩
          · exact get?_nil _
          · have hlt : w.length < u.length := by simpa using hlt
            have hne : u ≠ [] := List.ne_nil_of_length_pos (by omega)
            rw [get?_branch_self, if_neg hne, hmax u hu hlt]
        · -- Nothing longer lies ahead, so the word that ends with the first byte is the longest.
          have hlonger : ∀ u, u <+: rest → u ≠ [] →
              (branch first own longer others).get? (first :: u) = none := by
            intro u hu hne
            rw [get?_branch_self, if_neg hne, hnone u hu]
          cases own with
          | none =>
            refine .inr ⟨by simp [longestIn, h], fun v hv => ?_⟩
            rcases List.prefix_cons_iff.mp hv with rfl | ⟨u, rfl, hu⟩
            · exact get?_nil _
            · by_cases hne : u = []
              · rw [get?_branch_self, if_pos hne]
              · exact hlonger u hu hne
          | some tag =>
            refine .inl ⟨[first], tag, by simp [longestIn, h], ⟨rest, rfl⟩,
              by rw [get?_branch_self, if_pos rfl], fun v hv hlt => ?_⟩
            rcases List.prefix_cons_iff.mp hv with rfl | ⟨u, rfl, hu⟩
            · exact get?_nil _
            · exact hlonger u hu (List.ne_nil_of_length_pos (by simpa using hlt))
      · have hget : ∀ v, v <+: first :: rest →
            (branch byte own longer others).get? v = others.get? v := by
          intro v hv
          rcases List.prefix_cons_iff.mp hv with rfl | ⟨u, rfl, -⟩
          · rw [get?_nil, get?_nil]
          · exact get?_branch_of_ne hfirst own longer others u
        have hlong : (branch byte own longer others).longestIn (first :: rest) =
            others.longestIn (first :: rest) := if_neg hfirst
        rw [hlong]
        rcases iho (first :: rest) with ⟨w, tag, h, hw, hw', hmax⟩ | ⟨h, hnone⟩
        · exact .inl ⟨w, tag, h, hw, (hget w hw).trans hw',
            fun v hv hlt => (hget v hv).trans (hmax v hv hlt)⟩
        · exact .inr ⟨h, fun v hv => (hget v hv).trans (hnone v hv)⟩

lemma isLongestPrefix_longestIn (t : KeywordTable α) (ahead : List UInt8) :
    IsLongestPrefix t.language ahead ((t.longestIn ahead).map (·.1)) := by
  rcases t.longestIn_cases ahead with ⟨w, tag, h, hw, hget, hmax⟩ | ⟨h, hnone⟩
  · rw [h]
    refine ⟨hw, Option.isSome_iff_exists.mpr ⟨tag, hget⟩, fun v hv hmem => ?_⟩
    by_contra hlt
    have hmem : (t.get? v).isSome = true := hmem
    rw [hmax v hv (Nat.lt_of_not_le hlt)] at hmem
    cases hmem
  · rw [h]
    intro v hv hmem
    have hmem : (t.get? v).isSome = true := hmem
    rw [hnone v hv] at hmem
    cases hmem

lemma get?_of_longestIn (h : t.longestIn ahead = some (w, tag)) : t.get? w = some tag := by
  rcases t.longestIn_cases ahead with ⟨w', tag', h', -, hget, -⟩ | ⟨h', -⟩
  · cases h.symm.trans h'
    exact hget
  · cases h.symm.trans h'

lemma longestIn_of_isLongestPrefix (h : IsLongestPrefix t.language ahead (some w)) :
    t.longestIn ahead = (t.get? w).map (w, ·) := by
  have hlong := (t.isLongestPrefix_longestIn ahead).unique h
  obtain ⟨⟨w', tag⟩, hfound, rfl⟩ := Option.map_eq_some_iff.mp hlong
  rw [hfound, get?_of_longestIn hfound, Option.map_some]

/-- The walk along a text finds the longest word. -/
lemma longestFrom_eq (t : KeywordTable α) (src : Source) (first read : Nat)
    (best : Option (Nat × α)) :
    t.longestFrom src first read best =
      ((t.longestIn (src.bytes.toList.drop (first + read))).map
        fun (w, tag) => (read + w.length, tag)).or best := by
  induction t generalizing read best with
  | empty => rfl
  | branch byte own longer others ihl iho =>
    have hbyte : src.bytes[first + read]? = (src.bytes.toList.drop (first + read)).head? := by
      simp
    rw [longestFrom, hbyte, ihl, iho, ← Nat.add_assoc, ← List.tail_drop]
    cases src.bytes.toList.drop (first + read) with
    | nil => simp
    | cons b rest =>
      by_cases hb : b = byte
      · subst hb
        cases hlong : longer.longestIn rest with
        | none => cases own <;> simp [longestIn, hlong]
        | some found => simp [longestIn, hlong, Nat.add_assoc, Nat.add_comm 1]
      · simp [longestIn, hb]

lemma longest_eq (t : KeywordTable α) (src : Source) (pos : Position) :
    t.longest src pos =
      (t.longestIn (src.remaining pos)).map fun (w, tag) => (w.length, tag) := by
  rw [longest, longestFrom_eq]
  simp [Source.remaining]

lemma find_eq (t : KeywordTable α) (s : Scan) :
    t.find src s = match t.longestIn (src.remaining s.position) with
      | some (w, tag) => (some tag, s.keepAll w)
      | none => (none, s) := by
  rw [find, longest_eq]
  cases h : t.longestIn (src.remaining s.position) with
  | none => rfl
  | some found =>
    obtain ⟨w, tag⟩ := found
    have hlong := t.isLongestPrefix_longestIn (src.remaining s.position)
    rw [h] at hlong
    simp only [Option.map_some, Scan.read_of_prefix hlong.1, Outcome.scan]

end KeywordTable

variable {ahead w rest : List UInt8} {c : ByteClass} {a : Automaton}

lemma wordRun_append (hw : ∀ b ∈ w, ByteClass.word.contains b = true) (rest : List UInt8) :
    wordRun (w ++ rest) = w ++ wordRun rest :=
  List.takeWhile_append_of_pos hw

lemma prefix_wordRun (ahead : List UInt8) : wordRun ahead <+: ahead := List.takeWhile_prefix _

lemma contains_of_mem_wordRun {b : UInt8} (h : b ∈ wordRun ahead) :
    ByteClass.word.contains b = true := List.mem_takeWhile_imp h

lemma wordRun_eq_nil_iff : wordRun rest = [] ↔ rest.head?.any ByteClass.word.contains = false := by
  cases rest with
  | nil => simp [wordRun]
  | cons b rest => cases hb : ByteClass.word.contains b <;> simp [wordRun, hb]

/-- Of words that consist of word bytes, the longest one ahead that no word byte follows is the run
of word bytes, if that is one of them. -/
lemma KeywordTable.wholeWord_eq {α : Type} {t : KeywordTable α}
    (ht : ∀ w ∈ t.language, ∀ b ∈ w, ByteClass.word.contains b = true) (ahead : List UInt8) :
    ((t.longestIn ahead).filter fun found =>
      !(ahead.drop found.1.length).head?.any ByteClass.word.contains) =
      (t.get? (wordRun ahead)).map (wordRun ahead, ·) := by
  rcases t.longestIn_cases ahead with ⟨w, tag, h, hw, hget, hmax⟩ | ⟨h, hnone⟩
  · obtain ⟨rest, rfl⟩ := hw
    have hword := ht w (Option.isSome_iff_exists.mpr ⟨tag, hget⟩)
    simp only [h, wordRun_append hword, Option.filter_some, List.drop_left]
    by_cases hrest : wordRun rest = []
    · rw [hrest, List.append_nil, hget, if_pos (by simp [wordRun_eq_nil_iff.mp hrest]),
        Option.map_some]
    · have hany : rest.head?.any ByteClass.word.contains = true := by
        rw [← Bool.not_eq_false, ← wordRun_eq_nil_iff]
        exact hrest
      have hlonger : t.get? (w ++ wordRun rest) = none := by
        refine hmax _ ((List.prefix_append_right_inj w).mpr (prefix_wordRun rest)) ?_
        have hpos := List.length_pos_iff.mpr hrest
        rw [List.length_append]
        omega
      rw [hlonger, if_neg (by simp [hany]), Option.map_none]
  · rw [h, hnone _ (prefix_wordRun ahead)]
    rfl

lemma Pattern.isLongestPrefix_automaton (a : Automaton) (ahead : List UInt8) :
    IsLongestPrefix a.language ahead ((automaton a).reads? ahead) := by
  have hlong := a.longestMatch_isLongest (.ofBytes ahead.toArray) .start
  have hrun : (automaton a).run (.ofBytes ahead.toArray) (.fresh .start) =
      readMatch (.ofBytes ahead.toArray) (a.longestMatch (.ofBytes ahead.toArray) .start)
        (.fresh .start) := rfl
  rw [reads?, hrun]
  cases hn : a.longestMatch (.ofBytes ahead.toArray) .start with
  | none =>
    rw [hn] at hlong
    exact fun v hv hmem => hlong.eq_none_iff.mp rfl v.length ⟨v, hv, hmem, rfl⟩
  | some n =>
    rw [hn] at hlong
    obtain ⟨⟨w, hw, hmem, rfl⟩, hmax⟩ := (hlong.eq_some_iff n).mp rfl
    have hread : (Scan.fresh .start).read (.ofBytes ahead.toArray) w.length =
        .matched ((Scan.fresh .start).keepAll w) := Scan.read_of_prefix hw
    rw [readMatch, hread, kept?_matched]
    exact ⟨hw, hmem, fun v hv hv' => hmax ⟨v, hv, hv', rfl⟩⟩

lemma Pattern.goesBack_automaton (a : Automaton) : (automaton a).GoesBack := by
  intro src s t _ h
  have hlong := a.longestMatch_isLongest src s.position
  have hrun : (automaton a).run src s = readMatch src (a.longestMatch src s.position) s := rfl
  rw [hrun] at h
  cases hn : a.longestMatch src s.position with
  | none =>
    rw [hn] at h
    cases h
    rfl
  | some n =>
    rw [hn] at h hlong
    obtain ⟨⟨w, hw, -, rfl⟩, -⟩ := (hlong.eq_some_iff n).mp rfl
    rw [readMatch, Scan.read_of_prefix hw] at h
    cases h

lemma Pattern.run_keywords (t : KeywordTable Unit) (src : Source) (s : Scan) :
    (keywords t).run src s = match t.longestIn (src.remaining s.position) with
      | some (w, _) => .matched (s.keepAll w)
      | none => .failed s := by
  have hrun : (keywords t).run src s = readMatch src ((t.longest src s.position).map (·.1)) s := rfl
  rw [hrun, t.longest_eq]
  cases h : t.longestIn (src.remaining s.position) with
  | none => rfl
  | some found =>
    have hlong := t.isLongestPrefix_longestIn (src.remaining s.position)
    rw [h] at hlong
    exact Scan.read_of_prefix hlong.1

lemma Pattern.isLongestPrefix_keywords (t : KeywordTable Unit) (ahead : List UInt8) :
    IsLongestPrefix t.language ahead ((keywords t).reads? ahead) := by
  have hreads : (keywords t).reads? ahead = (t.longestIn ahead).map (·.1) := by
    rw [reads?, run_keywords, Scan.fresh, remaining_ofBytes]
    cases t.longestIn ahead with
    | none => rfl
    | some found => exact kept?_matched found.1 .start
  rw [hreads]
  exact t.isLongestPrefix_longestIn ahead

lemma Pattern.goesBack_keywords (t : KeywordTable Unit) : (keywords t).GoesBack := by
  intro src s u _ h
  rw [run_keywords] at h
  split at h
  · cases h
  · cases h
    rfl

/-- The bytes that begin an identifier. -/
def identifierStart : ByteClass := ByteClass.alpha ∪ ByteClass.char '_'

lemma language_identifierAutomaton :
    Rule.identifierAutomaton.language = oneByte identifierStart * (oneByte ByteClass.word)∗ := by
  have hstart := Automaton.language_ofClass identifierStart
  have hword := Automaton.language_ofClass ByteClass.word
  rw [if_neg (by decide)] at hstart hword
  rw [Rule.identifierAutomaton, Automaton.language_append (Automaton.closed_ofClass _)
    (Automaton.closed_ofClass _).star, Automaton.language_star (Automaton.closed_ofClass _), hword]
  exact congrArg (· * _) hstart

/-- Words go on with what they begin with and with digits. -/
lemma contains_word (b : UInt8) : ByteClass.word.contains b =
    (identifierStart.contains b || (ByteClass.digit 10).contains b) := by
  rw [ByteClass.word, ByteClass.alnum, identifierStart, ByteClass.contains_union,
    ByteClass.contains_union, ByteClass.contains_union, Bool.or_right_comm]

lemma contains_word_of_start {b : UInt8} (h : identifierStart.contains b = true) :
    ByteClass.word.contains b = true := by
  rw [contains_word, h, Bool.true_or]

/-- An identifier is the run of word bytes, if it begins as one does. -/
lemma reads?_identifier (ahead : List UInt8) :
    (Pattern.automaton Rule.identifierAutomaton).reads? ahead =
      if ahead.head?.any identifierStart.contains then some (wordRun ahead) else none := by
  have hlong := Pattern.isLongestPrefix_automaton Rule.identifierAutomaton ahead
  rw [language_identifierAutomaton] at hlong
  refine hlong.unique ?_
  cases ahead with
  | nil =>
    rintro v hv ⟨u, ⟨b, -, rfl⟩, t, -, rfl⟩
    exact List.cons_ne_nil _ _ (List.prefix_nil.mp hv)
  | cons b rest =>
    rw [List.head?_cons, Option.any_some]
    split
    · next hb =>
      have hrun : wordRun (b :: rest) = [b] ++ wordRun rest :=
        wordRun_append (w := [b]) (fun x hx => List.mem_singleton.mp hx ▸ contains_word_of_start hb)
          rest
      refine ⟨prefix_wordRun _, ?_, ?_⟩
      · rw [hrun]
        exact Language.append_mem_mul ⟨b, hb, rfl⟩
          (Lexeme.mem_kstar_oneByte.mpr fun x hx => contains_of_mem_wordRun hx)
      · rintro v hv ⟨u, ⟨x, hx, rfl⟩, t, ht, rfl⟩
        have hword : ∀ y ∈ [x] ++ t, ByteClass.word.contains y = true := by
          intro y hy
          rcases List.mem_append.mp hy with hy | hy
          · exact List.mem_singleton.mp hy ▸ contains_word_of_start hx
          · exact Lexeme.mem_kstar_oneByte.mp ht y hy
        obtain ⟨s, hs⟩ := hv
        rw [← hs, wordRun_append hword]
        exact (List.prefix_append _ _).length_le
    · next hb =>
      rintro v hv ⟨u, ⟨x, hx, rfl⟩, t, -, rfl⟩
      obtain ⟨rfl, -⟩ := List.cons_prefix_cons.mp hv
      exact hb hx

end ByteLexer
