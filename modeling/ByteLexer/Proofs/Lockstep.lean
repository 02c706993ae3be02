import ByteLexer.Pattern.Basic
import Mathlib.Tactic.Common

/-!
# Recognisers in step

A recogniser sees of a source only what lies ahead of it, and whatever comes of it, it has kept just
the bytes it has read. Both are said at once by running it on two scans with the same text ahead:
they match or fail together, after the same bytes. The loops keep this for any recogniser that has
it, so every pattern has it.
-/

namespace ByteLexer

/-- Two scans inside their sources with the same text ahead. -/
structure Scan.Aligned (src src' : Source) (s s' : Scan) : Prop where
  le : s.position.offset ≤ src.bytes.size
  le' : s'.position.offset ≤ src'.bytes.size
  remaining_eq : src.remaining s.position = src'.remaining s'.position

/-- Two outcomes after reading the same bytes of `rest`. -/
def Outcome.Agree (rest : List UInt8) (s s' : Scan) (r r' : Outcome) : Prop :=
  ∃ bytes, bytes <+: rest ∧
    ((r = .matched (s.keepAll bytes) ∧ r' = .matched (s'.keepAll bytes)) ∨
      (r = .failed (s.keepAll bytes) ∧ r' = .failed (s'.keepAll bytes)))

/-- Two recognisers, each on its source, that agree on aligned scans. -/
def InStep (src src' : Source) (p p' : Scan → Outcome) : Prop :=
  ∀ s s', Scan.Aligned src src' s s' → Outcome.Agree (src.remaining s.position) s s' (p s) (p' s')

variable {src src' : Source} {s s' : Scan} {bytes rest : List UInt8} {r r' : Outcome}
  {p p' q q' : Scan → Outcome}

lemma Source.remaining_keepAll (src : Source) (s : Scan) (bytes : List UInt8) :
    src.remaining (s.keepAll bytes).position = (src.remaining s.position).drop bytes.length := by
  rw [Scan.position_keepAll, Source.remaining, Source.remaining, Position.offset_advanceOver,
    List.drop_drop]

lemma Source.length_remaining_keepAll_le (src : Source) (s : Scan) (bytes : List UInt8) :
    (src.remaining (s.keepAll bytes).position).length ≤ (src.remaining s.position).length := by
  rw [Source.remaining_keepAll, List.length_drop]
  exact Nat.sub_le _ _

lemma Scan.offset_keepAll (s : Scan) (bytes : List UInt8) :
    (s.keepAll bytes).position.offset = s.position.offset + bytes.length := by
  rw [Scan.position_keepAll, Position.offset_advanceOver]

lemma Scan.offset_keepAll_le (hle : s.position.offset ≤ src.bytes.size)
    (hb : bytes <+: src.remaining s.position) :
    (s.keepAll bytes).position.offset ≤ src.bytes.size := by
  have hlen := hb.length_le
  rw [Source.length_remaining] at hlen
  rw [Scan.offset_keepAll]
  omega

lemma Scan.Aligned.keepAll (h : Scan.Aligned src src' s s')
    (hb : bytes <+: src.remaining s.position) :
    Scan.Aligned src src' (s.keepAll bytes) (s'.keepAll bytes) where
  le := Scan.offset_keepAll_le h.le hb
  le' := Scan.offset_keepAll_le h.le' (h.remaining_eq ▸ hb)
  remaining_eq := by rw [Source.remaining_keepAll, Source.remaining_keepAll, h.remaining_eq]

lemma Scan.moved_keepAll (s : Scan) (bytes : List UInt8) :
    s.checkpoint.moved (s.keepAll bytes).position = !bytes.isEmpty := by
  cases bytes with
  | nil => simp [Checkpoint.moved, Scan.checkpoint]
  | cons byte bytes =>
    have hne : s.position ≠ (s.keepAll (byte :: bytes)).position := by
      intro h
      have hoff := congrArg Position.offset h
      rw [Scan.offset_keepAll, List.length_cons] at hoff
      omega
    simp [Checkpoint.moved, Scan.checkpoint, -Scan.keepAll_cons, hne]

/-- Going back takes away all that was kept since, and nothing else. -/
lemma Scan.restore_keepAll (hle : s.position.offset ≤ src.bytes.size) (bytes : List UInt8) :
    (s.keepAll bytes).restore src s.checkpoint = s := by
  have hkept : (s.keepAll bytes).kept.shrink s.kept.size = s.kept := by
    apply Array.ext'
    simp [Scan.kept_keepAll]
  rw [Scan.restore, Scan.checkpoint, Source.seek_of_le hle, hkept]

lemma Outcome.agree_matched : Outcome.Agree rest s s' (.matched s) (.matched s') :=
  ⟨[], List.nil_prefix, .inl ⟨rfl, rfl⟩⟩

lemma Outcome.agree_failed : Outcome.Agree rest s s' (.failed s) (.failed s') :=
  ⟨[], List.nil_prefix, .inr ⟨rfl, rfl⟩⟩

/-- What comes after some bytes comes after them and those before. -/
lemma Outcome.Agree.after (hb : bytes <+: src.remaining s.position)
    (h : Outcome.Agree (src.remaining (s.keepAll bytes).position) (s.keepAll bytes)
      (s'.keepAll bytes) r r') : Outcome.Agree (src.remaining s.position) s s' r r' := by
  obtain ⟨more, hmore, hr⟩ := h
  rw [Source.remaining_keepAll] at hmore
  refine ⟨bytes ++ more, ?_, by simpa only [Scan.keepAll_append] using hr⟩
  obtain ⟨left, hleft⟩ := hb
  rw [← hleft, List.drop_left] at hmore
  rw [← hleft]
  exact List.prefix_append_right_inj bytes |>.mpr hmore

/-- Where both outcomes stop, and that they are of one kind. -/
lemma Outcome.Agree.scan_eq (h : Outcome.Agree rest s s' r r') :
    ∃ bytes, bytes <+: rest ∧ r.scan = s.keepAll bytes ∧ r'.scan = s'.keepAll bytes ∧
      r'.isMatch = r.isMatch := by
  obtain ⟨bytes, hb, ⟨rfl, rfl⟩ | ⟨rfl, rfl⟩⟩ := h
  · exact ⟨bytes, hb, rfl, rfl, rfl⟩
  · exact ⟨bytes, hb, rfl, rfl, rfl⟩

lemma InStep.andThen (hp : InStep src src' p p') (hq : InStep src src' q q') :
    InStep src src' (fun s => (p s).andThen q) (fun s => (p' s).andThen q') := by
  intro s s' ha
  obtain ⟨bytes, hb, ⟨h, h'⟩ | ⟨h, h'⟩⟩ := hp s s' ha
  · simp only [h, h', Outcome.andThen_matched]
    exact (hq _ _ (ha.keepAll hb)).after hb
  · simp only [h, h', Outcome.andThen_failed]
    exact ⟨bytes, hb, .inr ⟨rfl, rfl⟩⟩

lemma inStep_matched : InStep src src' .matched .matched := fun _ _ _ => Outcome.agree_matched

lemma inStep_failed : InStep src src' .failed .failed := fun _ _ _ => Outcome.agree_failed

lemma inStep_byteIf (test : UInt8 → Bool) :
    InStep src src' (·.byteIf src test) (·.byteIf src' test) := by
  intro s s' ha
  have hpeek : src'.peek s'.position = src.peek s.position := by
    rw [Source.peek_eq_head?, Source.peek_eq_head?, ha.remaining_eq]
  simp only [Scan.byteIf, hpeek]
  cases hbyte : src.peek s.position with
  | none => exact Outcome.agree_failed
  | some byte =>
    dsimp only
    split
    · refine ⟨[byte], ?_, .inl ⟨rfl, rfl⟩⟩
      rw [Source.peek_eq_head?] at hbyte
      obtain ⟨left, hleft⟩ := List.head?_eq_some_iff.mp hbyte
      exact ⟨left, hleft.symm⟩
    · exact Outcome.agree_failed

lemma inStep_read (n : Nat) : InStep src src' (·.read src n) (·.read src' n) := by
  induction n with
  | zero => exact inStep_matched
  | succ n ih => exact (inStep_byteIf _).andThen ih

lemma Scan.read_eq {n : Nat} (hn : n ≤ (src.remaining s.position).length) :
    s.read src n = .matched (s.keepAll ((src.remaining s.position).take n)) := by
  induction n generalizing s with
  | zero => rfl
  | succ n ih =>
    cases hrest : src.remaining s.position with
    | nil => simp [hrest] at hn
    | cons byte rest =>
      have hnext : src.remaining (s.keep byte).position = rest := by
        have h := src.remaining_keepAll s [byte]
        rwa [hrest] at h
      have hle : n ≤ (src.remaining (s.keep byte).position).length := by
        rw [hrest, List.length_cons] at hn
        rw [hnext]
        omega
      have hbyte : s.byteIf src (fun _ => true) = .matched (s.keep byte) := by
        simp [Scan.byteIf, Source.peek_eq_head?, hrest]
      rw [Scan.read, hbyte, Outcome.andThen_matched, ih hle, hnext, List.take_succ_cons,
        Scan.keepAll_cons]

lemma Scan.read_of_prefix (h : bytes <+: src.remaining s.position) :
    s.read src bytes.length = .matched (s.keepAll bytes) := by
  rw [Scan.read_eq h.length_le, ← List.prefix_iff_eq_take.mp h]

lemma inStep_readAll (bytes : List UInt8) :
    InStep src src' (Pattern.readAll src bytes) (Pattern.readAll src' bytes) := by
  induction bytes with
  | nil => exact inStep_matched
  | cons byte bytes ih => exact (inStep_byteIf _).andThen ih

lemma inStep_readMatch (length : Option Nat) :
    InStep src src' (Pattern.readMatch src length) (Pattern.readMatch src' length) := by
  cases length with
  | none => exact inStep_failed
  | some n => exact inStep_read n

lemma InStep.exactly (hp : InStep src src' p p') (n : Nat) :
    InStep src src' (Pattern.exactly p n) (Pattern.exactly p' n) := by
  induction n with
  | zero => exact inStep_matched
  | succ n ih => exact hp.andThen ih

lemma InStep.upTo (hp : InStep src src' p p') (n : Nat) :
    InStep src src' (Pattern.upTo p n) (Pattern.upTo p' n) := by
  induction n with
  | zero => exact inStep_matched
  | succ n ih =>
    intro s s' ha
    obtain ⟨bytes, hb, ⟨h, h'⟩ | ⟨h, h'⟩⟩ := hp s s' ha
    · simp only [Pattern.upTo, Pattern.marked, h, h', Scan.moved_keepAll]
      split
      · exact (ih _ _ (ha.keepAll hb)).after hb
      · exact ⟨bytes, hb, .inl ⟨rfl, rfl⟩⟩
    · simp only [Pattern.upTo, Pattern.marked, h, h', Scan.moved_keepAll]
      split
      · exact ⟨bytes, hb, .inr ⟨rfl, rfl⟩⟩
      · exact ⟨bytes, hb, .inl ⟨rfl, rfl⟩⟩

lemma InStep.untilClosed (hp : InStep src src' p p') (hq : InStep src src' q q') (n : Nat) :
    InStep src src' (Pattern.untilClosed p q n) (Pattern.untilClosed p' q' n) := by
  induction n with
  | zero => exact inStep_failed
  | succ n ih =>
    intro s s' ha
    obtain ⟨ends, he, ⟨h, h'⟩ | ⟨h, h'⟩⟩ := hq s s' ha
    · simp only [Pattern.untilClosed, h, h']
      exact ⟨ends, he, .inl ⟨rfl, rfl⟩⟩
    · have ha' := ha.keepAll he
      refine Outcome.Agree.after he ?_
      obtain ⟨bytes, hb, ⟨hm, hm'⟩ | ⟨hm, hm'⟩⟩ := hp _ _ ha'
      · simp only [Pattern.untilClosed, Pattern.marked, h, h', hm, hm', Checkpoint.offset,
          Scan.checkpoint, Scan.offset_keepAll _ bytes, Nat.add_eq_left]
        split
        · exact ⟨bytes, hb, .inr ⟨rfl, rfl⟩⟩
        · exact (ih _ _ (ha'.keepAll hb)).after hb
      · simp only [Pattern.untilClosed, Pattern.marked, h, h', hm, hm']
        exact ⟨bytes, hb, .inr ⟨rfl, rfl⟩⟩

lemma InStep.choice (hp : InStep src src' p p') (hq : InStep src src' q q') :
    InStep src src' (Pattern.choice p q) (Pattern.choice p' q') := by
  intro s s' ha
  obtain ⟨bytes, hb, ⟨h, h'⟩ | ⟨h, h'⟩⟩ := hp s s' ha
  · simp only [Pattern.choice, Pattern.marked, h, h']
    exact ⟨bytes, hb, .inl ⟨rfl, rfl⟩⟩
  · simp only [Pattern.choice, Pattern.marked, h, h', Scan.moved_keepAll]
    split
    · exact ⟨bytes, hb, .inr ⟨rfl, rfl⟩⟩
    · exact (hq _ _ (ha.keepAll hb)).after hb

lemma InStep.speculate (hp : InStep src src' p p') :
    InStep src src' (Pattern.speculate src p) (Pattern.speculate src' p') := by
  intro s s' ha
  obtain ⟨bytes, hb, ⟨h, h'⟩ | ⟨h, h'⟩⟩ := hp s s' ha
  · simp only [Pattern.speculate, Pattern.marked, h, h']
    exact ⟨bytes, hb, .inl ⟨rfl, rfl⟩⟩
  · simp only [Pattern.speculate, Pattern.marked, h, h', Scan.restore_keepAll ha.le,
      Scan.restore_keepAll ha.le']
    exact Outcome.agree_failed

lemma Source.getElem?_add (src : Source) (pos : Position) (k : Nat) :
    src.bytes[pos.offset + k]? = (src.remaining pos)[k]? := by
  rw [Source.remaining, List.getElem?_drop, Array.getElem?_toList]

lemma Scan.Aligned.getElem?_eq (ha : Scan.Aligned src src' s s') (k : Nat) :
    src.bytes[s.position.offset + k]? = src'.bytes[s'.position.offset + k]? := by
  rw [Source.getElem?_add, Source.getElem?_add, ha.remaining_eq]

lemma Scan.Aligned.left_eq (ha : Scan.Aligned src src' s s') :
    src.bytes.size - s.position.offset = src'.bytes.size - s'.position.offset := by
  rw [← Source.length_remaining, ← Source.length_remaining, ha.remaining_eq]

lemma Automaton.longestFrom_congr (a : Automaton) {first first' : Nat}
    (h : ∀ k, src.bytes[first + k]? = src'.bytes[first' + k]?) (rounds read : Nat)
    (frontier : List Nat) (best : Option Nat) :
    a.longestFrom src first rounds read frontier best =
      a.longestFrom src' first' rounds read frontier best := by
  induction rounds generalizing read frontier best with
  | zero => rfl
  | succ rounds ih => simp only [longestFrom, h, ih]

lemma Automaton.longestMatch_congr (a : Automaton) (ha : Scan.Aligned src src' s s') :
    a.longestMatch src s.position = a.longestMatch src' s'.position := by
  simp only [longestMatch, ha.left_eq, a.longestFrom_congr ha.getElem?_eq]

lemma KeywordTable.longestFrom_congr {α : Type} (t : KeywordTable α) {first first' : Nat}
    (h : ∀ k, src.bytes[first + k]? = src'.bytes[first' + k]?) (read : Nat)
    (best : Option (Nat × α)) :
    t.longestFrom src first read best = t.longestFrom src' first' read best := by
  induction t generalizing read best with
  | empty => rfl
  | branch byte tag longer others ihl iho => simp only [longestFrom, h, ihl, iho]

lemma KeywordTable.longest_congr {α : Type} (t : KeywordTable α)
    (ha : Scan.Aligned src src' s s') :
    t.longest src s.position = t.longest src' s'.position :=
  t.longestFrom_congr ha.getElem?_eq 0 none

/-- Looking up a word finds the same word with the same tag, or nothing. -/
lemma KeywordTable.find_inStep {α : Type} (t : KeywordTable α) (ha : Scan.Aligned src src' s s') :
    ∃ tag bytes, bytes <+: src.remaining s.position ∧ t.find src s = (tag, s.keepAll bytes) ∧
      t.find src' s' = (tag, s'.keepAll bytes) := by
  simp only [find, t.longest_congr ha]
  cases t.longest src' s'.position with
  | none => exact ⟨none, [], List.nil_prefix, rfl, rfl⟩
  | some found =>
    obtain ⟨length, tag⟩ := found
    obtain ⟨bytes, hb, h, h', -⟩ := (inStep_read length s s' ha).scan_eq
    exact ⟨some tag, bytes, hb, congrArg (some tag, ·) h, congrArg (some tag, ·) h'⟩

lemma inStep_readMatch_of_eq {f f' : Scan → Option Nat}
    (h : ∀ s s', Scan.Aligned src src' s s' → f s = f' s') :
    InStep src src' (fun s => Pattern.readMatch src (f s) s)
      (fun s => Pattern.readMatch src' (f' s) s) := by
  intro s s' ha
  simp only [h s s' ha]
  exact inStep_readMatch _ s s' ha

/-- Every pattern runs in step with itself on any two sources. -/
lemma Pattern.run_inStep (src src' : Source) (p : Pattern) :
    InStep src src' (p.run src) (p.run src') := by
  induction p with
  | ofClass c =>
    cases hc : c.isEpsilon with
    | true => simpa [run, hc] using inStep_matched
    | false => simpa [run, hc] using inStep_byteIf c.contains
  | satisfy test => exact inStep_byteIf test
  | literal bytes => exact inStep_readAll bytes
  | seq first second ih₁ ih₂ => exact ih₁.andThen ih₂
  | alt first second ih₁ ih₂ => exact ih₁.choice ih₂
  | attempt p ih => exact ih.speculate
  | repetition p least most ih => exact (ih.exactly least).andThen (ih.upTo (most - least))
  | bracket opening body closing ih₁ ih₂ ih₃ =>
    refine ih₁.andThen fun s s' ha => ?_
    rw [ha.left_eq]
    exact ih₂.untilClosed ih₃ _ s s' ha
  | eof =>
    intro s s' ha
    have hend : src.atEnd s.position = src'.atEnd s'.position := by
      simp only [Source.atEnd, Source.peek_eq_head?, ha.remaining_eq]
    simp only [run, hend]
    split
    · exact Outcome.agree_matched
    · exact Outcome.agree_failed
  | nop => exact inStep_matched
  | automaton a => exact inStep_readMatch_of_eq fun s s' ha => a.longestMatch_congr ha
  | keywords t => exact inStep_readMatch_of_eq fun s s' ha => by rw [t.longest_congr ha]

end ByteLexer
