import ByteLexer.Proofs.Gaps

/-!
# Runs and the text ahead

Whatever comes of a run, it has gone on over some of the text ahead and kept just that, so what was
kept before is still there and line and column are right, also after a failure. And nothing but the
text ahead has a say in it: not the place in the source or the name of the source, and not what was
read or kept before.
-/

namespace ByteLexer

/-- The scan `t` is `s` gone on to a place ahead, with the bytes in between kept after the rest. -/
structure Scan.GoneOn (src : Source) (s t : Scan) : Prop where
  le : s.position.offset ≤ t.position.offset
  le_size : t.position.offset ≤ src.bytes.size
  kept_eq : t.kept = s.kept ++ src.slice s.position.offset t.position.offset
  position_eq : t.position =
    s.position.advanceOver (src.slice s.position.offset t.position.offset).toList

/-- The scans `t` and `t'` are `s` and `s'` after reading and keeping the same bytes. -/
def Scan.SameReading (s t s' t' : Scan) : Prop :=
  ∃ bytes : List UInt8, t = ⟨s.position.advanceOver bytes, s.kept ++ bytes.toArray⟩ ∧
    t' = ⟨s'.position.advanceOver bytes, s'.kept ++ bytes.toArray⟩

variable {src src' : Source} {s s' : Scan} {bytes : List UInt8}

lemma Scan.keepAll_eq (s : Scan) (bytes : List UInt8) :
    s.keepAll bytes = ⟨s.position.advanceOver bytes, s.kept ++ bytes.toArray⟩ := by
  have hkept : (s.keepAll bytes).kept = s.kept ++ bytes.toArray := by
    apply Array.ext'
    rw [Scan.kept_keepAll, Array.toList_append]
  rw [← Scan.position_keepAll, ← hkept]

lemma Scan.goneOn_keepAll (hle : s.position.offset ≤ src.bytes.size)
    (hb : bytes <+: src.remaining s.position) : Scan.GoneOn src s (s.keepAll bytes) := by
  have hslice : src.slice s.position.offset (s.keepAll bytes).position.offset = bytes.toArray := by
    rw [Scan.offset_keepAll]
    exact Source.slice_eq_toArray hb
  refine ⟨?_, Scan.offset_keepAll_le hle hb, ?_, ?_⟩
  · rw [Scan.offset_keepAll]
    exact Nat.le_add_right _ _
  · rw [hslice, Scan.keepAll_eq]
  · rw [hslice, Scan.position_keepAll]

lemma Scan.sameReading_keepAll (s s' : Scan) (bytes : List UInt8) :
    Scan.SameReading s (s.keepAll bytes) s' (s'.keepAll bytes) :=
  ⟨bytes, s.keepAll_eq bytes, s'.keepAll_eq bytes⟩

/-- From any place of the text, whatever its line and column, a pattern goes on over some of the
text ahead and keeps just that, whether it matches or fails. So does looking up a word. -/
theorem run_goes_on (src : Source) (s : Scan) (hle : s.position.offset ≤ src.bytes.size) :
    (∀ p : Pattern, Scan.GoneOn src s (p.run src s).scan) ∧
    ∀ {α : Type} (t : KeywordTable α), Scan.GoneOn src s (t.find src s).2 := by
  have ha : Scan.Aligned src src s s := ⟨hle, hle, rfl⟩
  refine ⟨fun p => ?_, fun t => ?_⟩
  · obtain ⟨bytes, hb, hscan, -⟩ := Outcome.Agree.scan_eq (p.run_inStep src src s s ha)
    rw [hscan]
    exact Scan.goneOn_keepAll hle hb
  · obtain ⟨tag, bytes, hb, hfind, -⟩ := t.find_inStep ha
    rw [hfind]
    exact Scan.goneOn_keepAll hle hb

/-- A word that is broken off after a line end, in the middle of a text. -/
theorem run_goes_on_broken_off :
    let src := Source.ofBytes (Text.Utf8.encode "xab\ny").toArray
    let s : Scan := ⟨⟨7, 3, 1⟩, #[33]⟩
    let p := Pattern.ofString "ab\nz"
    s.position.offset ≤ src.bytes.size ∧
    p.run src s = .failed ⟨⟨8, 1, 4⟩, #[33, 97, 98, 10]⟩ ∧
    Scan.GoneOn src s (p.run src s).scan := by
  intro src s p
  have hle : s.position.offset ≤ src.bytes.size := by decide
  exact ⟨hle, by decide, (run_goes_on src s hle).1 p⟩

/-- At two places with the same text ahead, whatever the sources, what was read there before and
what was kept, a pattern comes out alike and reads and keeps the same bytes, also when it fails. So
does looking up a word. -/
theorem run_depends_on_text_ahead (ha : Scan.Aligned src src' s s') :
    (∀ p : Pattern, (p.run src' s').isMatch = (p.run src s).isMatch ∧
      Scan.SameReading s (p.run src s).scan s' (p.run src' s').scan) ∧
    ∀ {α : Type} (t : KeywordTable α), (t.find src' s').1 = (t.find src s).1 ∧
      Scan.SameReading s (t.find src s).2 s' (t.find src' s').2 := by
  refine ⟨fun p => ?_, fun t => ?_⟩
  · obtain ⟨bytes, -, hscan, hscan', hmatch⟩ :=
      Outcome.Agree.scan_eq (p.run_inStep src src' s s' ha)
    rw [hscan, hscan']
    exact ⟨hmatch, s.sameReading_keepAll s' bytes⟩
  · obtain ⟨tag, bytes, -, hfind, hfind'⟩ := t.find_inStep ha
    rw [hfind, hfind']
    exact ⟨rfl, s.sameReading_keepAll s' bytes⟩

/-- A choice that gives up after its first pattern has read a byte, on the second line of one text
and at the beginning of another. -/
theorem run_depends_on_text_ahead_overrun :
    let src : Source := ⟨"first", (Text.Utf8.encode "x\nab").toArray⟩
    let src' : Source := ⟨"second", (Text.Utf8.encode "ab").toArray⟩
    let s : Scan := ⟨⟨2, 1, 2⟩, #[120, 10]⟩
    let s' : Scan := .fresh .start
    let p := (Pattern.ofString "ac").alt (.ofString "ab")
    Scan.Aligned src src' s s' ∧ (p.run src s).isMatch = false ∧
    (p.run src' s').isMatch = (p.run src s).isMatch ∧
    Scan.SameReading s (p.run src s).scan s' (p.run src' s').scan := by
  intro src src' s s' p
  have ha : Scan.Aligned src src' s s' := ⟨by decide, by decide, by decide⟩
  exact ⟨ha, by decide, (run_depends_on_text_ahead ha).1 p⟩

end ByteLexer
