import ByteLexer.Proofs.NumberGrammars

/-!
# Digits of any base

Digits are read in whatever base is asked for, not only in those that have a prefix. The digits of a
base are the first ones of thirty-six, so a larger base has all of them, and a base below two has
none. They are read as far as they go, in groups with underscores between them. Behind the last
group underscores are taken up with the hope of another group and given back, so what has been read
ends with a digit.
-/

open scoped Computability

namespace ByteLexer.Lexeme

open Automaton (oneByte)
open Pattern
open Text.Utf8 (encode)

/-- The digits in the order of their values, with small letters. -/
def smallDigits : List UInt8 := encode "0123456789abcdefghijklmnopqrstuvwxyz"

/-- The digits in the order of their values, with large letters. -/
def largeDigits : List UInt8 := encode "0123456789ABCDEFGHIJKLMNOPQRSTUVWXYZ"

/-- A byte is the digit of a value, in either case. -/
def IsDigitOf (value : Nat) (b : UInt8) : Prop :=
  smallDigits[value]? = some b ∨ largeDigits[value]? = some b

/-- The digits of a base: those of the values below it, up to thirty-six. -/
def baseDigits (base : Nat) : Set UInt8 :=
  {b | 2 ≤ base ∧ ∃ value < min base 36, IsDigitOf value b}

/-- One byte of a set. -/
def OneIn (S : Set UInt8) : Language UInt8 := {w | ∃ b ∈ S, w = [b]}

/-- One or more digits of a base, and any number of times one or more underscores and one or more
digits. -/
def DigitGroups (base : Nat) : Language UInt8 :=
  OneOrMore (OneIn (baseDigits base)) *
    (OneOrMore (OneOf "_") * OneOrMore (OneIn (baseDigits base)))∗

variable {base value : Nat} {b : UInt8} {src : Source} {s : Scan}

lemma digitValue?_eq_some_iff : ByteClass.digitValue? b = some value ↔ IsDigitOf value b := by
  have hvalue : ∀ b ∈ allBytes, ∀ v ∈ ByteClass.digitValue? b,
    smallDigits[v]? = some b ∨ largeDigits[v]? = some b := by decide +kernel
  have hdigit : ∀ digits ∈ [smallDigits, largeDigits], ∀ v < digits.length, ∀ b ∈ digits[v]?,
    ByteClass.digitValue? b = some v := by decide +kernel
  constructor
  · intro h
    exact hvalue b (ByteClass.mem_allBytes b) value h
  · rintro (h | h)
    · exact hdigit smallDigits (by simp) value (List.getElem?_eq_some_iff.mp h).1 b h
    · exact hdigit largeDigits (by simp) value (List.getElem?_eq_some_iff.mp h).1 b h

lemma IsDigitOf.lt (h : IsDigitOf value b) : value < 36 := by
  have hsmall : smallDigits.length = 36 := by decide
  have hlarge : largeDigits.length = 36 := by decide
  rcases h with h | h
  · exact hsmall ▸ (List.getElem?_eq_some_iff.mp h).1
  · exact hlarge ▸ (List.getElem?_eq_some_iff.mp h).1

lemma members_digit (base : Nat) : (ByteClass.digit base).members = baseDigits base := by
  ext b
  rw [mem_digit]
  apply and_congr_right
  intro _
  constructor
  · rintro ⟨value, hvalue, hlt⟩
    have hdigit := digitValue?_eq_some_iff.mp hvalue
    exact ⟨value, lt_min hlt hdigit.lt, hdigit⟩
  · rintro ⟨value, hlt, hdigit⟩
    exact ⟨value, digitValue?_eq_some_iff.mpr hdigit, hlt.trans_le (min_le_left base 36)⟩

lemma digits_eq_digitGroups (base : Nat) : Digits base = DigitGroups base := by
  have hdigit : oneByte (.digit base) = OneIn (baseDigits base) := by
    rw [← members_digit]
    rfl
  have hscore : oneByte (.char '_') = OneOf "_" := oneByte_ofString "_"
  unfold Digits Run
  rw [hdigit, hscore]
  rfl

lemma singleton_mem_digits (hb : b ∈ (ByteClass.digit base).members) : [b] ∈ Digits base := by
  have hone : [b] ∈ oneByte (.digit base) := ⟨b, hb, rfl⟩
  have hrun : [b] ∈ Run (.digit base) :=
    Language.append_mem_mul hone (Language.nil_mem_kstar (oneByte (.digit base)))
  exact Language.append_mem_mul hrun (Language.nil_mem_kstar (Group base))

/-- A group that is broken off is given back, and there need be no other group. -/
lemma goesBack_digits (base : Nat) : (digits base).GoesBack := by
  apply ((goesBack_ofClass (.digit base)).repetition_one unbounded).seq
  intro ahead
  exact (goesBack_attempt _).reads?_repetition_isSome unbounded ahead

/-- In every base digits are read where one lies ahead, and elsewhere nothing is. They are read as
far as the groups of digits go, and what has been read ends with a digit, so no underscore has been
read that no digit follows. -/
theorem digits_take_longest (base : Nat) (src : Source) (s : Scan) (hfits : FitsMemory src.bytes)
    (hle : s.position.offset ≤ src.bytes.size) :
    ((digits base).run src s = .failed s ↔ ∀ b ∈ src.peek s.position, b ∉ baseDigits base) ∧
    ∀ b ∈ src.peek s.position, b ∈ baseDigits base →
      ∃ w ∈ DigitGroups base, w <+: src.remaining s.position ∧
        (∀ v ∈ DigitGroups base, v <+: src.remaining s.position → v.length ≤ w.length) ∧
        (digits base).run src s = .matched ⟨s.position.advanceOver w, s.kept ++ w.toArray⟩ ∧
        ∃ d ∈ w.getLast?, d ∈ baseDigits base := by
  have hlong := munches_digits base _ (hfits.length_remaining_le s.position)
  have hsingle : ∀ b ∈ baseDigits base, [b] ∈ DigitGroups base := by
    intro b hb
    rw [← digits_eq_digitGroups]
    exact singleton_mem_digits (members_digit base ▸ hb)
  rw [Source.peek_eq_head?, (goesBack_digits base).run_eq hle]
  cases hread : (digits base).reads? (src.remaining s.position) with
  | none =>
    have hnone : ∀ b ∈ (src.remaining s.position).head?, b ∉ baseDigits base := by
      intro b hb hdigit
      obtain ⟨rest, hrest⟩ := List.head?_eq_some_iff.mp hb
      rw [hread, digits_eq_digitGroups] at hlong
      exact hlong [b] ⟨rest, hrest.symm⟩ (hsingle b hdigit)
    exact ⟨iff_of_true rfl hnone, fun b hb hdigit => (hnone b hb hdigit).elim⟩
  | some w =>
    rw [hread] at hlong
    obtain ⟨hpre, hmem, hmax⟩ := hlong
    have hfirst : ∃ b ∈ (src.remaining s.position).head?, b ∈ baseDigits base := by
      cases w with
      | nil => exact (nil_notMem_digits base hmem).elim
      | cons b w =>
        obtain ⟨rest, hrest⟩ := hpre
        rw [← hrest, ← members_digit]
        exact ⟨b, rfl, beginsIn_digits base b w hmem⟩
    have hlast : ∃ d ∈ w.getLast?, d ∈ baseDigits base := by
      rw [← members_digit]
      exact endsIn_digits base w hmem
    constructor
    · apply iff_of_false
      · intro h
        cases h
      · intro h
        obtain ⟨b, hb, hdigit⟩ := hfirst
        exact h b hb hdigit
    · intro b _ _
      rw [digits_eq_digitGroups] at hmem hmax
      exact ⟨w, hmem, hpre, fun v hv hpre' => hmax v hpre' hv,
        congrArg Outcome.matched (s.keepAll_eq w), hlast⟩

/-- A base that is too large has all the digits and gives back the underscores that no digit
follows; at an underscore no digits are read, and in base one there are none. -/
theorem digits_take_longest_trailing :
    let src := Source.ofBytes (encode "x\n1__Zz_-").toArray
    let s : Scan := ⟨⟨2, 1, 2⟩, #[33]⟩
    let s' : Scan := ⟨⟨2, 2, 3⟩, #[33]⟩
    (FitsMemory src.bytes ∧ s.position.offset ≤ src.bytes.size ∧
      s'.position.offset ≤ src.bytes.size) ∧
    (49 ∈ src.peek s.position ∧ 49 ∈ baseDigits 40 ∧
      ∃ w ∈ DigitGroups 40, w <+: src.remaining s.position ∧
        (∀ v ∈ DigitGroups 40, v <+: src.remaining s.position → v.length ≤ w.length) ∧
        (digits 40).run src s = .matched ⟨s.position.advanceOver w, s.kept ++ w.toArray⟩ ∧
        ∃ d ∈ w.getLast?, d ∈ baseDigits 40) ∧
    (digits 40).run src s = .matched ⟨⟨2, 6, 7⟩, #[33] ++ (encode "1__Zz").toArray⟩ ∧
    (digits 40).run src s' = .failed s' ∧ (digits 1).run src s = .failed s := by
  intro src s s'
  have hfits : FitsMemory src.bytes := by decide
  have hle : s.position.offset ≤ src.bytes.size := by decide
  have hle' : s'.position.offset ≤ src.bytes.size := by decide
  have hpeek : 49 ∈ src.peek s.position := by decide
  have hdigit : 49 ∈ baseDigits 40 := ⟨by decide, 1, by decide, .inl (by decide)⟩
  have hscore : ∀ b ∈ src.peek s'.position, b ∉ baseDigits 40 := by
    rintro b hb ⟨-, value, -, hvalue⟩
    have hb' : b = 95 := Option.mem_unique hb (by decide)
    have hnone : ByteClass.digitValue? 95 = none := by decide
    rw [← digitValue?_eq_some_iff, hb', hnone] at hvalue
    cases hvalue
  have hone : ∀ b ∈ src.peek s.position, b ∉ baseDigits 1 := by
    rintro b - ⟨hbase, -⟩
    exact absurd hbase (by decide)
  exact ⟨⟨hfits, hle, hle'⟩,
    ⟨hpeek, hdigit, (digits_take_longest 40 src s hfits hle).2 49 hpeek hdigit⟩, by decide +kernel,
    (digits_take_longest 40 src s' hfits hle').1.mpr hscore,
    (digits_take_longest 1 src s hfits hle).1.mpr hone⟩

end ByteLexer.Lexeme
