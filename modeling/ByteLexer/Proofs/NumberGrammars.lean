import ByteLexer.Proofs.NumberReadings
import ByteLexer.Proofs.Stream
import ByteLexer.Proofs.TextAhead

/-!
# Number grammars

The numbers of the lexer written out as regular languages over their spelling: which digits a base
has, which prefix names it, and where signs, points and exponents may stand. The patterns of numbers
take the longest text of these grammars that lies ahead, though they try the bases one after the
other and read the same digits more than once.
-/

open scoped Computability

namespace ByteLexer

open Automaton (oneByte)
open ByteClass (isEpsilon_ofList)
open Pattern
open Text.Utf8 (encode)

/-- Run from some state of a scan, a pattern takes the longest text of `L` ahead: it matches if and
only if there is one, and then it has read and kept the longest. -/
def Pattern.TakesLongest (p : Pattern) (L : Language UInt8) (src : Source) (s : Scan) : Prop :=
  ((p.run src s).isMatch = true ↔ ∃ w ∈ L, w <+: src.remaining s.position) ∧
  ∀ t, p.run src s = .matched t → ∃ w ∈ L, w <+: src.remaining s.position ∧
    (∀ v ∈ L, v <+: src.remaining s.position → v.length ≤ w.length) ∧
    t = ⟨s.position.advanceOver w, s.kept ++ w.toArray⟩

lemma Pattern.Munches.takesLongest {p : Pattern} {L : Language UInt8} {src : Source} {s : Scan}
    (hp : p.Munches L) (hfits : FitsMemory src.bytes) (hle : s.position.offset ≤ src.bytes.size) :
    p.TakesLongest L src s := by
  have hlong := hp _ (hfits.length_remaining_le s.position)
  unfold TakesLongest
  obtain ⟨w, hw, hpre, hrun⟩ | ⟨w, hw, -, hrun⟩ := p.run_cases hle
  · rw [hw] at hlong
    rw [hrun]
    constructor
    · exact iff_of_true rfl ⟨w, hlong.2.1, hpre⟩
    · intro t ht
      cases ht
      exact ⟨w, hlong.2.1, hpre, fun v hv hv' => hlong.2.2 v hv' hv, s.keepAll_eq w⟩
  · rw [hw] at hlong
    rw [hrun]
    constructor
    · apply iff_of_false Bool.false_ne_true
      rintro ⟨v, hv, hv'⟩
      exact hlong v hv' hv
    · intro t ht
      cases ht

namespace Lexeme

/-- One of the bytes of a string. -/
def OneOf (s : String) : Language UInt8 := {w | ∃ b ∈ encode s, w = [b]}

/-- The bytes of a string. -/
def Spelling (s : String) : Language UInt8 := {encode s}

/-- One or more texts of a language, one after the other. -/
def OneOrMore (L : Language UInt8) : Language UInt8 := L * L∗

/-- Groups of digits with underscores between them. -/
def Grouped (digits : String) : Language UInt8 :=
  OneOrMore (OneOf digits) * (OneOrMore (OneOf "_") * OneOrMore (OneOf digits))∗

def BinaryDigits : Language UInt8 := Grouped "01"

def QuaternaryDigits : Language UInt8 := Grouped "0123"

def OctalDigits : Language UInt8 := Grouped "01234567"

def DecimalDigits : Language UInt8 := Grouped "0123456789"

def HexadecimalDigits : Language UInt8 := Grouped "0123456789abcdefABCDEF"

/-- Digits, a point and digits. -/
def Pointed (D : Language UInt8) : Language UInt8 := D * (Spelling "." * D)

def OptionalSign : Language UInt8 := 1 + OneOf "+-"

/-- The letter of an exponent, a sign if any, and decimal digits. -/
def DecimalExponent : Language UInt8 := OneOf "eE" * (OptionalSign * DecimalDigits)

/-- Pointed digits that may have an exponent, or digits that have one. -/
def Scaled (D : Language UInt8) : Language UInt8 :=
  Pointed D * (1 + DecimalExponent) + D * DecimalExponent

/-- The form of a number in each base behind the prefix of the base, or without one in base ten. -/
def Prefixed (binary quaternary octal decimal hexadecimal : Language UInt8) : Language UInt8 :=
  Spelling "0b" * binary + Spelling "0q" * quaternary + Spelling "0o" * octal +
    Spelling "0d" * decimal + Spelling "0x" * hexadecimal + decimal

/-- Whole numbers. -/
def WholeNumbers : Language UInt8 :=
  OptionalSign * Prefixed BinaryDigits QuaternaryDigits OctalDigits DecimalDigits HexadecimalDigits

/-- Numbers with a point. -/
def PointedNumbers : Language UInt8 :=
  OptionalSign * Prefixed (Pointed BinaryDigits) (Pointed QuaternaryDigits) (Pointed OctalDigits)
    (Pointed DecimalDigits) (Pointed HexadecimalDigits)

/-- Real numbers. Hexadecimal ones have a point and no exponent. -/
def RealNumbers : Language UInt8 :=
  OptionalSign * Prefixed (Scaled BinaryDigits) (Scaled QuaternaryDigits) (Scaled OctalDigits)
    (Scaled DecimalDigits) (Pointed HexadecimalDigits)

variable {L M : Language UInt8} {S T : Set UInt8} {w : List UInt8} {c : ByteClass}
  {text digits : String} {base : Nat}

lemma oneByte_eq_oneOf (h : ∀ b, c.contains b = (encode text).contains b) :
    oneByte c = OneOf text := by
  ext w
  constructor
  · rintro ⟨b, hb, rfl⟩
    rw [h, List.contains_iff_mem] at hb
    exact ⟨b, hb, rfl⟩
  · rintro ⟨b, hb, rfl⟩
    refine ⟨b, ?_, rfl⟩
    rw [h, List.contains_iff_mem]
    exact hb

lemma oneByte_ofString (text : String) : oneByte (.ofString text) = OneOf text := by
  apply oneByte_eq_oneOf
  intro b
  unfold ByteClass.ofString
  exact ByteClass.contains_ofList _ b

/-- The bases that have a prefix, with their digits. -/
def alphabets : List (Nat × String) :=
  [(2, "01"), (4, "0123"), (8, "01234567"), (10, "0123456789"), (16, "0123456789abcdefABCDEF")]

lemma contains_digit (h : (base, digits) ∈ alphabets) (b : UInt8) :
    (ByteClass.digit base).contains b = (encode digits).contains b := by
  have hall : ∀ entry ∈ alphabets, ¬ entry.1 < 2 ∧ ∀ b ∈ allBytes,
    (ByteClass.digitValue? b).any (· < entry.1) = (encode entry.2).contains b := by decide +kernel
  obtain ⟨hbase, hdigits⟩ := hall _ h
  unfold ByteClass.digit
  rw [if_neg hbase, ByteClass.contains_ofPred, hdigits b (ByteClass.mem_allBytes b)]

lemma digits_eq_grouped (h : (base, digits) ∈ alphabets) : Digits base = Grouped digits := by
  have hdigit : oneByte (.digit base) = OneOf digits := oneByte_eq_oneOf (contains_digit h)
  have hscore : oneByte (.char '_') = OneOf "_" := oneByte_ofString "_"
  unfold Digits Run
  rw [hdigit, hscore]
  rfl

lemma fraction_eq_pointed (h : (base, digits) ∈ alphabets) :
    Fraction base = Pointed (Grouped digits) := by
  have hpoint : oneByte (.char '.') = Spelling "." := by
    ext w
    constructor
    · rintro ⟨b, hb, rfl⟩
      have hb : b ∈ (ByteClass.char '.').members := hb
      rw [members_char] at hb
      rw [hb]
      rfl
    · rintro rfl
      exact ⟨46, by decide, rfl⟩
  unfold Fraction Pointed
  rw [digits_eq_grouped h, hpoint]

lemma optionalSign_eq : 1 + oneByte .sign = OptionalSign := by
  unfold OptionalSign ByteClass.sign
  rw [oneByte_ofString]

lemma exponent_eq : Exponent = DecimalExponent := by
  have hdecimal : (10, "0123456789") ∈ alphabets := by decide
  unfold Exponent DecimalExponent DecimalDigits
  rw [optionalSign_eq, digits_eq_grouped hdecimal, oneByte_ofString]

lemma realDigits_eq_scaled (h : (base, digits) ∈ alphabets) (hne : base ≠ 16) :
    RealDigits base = Scaled (Grouped digits) := by
  unfold RealDigits Scaled
  rw [if_neg hne, fraction_eq_pointed h, digits_eq_grouped h, exponent_eq]

lemma realDigits_sixteen : RealDigits 16 = Pointed HexadecimalDigits := by
  have hsixteen : (16, "0123456789abcdefABCDEF") ∈ alphabets := by decide
  unfold RealDigits HexadecimalDigits
  rw [if_pos rfl, fraction_eq_pointed hsixteen]

lemma inBase_eq_prefixed {L : Nat → Language UInt8}
    {binary quaternary octal decimal hexadecimal : Language UInt8} (htwo : L 2 = binary)
    (hfour : L 4 = quaternary) (height : L 8 = octal) (hten : L 10 = decimal)
    (hsixteen : L 16 = hexadecimal) :
    InBase L = Prefixed binary quaternary octal decimal hexadecimal := by
  subst htwo hfour height hten hsixteen
  unfold Prefixed
  simp only [add_assoc]
  rfl

lemma integers_eq : Integers = WholeNumbers := by
  have hdigits : ∀ entry ∈ alphabets, Digits entry.1 = Grouped entry.2 :=
    fun entry hentry => digits_eq_grouped hentry
  simp only [alphabets, List.forall_mem_cons] at hdigits
  obtain ⟨htwo, hfour, height, hten, hsixteen, -⟩ := hdigits
  unfold Integers WholeNumbers
  rw [optionalSign_eq, inBase_eq_prefixed htwo hfour height hten hsixteen]
  rfl

lemma mantissas_eq : Mantissas = PointedNumbers := by
  have hfraction : ∀ entry ∈ alphabets, Fraction entry.1 = Pointed (Grouped entry.2) :=
    fun entry hentry => fraction_eq_pointed hentry
  simp only [alphabets, List.forall_mem_cons] at hfraction
  obtain ⟨htwo, hfour, height, hten, hsixteen, -⟩ := hfraction
  unfold Mantissas PointedNumbers
  rw [optionalSign_eq, inBase_eq_prefixed htwo hfour height hten hsixteen]
  rfl

lemma reals_eq : Reals = RealNumbers := by
  have hscaled : ∀ entry ∈ alphabets, entry.1 ≠ 16 →
      RealDigits entry.1 = Scaled (Grouped entry.2) :=
    fun entry hentry => realDigits_eq_scaled hentry
  simp only [alphabets, List.forall_mem_cons] at hscaled
  obtain ⟨htwo, hfour, height, hten, -, -⟩ := hscaled
  unfold Reals RealNumbers
  rw [optionalSign_eq, inBase_eq_prefixed (htwo (by decide)) (hfour (by decide))
    (height (by decide)) (hten (by decide)) realDigits_sixteen]
  rfl

/-- The texts of `L` are not empty and end with bytes of `S`. -/
def EndsIn (L : Language UInt8) (S : Set UInt8) : Prop := ∀ w ∈ L, ∃ b ∈ w.getLast?, b ∈ S

lemma EndsIn.mono (h : EndsIn L S) (hST : S ⊆ T) : EndsIn L T := by
  intro w hw
  obtain ⟨b, hb, hS⟩ := h w hw
  exact ⟨b, hb, hST hS⟩

lemma EndsIn.mul (h : EndsIn M S) (L : Language UInt8) : EndsIn (L * M) S := by
  intro w hw
  obtain ⟨u, -, v, hv, rfl⟩ := Language.mem_mul.mp hw
  obtain ⟨b, hb, hS⟩ := h v hv
  refine ⟨b, ?_, hS⟩
  rw [List.getLast?_append, Option.mem_def.mp hb]
  rfl

lemma EndsIn.add (hL : EndsIn L S) (hM : EndsIn M S) : EndsIn (L + M) S := by
  intro w hw
  cases hw with
  | inl hw => exact hL w hw
  | inr hw => exact hM w hw

/-- A product ends as its first part does where the second is empty. -/
lemma EndsIn.mul_one_add (hL : EndsIn L S) (hM : EndsIn M S) : EndsIn (L * (1 + M)) S := by
  rw [mul_add, mul_one]
  exact hL.add (hM.mul L)

lemma EndsIn.mul_kstar (hL : EndsIn L S) (hM : EndsIn M S) : EndsIn (L * M∗) S := by
  rw [← Language.one_add_kstar_mul_self_eq_kstar]
  exact hL.mul_one_add (hM.mul M∗)

lemma endsIn_run (c : ByteClass) : EndsIn (Run c) c.members := by
  intro w hw
  have hne : w ≠ [] := fun h => nil_notMem_run c (h ▸ hw)
  exact ⟨w.getLast hne, List.getLast?_eq_some_getLast hne,
    consistsOf_run c w hw _ (List.getLast_mem hne)⟩

lemma endsIn_digits (base : Nat) : EndsIn (Digits base) (ByteClass.digit base).members :=
  (endsIn_run _).mul_kstar ((endsIn_run _).mul _)

lemma endsIn_fraction (base : Nat) : EndsIn (Fraction base) (ByteClass.digit base).members :=
  ((endsIn_digits base).mul _).mul _

lemma endsIn_exponent : EndsIn Exponent (ByteClass.digit 10).members :=
  ((endsIn_digits 10).mul _).mul _

/-- Real numbers but the hexadecimal ones end with a decimal digit. -/
lemma endsIn_realDigits (hne : base ≠ 16) (hle : base ≤ 10) :
    EndsIn (RealDigits base) (ByteClass.digit 10).members := by
  have hsubset : (ByteClass.digit base).members ⊆ (ByteClass.digit 10).members := by
    intro b hb
    obtain ⟨-, value, hvalue, hlt⟩ := mem_digit.mp hb
    exact mem_digit.mpr ⟨by decide, value, hvalue, by omega⟩
  unfold RealDigits
  rw [if_neg hne]
  exact (((endsIn_fraction base).mono hsubset).mul_one_add endsIn_exponent).add
    (endsIn_exponent.mul _)

/-- Behind optional signs, texts that begin with digits are compared from their first digit. -/
lemma prefix_of_signed {sign sign' u v : List UInt8} (hsign : sign ∈ OptionalSign)
    (hsign' : sign' ∈ OptionalSign) (hu : ∃ b ∈ u.head?, b ∈ (ByteClass.digit 10).members)
    (hv : ∃ b ∈ v.head?, b ∈ (ByteClass.digit 10).members) (h : sign ++ u <+: sign' ++ v) :
    u <+: v := by
  have hnot : ∀ {sign : List UInt8} {b : UInt8}, sign ∈ OptionalSign →
      b ∈ (ByteClass.digit 10).members → b ∉ sign := by
    intro sign b hsign hb hmem
    rw [← optionalSign_eq] at hsign
    have hconsists := ConsistsOf.one.add (consistsOf_oneByte .sign)
    exact Set.disjoint_left.mp (disjoint_digit_sign 10) hb (hconsists sign hsign b hmem)
  obtain ⟨t, ht⟩ := h
  rw [List.append_assoc] at ht
  obtain ⟨b, hb, hdigit⟩ := hu
  obtain ⟨b', hb', hdigit'⟩ := hv
  have hle : sign <+: sign' := by
    apply prefix_of_avoids ⟨u ++ t, ht⟩
    intro x hx
    cases Option.mem_unique hx hb'
    exact hnot hsign hdigit'
  have hge : sign' <+: sign := by
    apply prefix_of_avoids ⟨v, ht.symm⟩
    intro x hx
    obtain ⟨u, rfl⟩ := List.head?_eq_some_iff.mp hb
    cases hx
    exact hnot hsign' hdigit
  obtain rfl := hle.eq_of_length_le hge.length_le
  exact ⟨t, List.append_cancel_left ht⟩

lemma head_mem_basePrefix {p : String × Nat} (hp : p ∈ basePrefixes) (v : List UInt8) :
    ∃ b ∈ (encode p.1 ++ v).head?, b ∈ (ByteClass.digit 10).members := by
  obtain ⟨letter, hword, -⟩ := encode_prefix hp
  rw [hword]
  exact ⟨48, rfl, mem_digit.mpr ⟨by decide, 0, by decide, by decide⟩⟩

/-- Behind its sign a real number is hexadecimal, with a point and no exponent, or begins with
another prefix or none and ends with a decimal digit. -/
lemma inBase_realDigits_cases (hw : w ∈ InBase RealDigits) :
    (∃ v ∈ Pointed HexadecimalDigits, w = encode "0x" ++ v) ∨
      ¬ encode "0x" <+: w ∧ (∃ b ∈ w.head?, b ∈ (ByteClass.digit 10).members) ∧
        ∃ b ∈ w.getLast?, b ∈ (ByteClass.digit 10).members := by
  have hhex : ("0x", 16) ∈ basePrefixes := by decide
  have hbases : ∀ p ∈ basePrefixes, p.2 = 16 ∧ p.1 = "0x" ∨ p.2 ≠ 16 ∧ p.2 ≤ 10 ∧
    (encode "0x").length = (encode p.1).length ∧ encode "0x" ≠ encode p.1 := by decide
  obtain ⟨p, hp, v, hv, rfl⟩ | hdecimal := inBase_cases hw
  · obtain ⟨hbase, hname⟩ | ⟨hbase, hle, hlength, hname⟩ := hbases p hp
    · rw [hbase, realDigits_sixteen] at hv
      exact .inl ⟨v, hv, by rw [hname]⟩
    · right
      refine ⟨?_, head_mem_basePrefix hp v, (endsIn_realDigits hbase hle).mul _ _
        (Language.append_mem_mul (Set.mem_singleton (encode p.1)) hv)⟩
      rintro ⟨t, ht⟩
      exact hname (List.append_inj ht hlength).1
  · right
    have hends := endsIn_realDigits (by decide) le_rfl w hdecimal
    refine ⟨not_prefix_realDigits hhex hdecimal, ?_, hends⟩
    cases w with
    | nil =>
      obtain ⟨b, hb, -⟩ := hends
      cases hb
    | cons b t => exact ⟨b, rfl, beginsIn_realDigits 10 b t hdecimal⟩

lemma mem_digit_iff_mem_encode (h : (base, digits) ∈ alphabets) {b : UInt8} :
    b ∈ (ByteClass.digit base).members ↔ b ∈ encode digits := by
  have hmem : b ∈ (ByteClass.digit base).members ↔ (ByteClass.digit base).contains b = true :=
    Iff.rfl
  rw [hmem, contains_digit h, List.contains_iff_mem]

/-- A real number is hexadecimal, with a point and no exponent, or does not begin with the prefix of
that base. It ends with a digit in either case, in the second one with a decimal digit. -/
lemma realNumbers_cases (hw : w ∈ RealNumbers) :
    w ∈ OptionalSign * (Spelling "0x" * Pointed HexadecimalDigits) ∧
        (∃ b ∈ w.getLast?, b ∈ encode "0123456789abcdefABCDEF") ∨
      (∀ sign ∈ OptionalSign, ¬ sign ++ encode "0x" <+: w) ∧
        ∃ b ∈ w.getLast?, b ∈ encode "0123456789" := by
  have hten : (10, "0123456789") ∈ alphabets := by decide
  have hsixteen : (16, "0123456789abcdefABCDEF") ∈ alphabets := by decide
  have hhex : ("0x", 16) ∈ basePrefixes := by decide
  rw [← reals_eq] at hw
  unfold Reals at hw
  rw [optionalSign_eq] at hw
  obtain ⟨sign, hsign, body, hbody, rfl⟩ := Language.mem_mul.mp hw
  obtain ⟨v, hv, rfl⟩ | ⟨hname, hhead, b, hb, hdigit⟩ := inBase_realDigits_cases hbody
  · left
    have hmem : sign ++ (encode "0x" ++ v) ∈
        OptionalSign * (Spelling "0x" * Pointed HexadecimalDigits) :=
      Language.append_mem_mul hsign (Language.append_mem_mul rfl hv)
    have hends : EndsIn (OptionalSign * (Spelling "0x" * Pointed HexadecimalDigits))
        (ByteClass.digit 16).members := by
      unfold HexadecimalDigits
      rw [← fraction_eq_pointed hsixteen]
      exact ((endsIn_fraction 16).mul _).mul _
    obtain ⟨b, hb, hdigit⟩ := hends _ hmem
    exact ⟨hmem, b, hb, (mem_digit_iff_mem_encode hsixteen).mp hdigit⟩
  · right
    refine ⟨fun sign' hsign' hpre => hname ?_, b, ?_, (mem_digit_iff_mem_encode hten).mp hdigit⟩
    · have hzero := head_mem_basePrefix hhex []
      rw [List.append_nil] at hzero
      exact prefix_of_signed hsign' hsign hzero hhead hpre
    · rw [List.getLast?_append, Option.mem_def.mp hb]
      rfl

/-- Before a digit the optional sign is what stands there. -/
lemma reads?_optionalSign {sign rest : List UInt8} (hsign : sign ∈ OptionalSign)
    (hrest : ∃ b ∈ rest.head?, b ∈ (ByteClass.digit 10).members) :
    optionalSign.reads? (sign ++ rest) = some sign := by
  have hopt : optionalSign.reads? (sign ++ rest) =
      some (((ofClass .sign).reads? (sign ++ rest)).getD []) :=
    reads?_optional (goesBack_ofClass .sign) _
  have hepsilon : ByteClass.sign.isEpsilon = false := isEpsilon_ofList _
  obtain ⟨b, hb, hdigit⟩ := hrest
  obtain ⟨rest, rfl⟩ := List.head?_eq_some_iff.mp hb
  rw [hopt]
  rw [← optionalSign_eq] at hsign
  obtain rfl | ⟨x, hx, rfl⟩ := hsign
  · have hno : ¬ ByteClass.sign.contains b = true :=
      fun hin => Set.disjoint_left.mp (disjoint_digit_sign 10) hdigit hin
    rw [List.nil_append, reads?_ofClass_cons hepsilon, if_neg hno, Option.getD_none]
  · rw [List.singleton_append, reads?_ofClass_cons hepsilon, if_pos hx, Option.getD_some]

/-- Behind the prefix of a base that no digit of the base follows, only the zero is a number. -/
lemma reads?_integer_before_prefix {q : String × Nat} {sign rest : List UInt8}
    (hq : q ∈ basePrefixes) (hsign : sign ∈ OptionalSign)
    (hrest : ∀ b ∈ rest.head?, b ∉ (ByteClass.digit q.2).members) :
    integer.reads? (sign ++ (encode q.1 ++ rest)) = some (sign ++ [48]) := by
  have hdigits : (digits q.2).reads? rest = none := by
    apply Option.eq_none_iff_forall_ne_some.mpr
    intro w hw
    obtain ⟨b, hb, hdigit⟩ := (Option.any_eq_true _ _).mp (startsIn_digits q.2 rest w hw).1
    exact hrest b hb hdigit
  have hbase : (withBase digits).reads? (encode q.1 ++ rest) = _ := reads?_withBase_of_mem hq rfl
  rw [hdigits, Option.map_none, Option.none_or, digits_ten_before_prefix hq] at hbase
  have hseq : integer.reads? (sign ++ (encode q.1 ++ rest)) = _ := reads?_seq _ _ _
  rw [hseq, reads?_optionalSign hsign (head_mem_basePrefix hq rest), Option.bind_some,
    List.drop_left, hbase, Option.map_some]

/-- The prefixes of the bases with the digits that may follow them. -/
def prefixedDigits : List (String × String) :=
  [("0b", "01"), ("0q", "0123"), ("0o", "01234567"), ("0d", "0123456789"),
    ("0x", "0123456789abcdefABCDEF")]

/-- The patterns of whole numbers and of numbers with a point take the longest such number ahead. If
no digit of its base follows a prefix, the whole number ends with the zero of the prefix. -/
theorem integer_mantissa_take_longest (src : Source) (s : Scan) (hfits : FitsMemory src.bytes)
    (hle : s.position.offset ≤ src.bytes.size) :
    integer.TakesLongest WholeNumbers src s ∧ mantissa.TakesLongest PointedNumbers src s ∧
    ∀ entry ∈ prefixedDigits, ∀ sign ∈ OptionalSign, ∀ rest,
      src.remaining s.position = sign ++ (encode entry.1 ++ rest) →
      (∀ b ∈ rest.head?, b ∉ encode entry.2) →
      integer.run src s = .matched ⟨s.position.advanceOver (sign ++ [48]),
        s.kept ++ (sign ++ [48]).toArray⟩ := by
  have hbases : ∀ entry ∈ prefixedDigits,
    ∃ q ∈ basePrefixes, q.1 = entry.1 ∧ (q.2, entry.2) ∈ alphabets := by decide
  refine ⟨?_, ?_, fun entry hentry sign hsign rest hahead hrest => ?_⟩
  · rw [← integers_eq]
    exact munches_integer.takesLongest hfits hle
  · rw [← mantissas_eq]
    exact munches_mantissa.takesLongest hfits hle
  · obtain ⟨q, hq, hname, hdigits⟩ := hbases entry hentry
    rw [← hname] at hahead
    have hreads : integer.reads? (src.remaining s.position) = some (sign ++ [48]) := by
      rw [hahead]
      apply reads?_integer_before_prefix hq hsign
      intro b hb hdigit
      exact hrest b hb ((mem_digit_iff_mem_encode hdigits).mp hdigit)
    rw [run_of_reads hle hreads, Scan.keepAll_eq]

/-- A prefix with a digit of another base behind it, and binary digits with a point before an
underscore. -/
theorem integer_mantissa_take_longest_fallback :
    let src := Source.ofBytes (encode "+0q4 0b1_01.0_").toArray
    let s : Scan := ⟨⟨1, 1, 0⟩, #[]⟩
    let s' : Scan := ⟨⟨1, 6, 5⟩, #[33]⟩
    (FitsMemory src.bytes ∧ s.position.offset ≤ src.bytes.size ∧
      s'.position.offset ≤ src.bytes.size) ∧
    integer.run src s = .matched ⟨⟨1, 3, 2⟩, (encode "+0").toArray⟩ ∧
    mantissa.run src s' = .matched ⟨⟨1, 14, 13⟩, #[33] ++ (encode "0b1_01.0").toArray⟩ ∧
    mantissa.TakesLongest PointedNumbers src s' := by
  intro src s s'
  have hfits : FitsMemory src.bytes := by decide
  have hle : s.position.offset ≤ src.bytes.size := by decide
  have hle' : s'.position.offset ≤ src.bytes.size := by decide
  have hsign : [43] ∈ OptionalSign := .inr ⟨43, by decide, rfl⟩
  have hzero := (integer_mantissa_take_longest src s hfits hle).2.2 ("0q", "0123") (by decide) [43]
    hsign (encode "4 0b1_01.0_") (by decide) (by decide +kernel)
  exact ⟨⟨hfits, hle, hle'⟩, hzero, by decide +kernel,
    (integer_mantissa_take_longest src s' hfits hle').2.1⟩

/-- The pattern of real numbers takes the longest real number ahead. If this number begins with the
prefix of base sixteen it has no exponent, and no number ends with the letter of an exponent, a
sign, a point or an underscore: its last byte is a digit. -/
theorem real_takes_longest (src : Source) (s : Scan) (hfits : FitsMemory src.bytes)
    (hle : s.position.offset ≤ src.bytes.size) :
    real.TakesLongest RealNumbers src s ∧
    ∀ w ∈ RealNumbers,
      w ∈ OptionalSign * (Spelling "0x" * Pointed HexadecimalDigits) ∧
          (∃ b ∈ w.getLast?, b ∈ encode "0123456789abcdefABCDEF") ∨
        (∀ sign ∈ OptionalSign, ¬ sign ++ encode "0x" <+: w) ∧
          ∃ b ∈ w.getLast?, b ∈ encode "0123456789" := by
  constructor
  · rw [← reals_eq]
    exact munches_real.takesLongest hfits hle
  · intro w hw
    exact realNumbers_cases hw

/-- A hexadecimal number takes the letter of what might be an exponent for a digit, and another one
is followed by an exponent that is broken off. -/
theorem real_takes_longest_dangling :
    let src := Source.ofBytes (encode "-0x1.8e+2 1.5_0e-x").toArray
    let s : Scan := ⟨⟨1, 1, 0⟩, #[33]⟩
    let s' : Scan := ⟨⟨1, 11, 10⟩, #[]⟩
    (FitsMemory src.bytes ∧ s.position.offset ≤ src.bytes.size ∧
      s'.position.offset ≤ src.bytes.size) ∧
    real.run src s = .matched ⟨⟨1, 8, 7⟩, #[33] ++ (encode "-0x1.8e").toArray⟩ ∧
    real.run src s' = .matched ⟨⟨1, 16, 15⟩, (encode "1.5_0").toArray⟩ ∧
    real.TakesLongest RealNumbers src s ∧ real.TakesLongest RealNumbers src s' := by
  intro src s s'
  have hfits : FitsMemory src.bytes := by decide
  have hle : s.position.offset ≤ src.bytes.size := by decide
  have hle' : s'.position.offset ≤ src.bytes.size := by decide
  exact ⟨⟨hfits, hle, hle'⟩, by decide +kernel, by decide +kernel,
    (real_takes_longest src s hfits hle).1, (real_takes_longest src s' hfits hle').1⟩

end Lexeme

end ByteLexer
