import ByteLexer.Pattern.Lexeme
import ByteLexer.Proofs.LongestPrefix
import Mathlib.Data.Bool.AllAny

/-!
# The languages of numbers

Numbers are groups of digits with prefixes, points, exponents and signs around them. In each of
these sequences what comes next begins with a byte that the part before it cannot go on with, so the
patterns of numbers read the longest number that lies ahead. The one place where this fails is an
exponent after hexadecimal digits, which have the letter for themselves: there no exponent is read.
-/

open scoped Computability

namespace ByteLexer

open Automaton (oneByte mem_oneByte)
open ByteClass (isEpsilon_ofList)
open Pattern

/-- The bytes of a class. -/
def ByteClass.members (c : ByteClass) : Set UInt8 := {b | c.contains b = true}

namespace Lexeme

/-- One or more bytes of a class. -/
def Run (c : ByteClass) : Language UInt8 := oneByte c * (oneByte c)∗

/-- Digits of a base in groups between underscores. -/
def Digits (base : Nat) : Language UInt8 :=
  Run (.digit base) * (Run (.char '_') * Run (.digit base))∗

/-- Digits before and after a point. -/
def Fraction (base : Nat) : Language UInt8 := Digits base * (oneByte (.char '.') * Digits base)

/-- The letter of an exponent, a sign if any, and decimal digits. -/
def Exponent : Language UInt8 := oneByte (.ofString "eE") * ((1 + oneByte .sign) * Digits 10)

/-- A fraction that may have an exponent, or digits that have one. Hexadecimal digits have none. -/
def RealDigits (base : Nat) : Language UInt8 :=
  if base = 16 then Fraction base
  else Fraction base * (1 + Exponent) + Digits base * Exponent

/-- Texts of a base behind one of some prefixes, or decimal ones without a prefix. -/
def InBaseFrom (L : Nat → Language UInt8) (prefixes : List (String × Nat)) : Language UInt8 :=
  prefixes.foldr (fun (word, base) others => {Text.Utf8.encode word} * L base + others) (L 10)

def InBase (L : Nat → Language UInt8) : Language UInt8 := InBaseFrom L basePrefixes

/-- Whole numbers with an optional sign. -/
def Integers : Language UInt8 := (1 + oneByte .sign) * InBase Digits

/-- Numbers with a point and an optional sign. -/
def Mantissas : Language UInt8 := (1 + oneByte .sign) * InBase Fraction

/-- Real numbers with an optional sign. -/
def Reals : Language UInt8 := (1 + oneByte .sign) * InBase RealDigits

variable {c d : ByteClass} {base : Nat} {L M M' : Language UInt8} {S T T' : Set UInt8}
  {u v w : List UInt8} {b : UInt8}

lemma consistsOf_oneByte (c : ByteClass) : ConsistsOf (oneByte c) c.members := by
  rintro w ⟨byte, hbyte, rfl⟩ b hb
  rw [List.mem_singleton.mp hb]
  exact hbyte

lemma growsBy_oneByte (c : ByteClass) : GrowsBy (oneByte c) ∅ := by
  rintro u b t ⟨x, -, rfl⟩ ⟨y, -, h⟩
  simp at h

lemma nil_notMem_oneByte (c : ByteClass) : [] ∉ oneByte c := by
  rintro ⟨byte, -, h⟩
  cases h

lemma nil_notMem_mul (h : [] ∉ L) : [] ∉ L * M := by
  intro hw
  obtain ⟨u, hu, v, -, huv⟩ := Language.mem_mul.mp hw
  rw [(List.append_eq_nil_iff.mp huv).1] at hu
  exact h hu

lemma mem_kstar_oneByte : w ∈ (oneByte c)∗ ↔ ∀ b ∈ w, c.contains b = true := by
  constructor
  · exact (consistsOf_oneByte c).kstar w
  · intro h
    refine Language.mem_kstar.mpr ⟨w.map ([·]), by simp [← List.flatMap_def], fun y hy => ?_⟩
    obtain ⟨b, hb, rfl⟩ := List.mem_map.mp hy
    exact ⟨b, h b hb, rfl⟩

lemma consistsOf_run (c : ByteClass) : ConsistsOf (Run c) c.members :=
  (consistsOf_oneByte c).mul (consistsOf_oneByte c).kstar

lemma nil_notMem_run (c : ByteClass) : [] ∉ Run c := nil_notMem_mul (nil_notMem_oneByte c)

lemma munches_run (hc : c.isEpsilon = false) : (ofClass c).oneOrMore.Munches (Run c) :=
  (munches_ofClass hc).oneOrMore (goesBack_ofClass c) (nil_notMem_oneByte c) (growsBy_oneByte c)
    (consistsOf_oneByte c).beginsIn (Set.empty_disjoint _)

lemma append_mem_run (hw : w ∈ Run c) (hb : b ∈ c.members) : w ++ [b] ∈ Run c := by
  obtain ⟨u, hu, v, ⟨parts, rfl, hparts⟩, rfl⟩ := Language.mem_mul.mp hw
  refine Language.mem_mul.mpr ⟨u, hu, parts.flatten ++ [b], ⟨parts ++ [[b]], by simp, ?_⟩, by simp⟩
  intro part hpart
  rcases List.mem_append.mp hpart with hpart | hpart
  · exact hparts part hpart
  · rw [List.mem_singleton.mp hpart]
    exact ⟨b, hb, rfl⟩

lemma isEpsilon_digit (base : Nat) : (ByteClass.digit base).isEpsilon = false := by
  unfold ByteClass.digit
  split
  · rfl
  · exact isEpsilon_ofList _

lemma mem_digit : b ∈ (ByteClass.digit base).members ↔
    2 ≤ base ∧ ∃ value, ByteClass.digitValue? b = some value ∧ value < base := by
  unfold ByteClass.digit ByteClass.members
  split
  · simp
    omega
  · simp [Option.any_eq_true]
    omega

lemma members_char (x : Char) : (ByteClass.char x).members = {x.toUInt8} := by
  ext b
  simp [ByteClass.members, ByteClass.char]

lemma disjoint_digit (h : ∀ b ∈ S, ByteClass.digitValue? b = none) (base : Nat) :
    Disjoint (ByteClass.digit base).members S := by
  refine Set.disjoint_left.mpr fun b hdigit hb => ?_
  obtain ⟨-, value, hvalue, -⟩ := mem_digit.mp hdigit
  rw [h b hb] at hvalue
  cases hvalue

lemma disjoint_digit_underscore (base : Nat) :
    Disjoint (ByteClass.digit base).members (ByteClass.char '_').members := by
  refine disjoint_digit (fun b hb => ?_) base
  rw [members_char] at hb
  rw [hb]
  decide

/-- An underscore with the digits after it. -/
def Group (base : Nat) : Language UInt8 := Run (.char '_') * Run (.digit base)

lemma beginsIn_group (base : Nat) : BeginsIn (Group base) (ByteClass.char '_').members :=
  (consistsOf_run _).beginsIn.mul (nil_notMem_run _)

lemma growsBy_group (base : Nat) : GrowsBy (Group base) (ByteClass.digit base).members :=
  (consistsOf_run _).growsBy.mul (consistsOf_run _).growsBy (consistsOf_run _).beginsIn
    (disjoint_digit_underscore base).symm (nil_notMem_run _)

lemma nil_notMem_group (base : Nat) : [] ∉ Group base := nil_notMem_mul (nil_notMem_run _)

lemma munches_group (base : Nat) :
    ((ofClass (.char '_')).oneOrMore.seq (ofClass (.digit base)).oneOrMore).Munches (Group base) :=
  (munches_run (isEpsilon_ofList _)).seq (munches_run (isEpsilon_digit base))
    (consistsOf_run _).growsBy (consistsOf_run _).beginsIn (disjoint_digit_underscore base).symm

/-- Digits are read as far as they go, and an underscore only if a digit comes after it. -/
lemma munches_digits (base : Nat) : (digits base).Munches (Digits base) := by
  have hgroups : ((((ofClass (.char '_')).oneOrMore.seq
      (ofClass (.digit base)).oneOrMore).attempt).zeroOrMore).Munches (Group base)∗ :=
    (munches_group base).attempt.zeroOrMore (goesBack_attempt _) (nil_notMem_group base)
      (growsBy_group base) (beginsIn_group base) (disjoint_digit_underscore base)
  exact (munches_run (isEpsilon_digit base)).seq hgroups (consistsOf_run _).growsBy
    ((beginsIn_group base).kstar (nil_notMem_group base)) (disjoint_digit_underscore base)

/-- The bytes of digit groups. -/
def digitBytes (base : Nat) : Set UInt8 :=
  (ByteClass.digit base).members ∪ (ByteClass.char '_').members

lemma consistsOf_digits (base : Nat) : ConsistsOf (Digits base) (digitBytes base) := by
  have hdigit := (consistsOf_run (.digit base)).mono (T := digitBytes base) Set.subset_union_left
  have hscore := (consistsOf_run (.char '_')).mono (T := digitBytes base) Set.subset_union_right
  exact hdigit.mul (hscore.mul hdigit).kstar

lemma nil_notMem_digits (base : Nat) : [] ∉ Digits base := nil_notMem_mul (nil_notMem_run _)

lemma beginsIn_digits (base : Nat) : BeginsIn (Digits base) (ByteClass.digit base).members :=
  (consistsOf_run _).beginsIn.mul (nil_notMem_run _)

lemma append_mem_digits (hw : w ∈ Digits base) (hb : b ∈ (ByteClass.digit base).members) :
    w ++ [b] ∈ Digits base := by
  obtain ⟨u, hu, v, hv, rfl⟩ := Language.mem_mul.mp hw
  rw [List.append_assoc]
  rw [← Language.one_add_kstar_mul_self_eq_kstar] at hv
  rcases hv with rfl | hv
  · have h := Language.append_mem_mul (append_mem_run hu hb) (Language.nil_mem_kstar (Group base))
    rwa [List.append_nil] at h
  · obtain ⟨groups, hgroups, group, hgroup, rfl⟩ := Language.mem_mul.mp hv
    obtain ⟨scores, hscores, run, hrun, rfl⟩ := Language.mem_mul.mp hgroup
    refine Language.append_mem_mul hu ?_
    rw [← Language.one_add_kstar_mul_self_eq_kstar]
    refine .inr ?_
    have h := Language.append_mem_mul hgroups
      (Language.append_mem_mul hscores (append_mem_run hrun hb))
    rw [List.append_assoc, List.append_assoc]
    exact h

lemma disjoint_digitBytes_point (base : Nat) :
    Disjoint (digitBytes base) (ByteClass.char '.').members := by
  rw [digitBytes, members_char, members_char]
  refine Set.disjoint_union_left.mpr ⟨disjoint_digit (fun b hb => ?_) base, ?_⟩
  · rw [hb]
    decide
  · exact Set.disjoint_singleton.mpr (by decide)

lemma nil_notMem_fraction (base : Nat) : [] ∉ Fraction base :=
  nil_notMem_mul (nil_notMem_digits base)

lemma beginsIn_fraction (base : Nat) : BeginsIn (Fraction base) (ByteClass.digit base).members :=
  (beginsIn_digits base).mul (nil_notMem_digits base)

lemma beginsIn_point_mul : BeginsIn (oneByte (.char '.') * L) (ByteClass.char '.').members :=
  (consistsOf_oneByte _).beginsIn.mul (nil_notMem_oneByte _)

lemma growsBy_fraction (base : Nat) : GrowsBy (Fraction base) (digitBytes base) := by
  have hplaces : GrowsBy (oneByte (.char '.') * Digits base) (digitBytes base) :=
    (growsBy_oneByte _).mul (consistsOf_digits base).growsBy (beginsIn_digits base)
      (Set.empty_disjoint _) (nil_notMem_digits base)
  exact (consistsOf_digits base).growsBy.mul hplaces beginsIn_point_mul
    (disjoint_digitBytes_point base) (nil_notMem_mul (nil_notMem_oneByte _))

lemma munches_fraction (base : Nat) : (fraction base).Munches (Fraction base) := by
  have hplaces := (munches_ofClass (c := .char '.') (isEpsilon_ofList _)).seq (munches_digits base)
    (growsBy_oneByte _) (beginsIn_digits base) (Set.empty_disjoint _)
  exact (munches_digits base).seq hplaces (consistsOf_digits base).growsBy beginsIn_point_mul
    (disjoint_digitBytes_point base)

lemma append_mem_fraction (hw : w ∈ Fraction base) (hb : b ∈ (ByteClass.digit base).members) :
    w ++ [b] ∈ Fraction base := by
  obtain ⟨u, hu, v, hv, rfl⟩ := Language.mem_mul.mp hw
  obtain ⟨point, hpoint, places, hplaces, rfl⟩ := Language.mem_mul.mp hv
  rw [List.append_assoc, List.append_assoc]
  exact Language.append_mem_mul hu
    (Language.append_mem_mul hpoint (append_mem_digits hplaces hb))

/-- The letters that begin an exponent. -/
def exponentLetters : ByteClass := .ofString "eE"

lemma beginsIn_exponent : BeginsIn Exponent exponentLetters.members :=
  (consistsOf_oneByte exponentLetters).beginsIn.mul (nil_notMem_oneByte _)

lemma nil_notMem_exponent : [] ∉ Exponent := nil_notMem_mul (nil_notMem_oneByte _)

lemma munches_optionalSign : optionalSign.Munches (1 + oneByte .sign) :=
  (munches_ofClass (isEpsilon_ofList _)).optional (goesBack_ofClass _)

lemma beginsIn_one_add (h : BeginsIn L S) : BeginsIn (1 + L) S := by
  rintro b t (ht | ht)
  · cases ht
  · exact h b t ht

lemma members_ofString (s : String) :
    (ByteClass.ofString s).members = {b | b ∈ Text.Utf8.encode s} := by
  ext b
  simp [ByteClass.members, ByteClass.ofString]

lemma mem_sign : b ∈ ByteClass.sign.members ↔ b = 43 ∨ b = 45 := by
  have h : Text.Utf8.encode "+-" = [43, 45] := by decide
  rw [ByteClass.sign, members_ofString, h]
  simp

lemma mem_exponentLetters : b ∈ exponentLetters.members ↔ b = 101 ∨ b = 69 := by
  have h : Text.Utf8.encode "eE" = [101, 69] := by decide
  rw [exponentLetters, members_ofString, h]
  simp

lemma disjoint_digit_sign (base : Nat) :
    Disjoint (ByteClass.digit base).members ByteClass.sign.members := by
  refine disjoint_digit (fun b hb => ?_) base
  rcases mem_sign.mp hb with rfl | rfl
  · decide
  · decide

/-- What follows an optional sign begins with a digit, so the sign is read if there is one. -/
lemma munches_afterSign {p : Pattern} (hp : p.Munches L)
    (hb : BeginsIn L (ByteClass.digit 10).members) :
    (optionalSign.seq p).Munches ((1 + oneByte .sign) * L) :=
  munches_optionalSign.seq hp (ConsistsOf.one.add (consistsOf_oneByte .sign)).growsBy hb
    (disjoint_digit_sign 10).symm

lemma munches_exponent : exponent.Munches Exponent :=
  (munches_ofClass (isEpsilon_ofList _)).seq
    (munches_afterSign (munches_digits 10) (beginsIn_digits 10))
    (growsBy_oneByte _) (fun _ _ _ => Set.mem_univ _) (Set.empty_disjoint _)

/-- The letters of an exponent are digits from base fifteen on. -/
lemma disjoint_digitBytes_exponent (h : base ≤ 14) :
    Disjoint (digitBytes base) exponentLetters.members := by
  refine Set.disjoint_left.mpr fun b hb hletter => ?_
  have hvalue : ByteClass.digitValue? b = some 14 ∧ b ≠ 95 := by
    rcases mem_exponentLetters.mp hletter with rfl | rfl
    · decide
    · decide
  rcases hb with hb | hb
  · obtain ⟨-, value, hb, hlt⟩ := mem_digit.mp hb
    rw [hvalue.1, Option.some.injEq] at hb
    omega
  · rw [members_char] at hb
    exact hvalue.2 hb

lemma exponentLetters_subset : exponentLetters.members ⊆ (ByteClass.digit 16).members := by
  intro b hb
  refine mem_digit.mpr ⟨by decide, 14, ?_, by decide⟩
  rcases mem_exponentLetters.mp hb with rfl | rfl
  · decide
  · decide

/-- Texts that begin alike and then differ are not prefixes of one another. -/
lemma not_prefix_of_mul (hg : GrowsBy L S) (hb : BeginsIn M T) (hb' : BeginsIn M' T')
    (hST : Disjoint S T) (hST' : Disjoint S T') (hTT' : Disjoint T T') (hnil : [] ∉ M)
    (hnil' : [] ∉ M') (hu : u ∈ L * M) (hv : v ∈ L * M') : ¬ u <+: v := by
  obtain ⟨x, hx, y, hy, rfl⟩ := Language.mem_mul.mp hu
  obtain ⟨x', hx', y', hy', rfl⟩ := Language.mem_mul.mp hv
  rintro ⟨s, hs⟩
  cases y with
  | nil => exact hnil hy
  | cons b y =>
    cases y' with
    | nil => exact hnil' hy'
    | cons b' y' =>
      have hbT := hb b y hy
      have hbT' := hb' b' y' hy'
      rw [List.append_assoc] at hs
      rcases List.append_eq_append_iff.mp hs with ⟨t, rfl, ht⟩ | ⟨t, rfl, ht⟩
      · cases t with
        | nil =>
          rw [List.nil_append, List.cons_append, List.cons.injEq] at ht
          exact Set.disjoint_left.mp hTT' (ht.1 ▸ hbT) hbT'
        | cons z t =>
          rw [List.cons_append, List.cons_append, List.cons.injEq] at ht
          exact Set.disjoint_left.mp hST (hg x z t hx hx') (ht.1 ▸ hbT)
      · cases t with
        | nil =>
          rw [List.nil_append, List.cons_append, List.cons.injEq] at ht
          exact Set.disjoint_left.mp hTT' (ht.1 ▸ hbT) hbT'
        | cons z t =>
          rw [List.cons_append, List.cons.injEq] at ht
          exact Set.disjoint_left.mp hST' (hg x' z t hx' hx) (ht.1 ▸ hbT')

lemma goesBack_realDigits_left (base : Nat) :
    ((fraction base).attempt.seq exponent.attempt.optional).GoesBack :=
  (goesBack_attempt _).seq fun ahead => (goesBack_attempt _).reads?_repetition_isSome 1 ahead

lemma munches_realDigits_of_le (h : base ≤ 14) : (realDigits base).Munches
    (Fraction base * (1 + Exponent) + Digits base * Exponent) := by
  have hexp := munches_exponent.attempt.optional (goesBack_attempt _)
  have hpoint := (munches_fraction base).attempt.seq hexp (growsBy_fraction base)
    (beginsIn_one_add beginsIn_exponent) (disjoint_digitBytes_exponent h)
  have hplain := (munches_digits base).seq munches_exponent (consistsOf_digits base).growsBy
    beginsIn_exponent (disjoint_digitBytes_exponent h)
  refine hpoint.alt hplain (goesBack_realDigits_left base) fun u hu v hv huv => ?_
  rw [Fraction, mul_assoc, mul_assoc] at hu
  have hdisjoint : Disjoint (ByteClass.char '.').members exponentLetters.members := by
    refine Set.disjoint_left.mpr fun b hb hletter => ?_
    rw [members_char] at hb
    rcases mem_exponentLetters.mp hletter with rfl | rfl
    · exact absurd hb (by decide)
    · exact absurd hb (by decide)
  exact (not_prefix_of_mul (consistsOf_digits base).growsBy beginsIn_point_mul beginsIn_exponent
    (disjoint_digitBytes_point base) (disjoint_digitBytes_exponent h) hdisjoint
    (nil_notMem_mul (nil_notMem_oneByte _)) nil_notMem_exponent hu hv huv).elim

/-- Hexadecimal digits take the letter of an exponent for themselves. -/
lemma munches_realDigits_hex : (realDigits 16).Munches (Fraction 16) := by
  intro ahead hlen
  have hfraction := munches_fraction 16 ahead hlen
  have hdigits := munches_digits 16 ahead hlen
  have hplain : ((digits 16).seq exponent).reads? ahead = none := by
    rw [reads?_seq]
    cases hu : (digits 16).reads? ahead with
    | none => rfl
    | some u =>
      rw [hu] at hdigits
      obtain ⟨rest, rfl⟩ := hdigits.1
      rw [List.length_append] at hlen
      rw [Option.bind_some, List.drop_left, hdigits.eq_none_of_extends
        (munches_exponent rest (by omega)) beginsIn_exponent nil_notMem_exponent
        fun w hw b hb => append_mem_digits hw (exponentLetters_subset hb)]
      rfl
  have hpoint : ((fraction 16).attempt.seq exponent.attempt.optional).reads? ahead =
      (fraction 16).reads? ahead := by
    rw [reads?_seq, reads?_attempt]
    cases hu : (fraction 16).reads? ahead with
    | none => rfl
    | some u =>
      rw [hu] at hfraction
      obtain ⟨rest, rfl⟩ := hfraction.1
      rw [List.length_append] at hlen
      rw [Option.bind_some, List.drop_left, reads?_optional (goesBack_attempt _), reads?_attempt,
        hfraction.eq_none_of_extends (munches_exponent rest (by omega)) beginsIn_exponent
          nil_notMem_exponent fun w hw b hb => append_mem_fraction hw (exponentLetters_subset hb),
        Option.getD_none, Option.map_some, List.append_nil]
  have halt := reads?_alt (goesBack_realDigits_left 16) ((digits 16).seq exponent) ahead
  rw [hpoint, hplain, Option.or_none] at halt
  exact halt ▸ hfraction

lemma munches_realDigits (h : base = 16 ∨ base ≤ 14) :
    (realDigits base).Munches (RealDigits base) := by
  unfold RealDigits
  split
  · next heq => exact heq ▸ munches_realDigits_hex
  · next hne => exact munches_realDigits_of_le (h.resolve_left hne)

lemma inBase_cases {L : Nat → Language UInt8} {prefixes : List (String × Nat)}
    (hw : w ∈ InBaseFrom L prefixes) :
    (∃ p ∈ prefixes, ∃ v ∈ L p.2, w = Text.Utf8.encode p.1 ++ v) ∨ w ∈ L 10 := by
  induction prefixes with
  | nil => exact .inr hw
  | cons p prefixes ih =>
    rcases hw with hw | hw
    · obtain ⟨u, rfl, v, hv, rfl⟩ := Language.mem_mul.mp hw
      exact .inl ⟨p, List.mem_cons_self, v, hv, rfl⟩
    · rcases ih hw with ⟨q, hq, hv⟩ | hw
      · exact .inl ⟨q, List.mem_cons_of_mem _ hq, hv⟩
      · exact .inr hw

/-- Since no prefix begins another and no decimal text begins with one, the first way of reading a
number that succeeds is the only one, a lone zero apart. -/
lemma munches_withBase_from {body : Nat → Pattern} {L : Nat → Language UInt8}
    (prefixes : List (String × Nat)) (hbody : ∀ p ∈ prefixes, (body p.2).Munches (L p.2))
    (hten : (body 10).Munches (L 10))
    (hpair : prefixes.Pairwise fun p q => ∀ t t',
      Text.Utf8.encode p.1 ++ t ≠ Text.Utf8.encode q.1 ++ t')
    (hdecimal : ∀ p ∈ prefixes, ∀ w ∈ L 10, ¬ Text.Utf8.encode p.1 <+: w) :
    (prefixes.foldr (fun (word, base) others => attempt (ofString word >> body base) <|> others)
      (body 10)).Munches (InBaseFrom L prefixes) := by
  induction prefixes with
  | nil => exact hten
  | cons p prefixes ih =>
    have hrest := ih (fun q hq => hbody q (List.mem_cons_of_mem _ hq))
      (List.pairwise_cons.mp hpair).2 fun q hq => hdecimal q (List.mem_cons_of_mem _ hq)
    have hliteral : GrowsBy {Text.Utf8.encode p.1} ∅ := by
      rintro u b t rfl h
      simpa using congrArg List.length h
    have hfirst := ((munches_literal (Text.Utf8.encode p.1)).seq (hbody p List.mem_cons_self)
      hliteral (fun _ _ _ => Set.mem_univ _) (Set.empty_disjoint _)).attempt
    refine hfirst.alt hrest (goesBack_attempt _) fun u hu v hv huv => ?_
    obtain ⟨_, rfl, x, -, rfl⟩ := Language.mem_mul.mp hu
    rcases inBase_cases hv with ⟨q, hq, y, -, rfl⟩ | hv
    · obtain ⟨s, hs⟩ := huv
      rw [List.append_assoc] at hs
      exact ((List.pairwise_cons.mp hpair).1 q hq _ _ hs).elim
    · exact (hdecimal p List.mem_cons_self v hv ((List.prefix_append _ x).trans huv)).elim

lemma encode_prefix {p : String × Nat} (hp : p ∈ basePrefixes) :
    ∃ letter, Text.Utf8.encode p.1 = [48, letter] ∧ letter ∈ [98, 113, 111, 100, 120] := by
  have h : ∀ p ∈ basePrefixes, ∃ letter ∈ [98, 113, 111, 100, 120],
    Text.Utf8.encode p.1 = [48, letter] := by decide
  obtain ⟨letter, hletter, heq⟩ := h p hp
  exact ⟨letter, heq, hletter⟩

lemma pairwise_basePrefixes : basePrefixes.Pairwise fun p q =>
    ∀ t t', Text.Utf8.encode p.1 ++ t ≠ Text.Utf8.encode q.1 ++ t' := by
  have h : basePrefixes.Pairwise fun p q =>
    (Text.Utf8.encode p.1).length = (Text.Utf8.encode q.1).length ∧
      Text.Utf8.encode p.1 ≠ Text.Utf8.encode q.1 := by decide
  exact h.imp fun hpq t t' heq => hpq.2 (List.append_inj heq hpq.1).1

lemma munches_withBase {body : Nat → Pattern} {L : Nat → Language UInt8}
    (hbody : ∀ p ∈ basePrefixes, (body p.2).Munches (L p.2)) (hten : (body 10).Munches (L 10))
    (hdecimal : ∀ p ∈ basePrefixes, ∀ w ∈ L 10, ¬ Text.Utf8.encode p.1 <+: w) :
    (withBase body).Munches (InBase L) :=
  munches_withBase_from basePrefixes hbody hten pairwise_basePrefixes hdecimal

/-- The letters of the prefixes. -/
def prefixLetters : Set UInt8 := {b | b ∈ [98, 113, 111, 100, 120]}

lemma disjoint_prefixLetters : Disjoint prefixLetters
    (digitBytes 10 ∪ ((ByteClass.char '.').members ∪ exponentLetters.members)) := by
  refine Set.disjoint_left.mpr fun b hletter hb => ?_
  have hvalue : ∀ b ∈ [98, 113, 111, 100, 120], (ByteClass.digitValue? b).all (10 ≤ ·) ∧
    b ≠ 95 ∧ b ≠ 46 ∧ b ≠ 101 ∧ b ≠ 69 := List.all_iff_forall_prop.mp (by decide)
  obtain ⟨hvalue, hscore, hpoint, he⟩ := hvalue b hletter
  rcases hb with (hb | hb) | hb | hb
  · obtain ⟨-, value, hb, hlt⟩ := mem_digit.mp hb
    rw [hb, Option.all_some, decide_eq_true_eq] at hvalue
    omega
  · rw [members_char] at hb
    exact hscore hb
  · rw [members_char] at hb
    exact hpoint hb
  · exact (mem_exponentLetters.mp hb).elim he.1 he.2

/-- A text goes on after its first byte with bytes of its first part or what begins its second. -/
lemma second_mem {a : UInt8} {t : List UInt8} (hL : ConsistsOf L S) (hnil : [] ∉ L)
    (hM : BeginsIn M T) (h : a :: b :: t ∈ L * M) : b ∈ S ∪ T := by
  obtain ⟨u, hu, v, hv, huv⟩ := Language.mem_mul.mp h
  cases u with
  | nil => exact (hnil hu).elim
  | cons x u =>
    rw [List.cons_append, List.cons.injEq] at huv
    cases u with
    | nil =>
      rw [List.nil_append] at huv
      exact .inr (hM b t (huv.2 ▸ hv))
    | cons y u =>
      rw [List.cons_append, List.cons.injEq] at huv
      exact .inl (hL _ hu b (by simp [huv.2.1]))

lemma second_mem_digits {a : UInt8} {t : List UInt8} (h : a :: b :: t ∈ Digits base) :
    b ∈ digitBytes base := consistsOf_digits base _ h b (by simp)

lemma second_mem_realDigits {a : UInt8} {t : List UInt8} (h : a :: b :: t ∈ RealDigits 10) :
    b ∈ digitBytes 10 ∪ ((ByteClass.char '.').members ∪ exponentLetters.members) := by
  have hsecond : ∀ {M : Language UInt8} {T : Set UInt8}, BeginsIn M T →
      a :: b :: t ∈ Digits 10 * M → b ∈ digitBytes 10 ∪ T := fun hM hmem =>
    second_mem (consistsOf_digits 10) (nil_notMem_digits 10) hM hmem
  rcases h with h | h
  · rw [Fraction, mul_assoc, mul_assoc] at h
    exact Set.union_subset_union_right _ Set.subset_union_left
      (hsecond beginsIn_point_mul h)
  · exact Set.union_subset_union_right _ Set.subset_union_right
      (hsecond beginsIn_exponent h)

lemma not_prefix_of_second {p : String × Nat} (hp : p ∈ basePrefixes)
    (h : ∀ a b t, w = a :: b :: t → b ∉ prefixLetters) : ¬ Text.Utf8.encode p.1 <+: w := by
  obtain ⟨letter, heq, hletter⟩ := encode_prefix hp
  rw [heq]
  rintro ⟨t, ht⟩
  exact h 48 letter t ht.symm hletter

lemma beginsIn_realDigits (base : Nat) :
    BeginsIn (RealDigits base) (ByteClass.digit base).members := by
  unfold RealDigits
  split
  · exact beginsIn_fraction base
  · rintro b t (h | h)
    · exact (beginsIn_fraction base).mul (nil_notMem_fraction base) b t h
    · exact (beginsIn_digits base).mul (nil_notMem_digits base) b t h

lemma beginsIn_inBase {L : Nat → Language UInt8}
    (h : BeginsIn (L 10) (ByteClass.digit 10).members) :
    BeginsIn (InBase L) (ByteClass.digit 10).members := by
  intro b t hb
  rcases inBase_cases hb with ⟨p, hp, v, -, heq⟩ | hb
  · obtain ⟨letter, hword, -⟩ := encode_prefix hp
    rw [hword, List.cons_append, List.cons.injEq] at heq
    rw [heq.1]
    exact mem_digit.mpr ⟨by decide, 0, by decide, by decide⟩
  · exact h b t hb

/-- The pattern of whole numbers reads the longest one that lies ahead. -/
lemma munches_integer : integer.Munches Integers := by
  refine munches_afterSign (munches_withBase (fun p _ => munches_digits p.2) (munches_digits 10)
    fun p hp w hw => not_prefix_of_second hp fun a b t heq hletter => ?_)
    (beginsIn_inBase (beginsIn_digits 10))
  exact Set.disjoint_left.mp disjoint_prefixLetters hletter (.inl (second_mem_digits (heq ▸ hw)))

/-- The pattern of numbers with a point reads the longest one that lies ahead. -/
lemma munches_mantissa : mantissa.Munches Mantissas := by
  apply munches_afterSign _ (beginsIn_inBase (beginsIn_fraction 10))
  apply munches_withBase (fun p _ => munches_fraction p.2) (munches_fraction 10)
  intro p hp w hw
  apply not_prefix_of_second hp
  intro a b t heq hletter
  have hsecond : b ∈ digitBytes 10 ∪ (ByteClass.char '.').members :=
    second_mem (consistsOf_digits 10) (nil_notMem_digits 10) beginsIn_point_mul (heq ▸ hw)
  apply Set.disjoint_left.mp disjoint_prefixLetters hletter
  exact Set.union_subset_union_right _ Set.subset_union_left hsecond

/-- No decimal real number begins with the prefix of a base. -/
lemma not_prefix_realDigits {p : String × Nat} (hp : p ∈ basePrefixes) (hw : w ∈ RealDigits 10) :
    ¬ Text.Utf8.encode p.1 <+: w := by
  apply not_prefix_of_second hp
  intro a b t heq hletter
  exact Set.disjoint_left.mp disjoint_prefixLetters hletter (second_mem_realDigits (heq ▸ hw))

/-- The pattern of real numbers reads the longest one that lies ahead. -/
lemma munches_real : real.Munches Reals := by
  have hbase : ∀ p ∈ basePrefixes, p.2 = 16 ∨ p.2 ≤ 14 := by decide
  apply munches_afterSign _ (beginsIn_inBase (beginsIn_realDigits 10))
  apply munches_withBase (fun p hp => munches_realDigits (hbase p hp))
    (munches_realDigits (.inr (by decide)))
  intro p hp w hw
  exact not_prefix_realDigits hp hw

/-- The bytes below 128 but the line feed. -/
def plainBytes : Set UInt8 := {b | b < 128 ∧ b ≠ 10}

lemma digit_subset_plain (base : Nat) : (ByteClass.digit base).members ⊆ plainBytes := by
  intro b hb
  obtain ⟨-, value, hvalue, -⟩ := mem_digit.mp hb
  refine ⟨?_, fun h => by rw [h] at hvalue; cases hvalue⟩
  simp only [ByteClass.digitValue?, UInt8.le_iff_toNat_le, UInt8.reduceToNat] at hvalue
  simp only [UInt8.lt_iff_toNat_lt, UInt8.reduceToNat]
  split_ifs at hvalue
  all_goals omega

lemma char_subset_plain {x : Char} (h : x.toUInt8 ∈ plainBytes) :
    (ByteClass.char x).members ⊆ plainBytes := by
  rw [members_char, Set.singleton_subset_iff]
  exact h

lemma sign_plain : ConsistsOf (1 + oneByte .sign) plainBytes := by
  refine ConsistsOf.one.add ((consistsOf_oneByte _).mono fun b hb => ?_)
  rcases mem_sign.mp hb with rfl | rfl <;> exact ⟨by decide, by decide⟩

lemma digits_plain (base : Nat) : ConsistsOf (Digits base) plainBytes :=
  (consistsOf_digits base).mono (Set.union_subset (digit_subset_plain base)
    (char_subset_plain ⟨by decide, by decide⟩))

lemma fraction_plain (base : Nat) : ConsistsOf (Fraction base) plainBytes :=
  (digits_plain base).mul (((consistsOf_oneByte _).mono
    (char_subset_plain ⟨by decide, by decide⟩)).mul (digits_plain base))

lemma exponent_plain : ConsistsOf Exponent plainBytes := by
  refine ((consistsOf_oneByte _).mono fun b hb => ?_).mul (sign_plain.mul (digits_plain 10))
  rcases mem_exponentLetters.mp hb with rfl | rfl <;> exact ⟨by decide, by decide⟩

lemma realDigits_plain (base : Nat) : ConsistsOf (RealDigits base) plainBytes := by
  unfold RealDigits
  split
  · exact fraction_plain base
  · exact ((fraction_plain base).mul (ConsistsOf.one.add exponent_plain)).add
      ((digits_plain base).mul exponent_plain)

lemma inBase_plain {L : Nat → Language UInt8} (h : ∀ base, ConsistsOf (L base) plainBytes) :
    ConsistsOf (InBase L) plainBytes := by
  intro w hw b hb
  rcases inBase_cases hw with ⟨p, hp, v, hv, rfl⟩ | hw
  · rcases List.mem_append.mp hb with hb | hb
    · have hword : ∀ p ∈ basePrefixes, (Text.Utf8.encode p.1).all fun b => b < 128 ∧ b ≠ 10 := by
        decide
      exact List.all_iff_forall_prop.mp (hword p hp) b hb
    · exact h p.2 v hv b hb
  · exact h 10 w hw b hb

lemma integers_plain : ConsistsOf Integers plainBytes := sign_plain.mul (inBase_plain digits_plain)

lemma reals_plain : ConsistsOf Reals plainBytes := sign_plain.mul (inBase_plain realDigits_plain)

end Lexeme

end ByteLexer
