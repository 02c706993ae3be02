import ByteLexer.Proofs.DefaultReadings

/-!
# Real and whole numbers

A real number is read in the base that a whole one is read in at the same place, and it begins with
the digits of the whole one. This is because nothing decimal but a lone zero can be read where a
prefix of a base is ahead, and a real number has more than that. So the real number, when there is
one, is never the shorter of the two.
-/

namespace ByteLexer

namespace Lexeme

open Pattern
open ByteClass (digit isEpsilon_ofList sign)

variable {body : Nat → Pattern} {prefixes : List (String × Nat)} {p : String × Nat}
  {ahead rest u w : List UInt8} {base : Nat} {b : UInt8}

lemma reads?_others_decimal (h : ∀ p ∈ prefixes, ¬ Text.Utf8.encode p.1 <+: ahead) :
    (prefixes.foldr (fun (word, base) others => attempt (ofString word >> body base) <|> others)
      (body 10)).reads? ahead = (body 10).reads? ahead := by
  induction prefixes with
  | nil => rfl
  | cons q prefixes ih =>
    have hfirst : (attempt (ofString q.1 >> body q.2)).reads? ahead = none := by
      have hseq : (ofString q.1 >> body q.2).reads? ahead = _ := reads?_seq _ _ _
      rw [reads?_attempt, hseq, spells_ofString, if_neg (h q List.mem_cons_self), Option.bind_none]
    have halt := reads?_alt (goesBack_attempt (ofString q.1 >> body q.2)) (prefixes.foldr
      (fun (word, base) others => attempt (ofString word >> body base) <|> others) (body 10)) ahead
    rw [hfirst, Option.none_or, ih fun p hp => h p (List.mem_cons_of_mem _ hp)] at halt
    exact halt

/-- Behind the one prefix that lies ahead the number is read in its base, and if there is none of
that kind, it is decimal. -/
lemma reads?_others_of_mem (hpair : prefixes.Pairwise fun p q =>
      ∀ t t', Text.Utf8.encode p.1 ++ t ≠ Text.Utf8.encode q.1 ++ t') (hp : p ∈ prefixes)
    (h : ahead = Text.Utf8.encode p.1 ++ rest) :
    (prefixes.foldr (fun (word, base) others => attempt (ofString word >> body base) <|> others)
      (body 10)).reads? ahead =
      (((body p.2).reads? rest).map (Text.Utf8.encode p.1 ++ ·)).or ((body 10).reads? ahead) := by
  induction prefixes with
  | nil => cases hp
  | cons q prefixes ih =>
    have halt := reads?_alt (goesBack_attempt (ofString q.1 >> body q.2)) (prefixes.foldr
      (fun (word, base) others => attempt (ofString word >> body base) <|> others) (body 10)) ahead
    have hseq : (ofString q.1 >> body q.2).reads? ahead = _ := reads?_seq _ _ _
    obtain ⟨hfirst, hrest⟩ := List.pairwise_cons.mp hpair
    rw [reads?_attempt, hseq, spells_ofString] at halt
    rcases List.mem_cons.mp hp with rfl | hp
    · have hothers : ∀ q ∈ prefixes, ¬ Text.Utf8.encode q.1 <+: ahead := by
        rintro q hq ⟨t, ht⟩
        exact hfirst q hq rest t (h.symm.trans ht.symm)
      rw [if_pos ⟨rest, h.symm⟩, Option.bind_some, reads?_others_decimal hothers, h,
        List.drop_left, ← h] at halt
      exact halt
    · have hno : ¬ Text.Utf8.encode q.1 <+: ahead := by
        rintro ⟨t, ht⟩
        exact hfirst p hp t rest (ht.trans h)
      rw [if_neg hno, Option.bind_none, Option.none_or, ih hrest hp] at halt
      exact halt

lemma reads?_withBase_decimal (h : ∀ p ∈ basePrefixes, ¬ Text.Utf8.encode p.1 <+: ahead) :
    (withBase body).reads? ahead = (body 10).reads? ahead := reads?_others_decimal h

lemma reads?_withBase_of_mem (hp : p ∈ basePrefixes) (h : ahead = Text.Utf8.encode p.1 ++ rest) :
    (withBase body).reads? ahead =
      (((body p.2).reads? rest).map (Text.Utf8.encode p.1 ++ ·)).or ((body 10).reads? ahead) :=
  reads?_others_of_mem pairwise_basePrefixes hp h

/-- The bases may also be tried as choices that are nested to the left. -/
theorem run_withBase (body : Nat → Pattern) (src : Source) (s : Scan) :
    let inBase (word : String) (base : Nat) : Pattern := attempt (ofString word >> body base)
    (withBase body).run src s =
      (((((inBase "0b" 2 <|> inBase "0q" 4) <|> inBase "0o" 8) <|> inBase "0d" 10) <|>
        inBase "0x" 16) <|> body 10).run src s := by
  intro inBase
  have halt : ∀ p q : Pattern, (p <|> q).run src = choice (p.run src) (q.run src) := fun p q => rfl
  have hright : withBase body = (inBase "0b" 2 <|> inBase "0q" 4 <|> inBase "0o" 8 <|>
      inBase "0d" 10 <|> inBase "0x" 16 <|> body 10) := rfl
  simp only [hright, halt, choice_assoc]

lemma digits_isSome (h : ahead.head?.any (digit base).contains = true) :
    ((digits base).reads? ahead).isSome := by
  obtain ⟨b, hb, hdigit⟩ := (Option.any_eq_true _ _).mp h
  obtain ⟨tail, rfl⟩ := List.head?_eq_some_iff.mp hb
  have hrun : ((ofClass (digit base)).oneOrMore.reads? (b :: tail)).isSome := by
    rw [oneOrMore, reads?_repetition_succ, reads?_seq,
      reads?_ofClass_cons (isEpsilon_digit base), if_pos hdigit, Option.bind_some,
      Option.isSome_map]
    exact (goesBack_ofClass _).reads?_repetition_isSome _ _
  obtain ⟨u, hu⟩ := Option.isSome_iff_exists.mp hrun
  have hseq : (digits base).reads? (b :: tail) = _ := reads?_seq _ _ _
  rw [hseq, hu, Option.bind_some, Option.isSome_map]
  exact (goesBack_attempt _).reads?_repetition_isSome _ _

/-- A whole number is read before any digit. -/
lemma integer_isSome (h : ahead.head?.any (digit 10).contains = true) :
    (integer.reads? ahead).isSome := by
  have hsign : (ofClass sign).reads? ahead = none := by
    refine Option.eq_none_iff_forall_ne_some.mpr fun w hw => ?_
    have hany := (startsIn_ofClass (c := sign) (isEpsilon_ofList _) ahead w hw).1
    have hop : ahead.head?.any Rule.operatorStart.contains = false :=
      FirstByte.any_eq_false (s := .digit) (t := .operator) (by decide) h
    rw [any_eq_false_of_subset Rule.signs_subset_operators hop] at hany
    cases hany
  have hopt : optionalSign.reads? ahead = some (((ofClass sign).reads? ahead).getD []) :=
    reads?_optional (goesBack_ofClass sign) ahead
  have hseq : integer.reads? ahead = _ := reads?_seq _ _ _
  rw [hseq, hopt, hsign, Option.bind_some, Option.isSome_map]
  have hdecimal := digits_isSome h
  by_cases hp : ∃ p ∈ basePrefixes, Text.Utf8.encode p.1 <+: ahead
  · obtain ⟨p, hp, rest, hrest⟩ := hp
    have hbase : (withBase digits).reads? ahead = _ := reads?_withBase_of_mem hp hrest.symm
    rw [Option.getD_none, List.length_nil, List.drop_zero, hbase, Option.isSome_or, hdecimal,
      Bool.or_true]
  · have hbase : (withBase digits).reads? ahead = _ :=
      reads?_withBase_decimal fun p hp' hpre => hp ⟨p, hp', hpre⟩
    rw [Option.getD_none, List.length_nil, List.drop_zero, hbase]
    exact hdecimal

lemma realDigits_extends (h : (realDigits base).reads? ahead = some w) :
    ∃ u, (digits base).reads? ahead = some u ∧ u <+: w := by
  have hseq : ∀ {q : Pattern} {v : List UInt8}, ((digits base).seq q).reads? ahead = some v →
      ∃ u, (digits base).reads? ahead = some u ∧ u <+: v := by
    intro q v hv
    rw [reads?_seq] at hv
    obtain ⟨u, hu, hv⟩ := Option.bind_eq_some_iff.mp hv
    obtain ⟨t, -, rfl⟩ := Option.map_eq_some_iff.mp hv
    exact ⟨u, hu, List.prefix_append u t⟩
  have halt : (realDigits base).reads? ahead = _ :=
    reads?_alt (goesBack_realDigits_left base) ((digits base).seq exponent) ahead
  rw [halt, Option.or_eq_some_iff] at h
  rcases h with h | ⟨-, h⟩
  · rw [reads?_seq, reads?_attempt] at h
    obtain ⟨v, hv, h⟩ := Option.bind_eq_some_iff.mp h
    obtain ⟨t, -, rfl⟩ := Option.map_eq_some_iff.mp h
    obtain ⟨u, hu, hpre⟩ := hseq hv
    exact ⟨u, hu, hpre.trans (List.prefix_append v t)⟩
  · exact hseq h

lemma reads?_cons_eq_none {q : Pattern} {c : ByteClass} (hq : q.StartsIn c)
    (hb : c.contains b = false) : q.reads? (b :: rest) = none := by
  apply Option.eq_none_iff_forall_ne_some.mpr
  intro w hw
  have hany := (hq _ w hw).1
  rw [List.head?_cons, Option.any_some, hb] at hany
  cases hany

/-- The letter of a prefix goes on with no decimal number. -/
lemma contains_prefixLetter {letter : UInt8} (h : letter ∈ [98, 113, 111, 100, 120]) :
    (digit 10).contains letter = false ∧ (ByteClass.char '_').contains letter = false ∧
      (ByteClass.char '.').contains letter = false ∧
      exponentLetters.contains letter = false := by
  have hclasses : ∀ b ∈ [98, 113, 111, 100, 120], (digit 10).contains b = false ∧
    (ByteClass.char '_').contains b = false ∧ (ByteClass.char '.').contains b = false ∧
    exponentLetters.contains b = false := List.all_iff_forall_prop.mp (by decide)
  exact hclasses letter h

/-- Where a prefix of a base is ahead the decimal digits end with its zero. -/
lemma digits_ten_before_prefix (hp : p ∈ basePrefixes) :
    (digits 10).reads? (Text.Utf8.encode p.1 ++ rest) = some [48] := by
  obtain ⟨letter, hword, hletter⟩ := encode_prefix hp
  obtain ⟨hdigit, hscore, -, -⟩ := contains_prefixLetter hletter
  have hseq : (digits 10).reads? (48 :: letter :: rest) = _ := reads?_seq _ _ _
  have hzero : (digit 10).contains 48 = true := by decide
  have hgroup : ((ofClass (.char '_')).oneOrMore.seq
      (ofClass (digit 10)).oneOrMore).attempt.reads? (letter :: rest) = none :=
    reads?_cons_eq_none (((startsIn_ofClass (isEpsilon_ofList _)).oneOrMore.seq _).attempt) hscore
  have hdigits : (ofClass (digit 10)).reads? (letter :: rest) = none :=
    reads?_cons_eq_none (startsIn_ofClass (isEpsilon_digit 10)) hdigit
  have hgroups := reads?_repetition_none (goesBack_attempt _) hgroup unbounded
  have hrun := reads?_repetition_none (goesBack_ofClass _) hdigits (unbounded - 1)
  have hahead : Text.Utf8.encode p.1 ++ rest = 48 :: letter :: rest := by
    rw [hword]
    rfl
  rw [hahead, hseq, oneOrMore, reads?_repetition_succ, reads?_seq,
    reads?_ofClass_cons (isEpsilon_digit 10), if_pos hzero, Option.bind_some,
    List.length_singleton, List.drop_one, List.tail_cons, hrun]
  exact congrArg (Option.map _) hgroups

/-- Where a prefix of a base is ahead no decimal real number is read: the zero would have to go on
with a point or an exponent. -/
lemma realDigits_ten_eq_none (hp : p ∈ basePrefixes) :
    (realDigits 10).reads? (Text.Utf8.encode p.1 ++ rest) = none := by
  obtain ⟨letter, hword, hletter⟩ := encode_prefix hp
  obtain ⟨-, -, hpoint, hexponent⟩ := contains_prefixLetter hletter
  have hdigits : (digits 10).reads? (Text.Utf8.encode p.1 ++ rest) = some [48] :=
    digits_ten_before_prefix hp
  rw [hword] at hdigits ⊢
  have hseq : ∀ {q : Pattern} {c : ByteClass}, q.StartsIn c → c.contains letter = false →
      ((digits 10).seq q).reads? (48 :: letter :: rest) = none := by
    intro q c hq hc
    have hdigits : (digits 10).reads? (48 :: letter :: rest) = some [48] := hdigits
    rw [reads?_seq, hdigits, Option.bind_some, List.length_singleton, List.drop_one,
      List.tail_cons, reads?_cons_eq_none hq hc, Option.map_none]
  have hfraction : (fraction 10).reads? (48 :: letter :: rest) = none :=
    hseq ((startsIn_ofClass (c := .char '.') (isEpsilon_ofList _)).seq (digits 10)) hpoint
  have hplain : ((digits 10).seq exponent).reads? (48 :: letter :: rest) = none :=
    hseq ((startsIn_ofClass (c := exponentLetters) (isEpsilon_ofList _)).seq _) hexponent
  have halt : (realDigits 10).reads? (48 :: letter :: rest) = _ :=
    reads?_alt (goesBack_realDigits_left 10) ((digits 10).seq exponent) _
  refine halt.trans ?_
  rw [reads?_seq, reads?_attempt, hfraction, hplain]
  rfl

lemma withBase_extends (h : (withBase realDigits).reads? ahead = some w) :
    ∃ u, (withBase digits).reads? ahead = some u ∧ u <+: w := by
  by_cases hp : ∃ p ∈ basePrefixes, Text.Utf8.encode p.1 <+: ahead
  · obtain ⟨p, hp, rest, hrest⟩ := hp
    rw [reads?_withBase_of_mem hp hrest.symm, ← hrest, realDigits_ten_eq_none hp,
      Option.or_none] at h
    obtain ⟨v, hv, rfl⟩ := Option.map_eq_some_iff.mp h
    obtain ⟨u, hu, hpre⟩ := realDigits_extends hv
    refine ⟨Text.Utf8.encode p.1 ++ u, ?_, (List.prefix_append_right_inj _).mpr hpre⟩
    rw [reads?_withBase_of_mem hp hrest.symm, hu, Option.map_some, Option.some_or]
  · have hno : ∀ p ∈ basePrefixes, ¬ Text.Utf8.encode p.1 <+: ahead :=
      fun p hp' hpre => hp ⟨p, hp', hpre⟩
    rw [reads?_withBase_decimal hno] at h
    rw [reads?_withBase_decimal hno]
    exact realDigits_extends h

/-- A real number begins with the whole number at the same place. -/
lemma real_extends_integer (h : real.reads? ahead = some w) :
    ∃ u, integer.reads? ahead = some u ∧ u <+: w := by
  have hreal : real.reads? ahead = _ := reads?_seq _ _ _
  have hinteger : integer.reads? ahead = _ := reads?_seq _ _ _
  rw [hreal] at h
  obtain ⟨s, hs, h⟩ := Option.bind_eq_some_iff.mp h
  obtain ⟨v, hv, rfl⟩ := Option.map_eq_some_iff.mp h
  obtain ⟨u, hu, hpre⟩ := withBase_extends hv
  refine ⟨s ++ u, ?_, (List.prefix_append_right_inj s).mpr hpre⟩
  rw [hinteger, hs, Option.bind_some, hu, Option.map_some]

end Lexeme

end ByteLexer
