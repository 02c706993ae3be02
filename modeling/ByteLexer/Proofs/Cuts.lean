import ByteLexer.Proofs.DefaultReadings

/-!
# Cutting a text behind a token

What the default rules have read they would read again if the text ended there or went on with
another line: numbers, words and operators have no line feed in them, and what stands between
delimiters ends at the same delimiter whatever comes after it. Only a comment that has run to the
end of the text must not be given a continuation.
-/

namespace ByteLexer

variable {closing d u v w rest tail ahead : List UInt8}

lemma prefix_append_iff (h : d.length ≤ v.length) (tail : List UInt8) :
    d <+: v ++ tail ↔ d <+: v :=
  ⟨fun hpre => List.prefix_of_prefix_length_le hpre (List.prefix_append v tail) h,
    fun hpre => hpre.trans (List.prefix_append v tail)⟩

lemma mem_getLast?_append {b : UInt8} (h : b ∈ v.getLast?) (u : List UInt8) :
    b ∈ (u ++ v).getLast? := by
  rw [List.getLast?_append, Option.mem_def.mp h]
  rfl

lemma mem_getLast?_of_suffix {b : UInt8} (h : d ++ [b] <:+ v) : b ∈ v.getLast? := by
  obtain ⟨u, rfl⟩ := h
  exact mem_getLast?_append List.getLast?_concat u

namespace Lexeme

open Pattern

lemma closedBy_of_prefix (hne : closing ≠ []) (h : closing <+: ahead) :
    closedBy closing ahead = some closing := by
  cases ahead with
  | nil => exact (hne (List.prefix_nil.mp h)).elim
  | cons b rest => cases rest <;> rw [closedBy, if_pos h]

/-- A loop that has been closed ends with the closing delimiter, and what comes then does not
matter. -/
lemma closedBy_cut (hne : closing ≠ []) (h : closedBy closing ahead = some v) :
    (∃ rest, ahead = v ++ rest) ∧ closing <:+ v ∧
      ∀ tail, closedBy closing (v ++ tail) = some v := by
  have hclosed : ∀ {ahead : List UInt8}, closing <+: ahead → (∃ rest, ahead = closing ++ rest) ∧
      closing <:+ closing ∧ ∀ tail, closedBy closing (closing ++ tail) = some closing := by
    rintro ahead ⟨rest, rfl⟩
    exact ⟨⟨rest, rfl⟩, List.suffix_rfl,
      fun tail => closedBy_of_prefix hne (List.prefix_append closing tail)⟩
  fun_induction closedBy closing ahead generalizing v with
  | case1 => cases h
  | case2 b hpre =>
    cases h
    exact hclosed hpre
  | case3 => cases h
  | case4 b c rest hpre =>
    cases h
    exact hclosed hpre
  | case5 c rest hpre ih =>
    obtain ⟨v, hv, rfl⟩ := Option.map_eq_some_iff.mp h
    obtain ⟨⟨t, rfl⟩, hsuffix, hcut⟩ := ih hv
    have hsuffix : closing <:+ 92 :: c :: v := hsuffix.trans (List.suffix_append [92, c] v)
    refine ⟨⟨t, rfl⟩, hsuffix, fun tail => ?_⟩
    have hno : ¬ closing <+: 92 :: c :: v ++ tail := by
      rw [prefix_append_iff hsuffix.length_le]
      exact fun hp => hpre (hp.trans (List.prefix_append (92 :: c :: v) t))
    rw [List.cons_append, List.cons_append] at hno ⊢
    rw [closedBy, if_neg hno, if_pos rfl, hcut, Option.map_some]
  | case6 b c rest hpre hb ih =>
    obtain ⟨v, hv, rfl⟩ := Option.map_eq_some_iff.mp h
    obtain ⟨⟨t, ht⟩, hsuffix, hcut⟩ := ih hv
    cases v with
    | nil => exact (hne (List.suffix_nil.mp hsuffix)).elim
    | cons x v =>
      obtain ⟨rfl, rfl⟩ := List.cons.inj ht
      have hsuffix : closing <:+ b :: c :: v := hsuffix.trans (List.suffix_cons b (c :: v))
      refine ⟨⟨t, rfl⟩, hsuffix, fun tail => ?_⟩
      have hno : ¬ closing <+: b :: c :: v ++ tail := by
        rw [prefix_append_iff hsuffix.length_le]
        exact fun hp => hpre (hp.trans (List.prefix_append (b :: c :: v) t))
      have hcut := hcut tail
      rw [List.cons_append, List.cons_append] at hno
      rw [List.cons_append] at hcut ⊢
      rw [List.cons_append, closedBy, if_neg hno, if_neg hb, hcut, Option.map_some]

/-- The end of a block is the first `*/` whatever comes after it. -/
lemma blockRest_cut (h : blockRest ahead = some v) :
    [42, 47] <:+ v ∧ ∀ tail, blockRest (v ++ tail) = some v := by
  obtain ⟨body, rfl, ⟨rest, rfl⟩, hfirst⟩ := blockRest_eq_some_iff.mp h
  refine ⟨List.suffix_append _ _, fun tail => ?_⟩
  refine blockRest_eq_some_iff.mpr ⟨body, rfl, List.prefix_append _ _, fun other hother => ?_⟩
  by_contra hlt
  have hpre : other ++ [42, 47] <+: body ++ [42, 47] :=
    List.prefix_of_prefix_length_le hother (List.prefix_append _ _) (by simp; omega)
  exact hlt (hfirst other (hpre.trans (List.prefix_append _ _)))

/-- The rest of a line ends with a line end or with the text. -/
lemma lineRest_cut (h : lineRest (v ++ rest) = v) :
    (rest = [] ∨ ∃ b ∈ v.getLast?, b < 128) ∧
      ∀ tail, (rest = [] → tail = []) → lineRest (v ++ tail) = v := by
  have hnewline : ∀ b ∈ Text.Utf8.encode "\r\n", b < 128 := List.all_iff_forall_prop.mp (by decide)
  induction v with
  | nil =>
    have hrest : rest = [] := by
      cases rest with
      | nil => rfl
      | cons b rest =>
        rw [List.nil_append, lineRest] at h
        split at h <;> cases h
    refine ⟨.inl hrest, fun tail htail => ?_⟩
    rw [htail hrest]
    rfl
  | cons b v ih =>
    rw [List.cons_append, lineRest] at h
    split at h
    · next hb =>
      obtain rfl : v = [] := (List.cons.inj h).2.symm
      refine ⟨.inr ⟨b, rfl, hnewline b ?_⟩, fun tail _ => if_pos hb⟩
      rwa [ByteClass.newline, ByteClass.ofString, ByteClass.contains_ofList,
        List.contains_iff_mem] at hb
    · next hb =>
      obtain ⟨hlast, hcut⟩ := ih (List.cons.inj h).2
      refine ⟨hlast.imp_right ?_, fun tail htail => ?_⟩
      · rintro ⟨c, hc, hlt⟩
        refine ⟨c, ?_, hlt⟩
        rw [List.getLast?_cons, Option.mem_def.mp hc]
        rfl
      · rw [List.cons_append, lineRest, if_neg hb, hcut tail htail]

lemma comment_cut (h : comment.reads? (w ++ rest) = some w) :
    (rest = [] ∨ ∃ b ∈ w.getLast?, b < 128) ∧
      ∀ tail, (rest = [] → tail = []) → comment.reads? (w ++ tail) = some w := by
  obtain ⟨line, hahead, rfl⟩ | ⟨block, v, -, hv, rfl⟩ := comment_cases h
  · rw [List.append_assoc] at hahead
    have hline : lineRest (lineRest line ++ rest) = lineRest line :=
      congrArg lineRest (List.append_cancel_left hahead)
    obtain ⟨hlast, hcut⟩ := lineRest_cut hline
    refine ⟨hlast.imp_right fun ⟨b, hb, hlt⟩ => ⟨b, mem_getLast?_append hb _, hlt⟩,
      fun tail htail => ?_⟩
    rw [List.append_assoc, reads?_comment_line, hcut tail htail]
  · obtain ⟨hsuffix, hcut⟩ := blockRest_cut hv
    have hlast : 47 ∈ v.getLast? := mem_getLast?_of_suffix (d := [42]) hsuffix
    refine ⟨.inr ⟨47, mem_getLast?_append hlast _, by decide⟩, fun tail _ => ?_⟩
    rw [List.append_assoc, reads?_comment_block, hcut tail]
    rfl

lemma text_cut (h : text.reads? (w ++ rest) = some w) :
    (∃ b ∈ w.getLast?, b < 128) ∧
      ∀ tail, (∀ b ∈ tail.head?, b = 10) → text.reads? (w ++ tail) = some w := by
  rw [reads?_text, Option.or_eq_some_iff] at h
  rcases h with h | ⟨-, h⟩
  · split at h
    · obtain ⟨v, hv, rfl⟩ := Option.map_eq_some_iff.mp h
      have hthree : closedBy [34, 34, 34] (v ++ rest) = some v := hv
      obtain ⟨-, hsuffix, hcut⟩ := closedBy_cut (by decide) hthree
      have hlast : 34 ∈ v.getLast? := mem_getLast?_of_suffix (d := [34, 34]) hsuffix
      refine ⟨⟨34, mem_getLast?_append hlast _, by decide⟩, fun tail _ => ?_⟩
      have hread : closedBy [34, 34, 34] (([34, 34, 34] ++ v ++ tail).drop 3) = some v := hcut tail
      rw [reads?_text, if_pos ⟨v ++ tail, (List.append_assoc _ _ _).symm⟩, hread]
      rfl
    · cases h
  · split at h
    · obtain ⟨v, hv, rfl⟩ := Option.map_eq_some_iff.mp h
      have hone : closedBy [34] (v ++ rest) = some v := hv
      obtain ⟨-, hsuffix, hcut⟩ := closedBy_cut (by decide) hone
      have hlast : 34 ∈ v.getLast? := mem_getLast?_of_suffix (d := []) hsuffix
      refine ⟨⟨34, mem_getLast?_append hlast _, by decide⟩, fun tail htail => ?_⟩
      -- A second quote would have closed the first, and a third one would be the line feed.
      have hno : ¬ [34, 34, 34] <+: [34] ++ v ++ tail := by
        rintro ⟨t, ht⟩
        cases v with
        | nil => cases hlast
        | cons x v =>
          obtain ⟨rfl, hthird⟩ := List.cons.inj (List.cons.inj ht).2
          have hclosed : closedBy [34] (34 :: v ++ rest) = some [34] :=
            closedBy_of_prefix (by decide) ⟨v ++ rest, rfl⟩
          obtain rfl : v = [] := (List.cons.inj (Option.some.inj (hone.symm.trans hclosed))).2
          have htail' : tail = 34 :: t := hthird.symm
          exact absurd (htail 34 (by rw [htail']; rfl)) (by decide)
      have hread : closedBy [34] (([34] ++ v ++ tail).drop 1) = some v := hcut tail
      rw [reads?_text, if_neg hno, if_pos ⟨v ++ tail, (List.append_assoc _ _ _).symm⟩, hread]
      rfl
    · cases h

lemma character_cut (h : character.reads? (w ++ rest) = some w) :
    (∃ b ∈ w.getLast?, b < 128) ∧ ∀ tail, character.reads? (w ++ tail) = some w := by
  obtain ⟨u, hu, rfl, -⟩ := character_eq_some_iff.mp h
  exact ⟨⟨39, List.getLast?_concat (l := 39 :: u), by decide⟩,
    fun tail => character_eq_some_iff.mpr ⟨u, hu, rfl, List.prefix_append _ tail⟩⟩

/-- A pattern that reads the longest text of a language without line feeds. -/
lemma munches_cut {p : Pattern} {L : Language UInt8} (hp : p.Munches L)
    (hL : ConsistsOf L plainBytes) (hlen : (w ++ rest).length ≤ unbounded)
    (hlen' : (w ++ tail).length ≤ unbounded) (htail : ∀ b ∈ tail.head?, b = 10)
    (h : ∀ u, p.reads? (w ++ rest) = some u → u = w) :
    p.reads? (w ++ tail) = p.reads? (w ++ rest) := by
  refine (hp (w ++ tail) hlen').unique ?_
  refine (hp (w ++ rest) hlen).exchange h hL fun b hb hplain => ?_
  exact hplain.2 (htail b hb)

end Lexeme

namespace Rule

variable {settings : Settings} {kind : TokenKind}

lemma operator_plain (h : (w, kind) ∈ spellings TokenKind.operators) :
    ∀ b ∈ w, b < 128 ∧ b ≠ 10 := by
  have hplain : ∀ entry ∈ spellings TokenKind.operators,
    entry.1.all fun b => b < 128 ∧ b ≠ 10 := by decide
  exact List.all_iff_forall_prop.mp (hplain _ h)

lemma operators_plain : ConsistsOf operatorTable.language Lexeme.plainBytes := by
  intro w hw
  obtain ⟨tag, htag⟩ := Option.isSome_iff_exists.mp hw
  exact operator_plain (KeywordTable.mem_of_get?_ofList htag)

lemma operatorReading_cut (h : operatorReading (w ++ rest) = some (kind, w))
    (htail : ∀ b ∈ tail.head?, b = 10) : operatorReading (w ++ tail) = some (kind, w) := by
  obtain ⟨⟨u, tag⟩, hfound, heq⟩ := Option.map_eq_some_iff.mp h
  obtain ⟨rfl, rfl⟩ := Prod.mk.inj heq
  have hlong := operatorTable.isLongestPrefix_longestIn (u ++ rest)
  rw [hfound, Option.map_some] at hlong
  have hcut : IsLongestPrefix operatorTable.language (u ++ tail) (some u) :=
    hlong.exchange (fun v hv => (Option.some.inj hv).symm) operators_plain
      fun b hb hplain => hplain.2 (htail b hb)
  rw [operatorReading, KeywordTable.longestIn_of_isLongestPrefix hcut,
    KeywordTable.get?_of_longestIn hfound]
  rfl

/-- No operator begins as a comment does, and a slash at the end of a line does not either. -/
lemma comment_eq_none_of_operator (h : operatorReading (w ++ rest) = some (kind, w))
    (htail : ∀ b ∈ tail.head?, b = 10) : Lexeme.comment.reads? (w ++ tail) = none := by
  have hall : ∀ entry ∈ spellings TokenKind.operators, entry.1 ≠ [] ∧
    ¬ [47, 47] <+: entry.1 ∧ ¬ [47, 42] <+: entry.1 := by decide
  obtain ⟨hne, hline, hblock⟩ := hall _ (mem_of_operatorReading h)
  have hno : ∀ b, b ≠ 10 → ¬ [47, b] <+: w → ¬ [47, b] <+: w ++ tail := by
    intro b hb hw hpre
    cases w with
    | nil => exact hne rfl
    | cons x w =>
      cases w with
      | nil =>
        obtain ⟨-, hpre⟩ := List.cons_prefix_cons.mp hpre
        obtain ⟨t, ht⟩ := hpre
        have htail' : tail = b :: t := ht.symm
        exact hb (htail b (by rw [htail']; rfl))
      | cons y w =>
        rw [prefix_append_iff (by simp)] at hpre
        exact hw hpre
  rw [Lexeme.reads?_comment, if_neg (hno 47 (by decide) hline),
    if_neg (hno 42 (by decide) hblock)]

lemma numberReading_cut (hlen : (w ++ rest).length ≤ Pattern.unbounded)
    (h : numberReading (w ++ rest) = some (kind, w)) :
    (∀ b ∈ w, b < 128) ∧ ∀ tail, (w ++ tail).length ≤ Pattern.unbounded →
      (∀ b ∈ tail.head?, b = 10) → numberReading (w ++ tail) = some (kind, w) := by
  have hreal := Lexeme.munches_real (w ++ rest) hlen
  have hinteger := Lexeme.munches_integer (w ++ rest) hlen
  rw [numberReading] at h
  cases hr : Lexeme.real.reads? (w ++ rest) with
  | some u =>
    rw [hr, Option.map_some, Option.some_or] at h
    obtain ⟨rfl, rfl⟩ := Prod.mk.inj (Option.some.inj h)
    rw [hr] at hreal
    refine ⟨fun b hb => (Lexeme.reals_plain u hreal.2.1 b hb).1, fun tail hlen' htail => ?_⟩
    have hcut := Lexeme.munches_cut Lexeme.munches_real Lexeme.reals_plain hlen hlen' htail
      fun v hv => (Option.some.inj (hr.symm.trans hv)).symm
    rw [numberReading, hcut, hr]
    rfl
  | none =>
    rw [hr, Option.map_none, Option.none_or] at h
    obtain ⟨u, hi, heq⟩ := Option.map_eq_some_iff.mp h
    obtain ⟨rfl, rfl⟩ := Prod.mk.inj heq
    rw [hi] at hinteger
    refine ⟨fun b hb => (Lexeme.integers_plain u hinteger.2.1 b hb).1, fun tail hlen' htail => ?_⟩
    have hcut := Lexeme.munches_cut Lexeme.munches_real Lexeme.reals_plain hlen hlen' htail
      fun v hv => by cases hr.symm.trans hv
    have hcut' := Lexeme.munches_cut Lexeme.munches_integer Lexeme.integers_plain hlen hlen' htail
      fun v hv => (Option.some.inj (hi.symm.trans hv)).symm
    rw [numberReading, hcut, hr, hcut', hi]
    rfl

lemma wordRun_cut (h : wordRun (w ++ rest) = w) (htail : ∀ b ∈ tail.head?, b = 10) :
    wordRun (w ++ tail) = w := by
  have hword : ∀ b ∈ w, ByteClass.word.contains b = true := by
    intro b hb
    rw [← h] at hb
    exact contains_of_mem_wordRun hb
  have hnil : wordRun tail = [] := by
    rw [wordRun_eq_nil_iff, ← Bool.not_eq_true, Option.any_eq_true]
    rintro ⟨b, hb, hin⟩
    rw [htail b hb] at hin
    exact absurd hin (by decide)
  rw [wordRun_append hword, hnil, List.append_nil]

/-- A piece that has been read ends with a byte below 128 or with the text, and it is read again if
the text is cut behind it or goes on with another line there; the end of a text is not to be
moved. -/
structure IsCut (settings : Settings) (kind : TokenKind) (w rest : List UInt8) : Prop where
  last : rest = [] ∨ ∃ b ∈ w.getLast?, b < 128
  again : ∀ tail, (w ++ tail).length ≤ Pattern.unbounded → (∀ b ∈ tail.head?, b = 10) →
    (rest = [] → tail = []) → defaultReading settings (w ++ tail) = some (kind, w)

lemma defaultReading_cut (hlen : (w ++ rest).length ≤ Pattern.unbounded)
    (h : defaultReading settings (w ++ rest) = some (kind, w)) : IsCut settings kind w rest := by
  have hne := defaultReading_ne_nil h
  have hhead : ∀ t, (w ++ t).head? = (w ++ rest).head? := fun t => by
    rw [List.head?_append_of_ne_nil w hne, List.head?_append_of_ne_nil w hne]
  have hlast : (∀ b ∈ w, b < 128) → ∃ b ∈ w.getLast?, b < 128 := fun hall =>
    ⟨w.getLast hne, List.getLast?_eq_some_getLast hne, hall _ (List.getLast_mem hne)⟩
  obtain ⟨s, hstart⟩ := exists_firstByte h
  cases s with
  | letter =>
    rw [defaultReading_word hstart] at h
    obtain ⟨hkind, hrun⟩ := Prod.mk.inj (Option.some.inj h)
    refine ⟨.inr (hlast fun b hb => ?_), fun tail _ htail _ => ?_⟩
    · rw [← hrun] at hb
      exact word_ascii (contains_of_mem_wordRun hb)
    · rw [defaultReading_word (hhead tail ▸ hstart), wordRun_cut hrun htail, ← hkind, hrun]
  | digit =>
    rw [defaultReading_digit hstart] at h
    obtain ⟨hascii, hcut⟩ := numberReading_cut hlen h
    refine ⟨.inr (hlast hascii), fun tail hlen' htail _ => ?_⟩
    rw [defaultReading_digit (hhead tail ▸ hstart)]
    exact hcut tail hlen' htail
  | quote =>
    rw [defaultReading_quote hstart] at h
    obtain ⟨v, hv, heq⟩ := Option.map_eq_some_iff.mp h
    obtain ⟨rfl, rfl⟩ := Prod.mk.inj heq
    obtain ⟨hascii, hcut⟩ := Lexeme.text_cut hv
    refine ⟨.inr hascii, fun tail _ htail _ => ?_⟩
    rw [defaultReading_quote (hhead tail ▸ hstart), hcut tail htail, Option.map_some]
  | singleQuote =>
    rw [defaultReading_singleQuote hstart] at h
    obtain ⟨v, hv, heq⟩ := Option.map_eq_some_iff.mp h
    obtain ⟨rfl, rfl⟩ := Prod.mk.inj heq
    obtain ⟨hascii, hcut⟩ := Lexeme.character_cut hv
    refine ⟨.inr hascii, fun tail _ _ _ => ?_⟩
    rw [defaultReading_singleQuote (hhead tail ▸ hstart), hcut tail, Option.map_some]
  | operator =>
    rw [defaultReading_operator hstart, commentReading] at h
    have hoperator : operatorReading (w ++ rest) = some (kind, w) → IsCut settings kind w rest := by
      intro hop
      have hplain := operator_plain (mem_of_operatorReading hop)
      refine ⟨.inr (hlast fun b hb => (hplain b hb).1), fun tail _ htail _ => ?_⟩
      rw [defaultReading_operator (hhead tail ▸ hstart), commentReading,
        comment_eq_none_of_operator hop htail, operatorReading_cut hop htail, Option.map_none,
        ite_self, Option.none_or]
    split at h
    · next hkeep =>
      rcases Option.or_eq_some_iff.mp h with hcomment | ⟨-, hop⟩
      · obtain ⟨v, hv, heq⟩ := Option.map_eq_some_iff.mp hcomment
        obtain ⟨rfl, rfl⟩ := Prod.mk.inj heq
        obtain ⟨hascii, hcut⟩ := Lexeme.comment_cut hv
        refine ⟨hascii, fun tail _ _ hend => ?_⟩
        rw [defaultReading_operator (hhead tail ▸ hstart), commentReading, if_pos hkeep,
          hcut tail hend]
        rfl
      · exact hoperator hop
    · exact hoperator h

/-- Unless comments are tokens, no comment begins where a token does. -/
lemma comment_eq_none_of_cut (hkeep : settings.keepComments = false)
    (h : defaultReading settings (w ++ rest) = some (kind, w))
    (htail : ∀ b ∈ tail.head?, b = 10) : Lexeme.comment.reads? (w ++ tail) = none := by
  have hne := defaultReading_ne_nil h
  have hhead : (w ++ tail).head? = (w ++ rest).head? := by
    rw [List.head?_append_of_ne_nil w hne, List.head?_append_of_ne_nil w hne]
  by_cases hslash : (w ++ rest).head?.any (ByteClass.char '/').contains = true
  · have hstart := any_of_subset slash_subset_operators hslash
    rw [defaultReading_operator hstart, commentReading, hkeep, if_neg Bool.false_ne_true,
      Option.none_or] at h
    exact comment_eq_none_of_operator h htail
  · refine Option.eq_none_iff_forall_ne_some.mpr fun v hv => hslash ?_
    rw [← hhead]
    exact (Lexeme.startsIn_comment _ v hv).1

end Rule

end ByteLexer
