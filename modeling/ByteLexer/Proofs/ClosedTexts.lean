import ByteLexer.Proofs.Delimiters
import ByteLexer.Proofs.TextAhead

/-!
# Closed texts

A text ends at the first closing quotes that begin between two units. Where three quotes begin one
that is never closed, the first two of them are an empty text. A backslash that nothing follows is
no unit and closes nothing, so it might as well not be there.
-/

namespace ByteLexer

namespace Lexeme

open Pattern

/-- Units one after the other. -/
inductive InUnits : List UInt8 → Prop where
  | nil : InUnits []
  | cons {u body : List UInt8} (hu : IsUnit u) (h : InUnits body) : InUnits (u ++ body)

/-- Between quotes at the front of a text stand the units of `body`, and no closing quotes begin
earlier between two units. -/
structure Encloses (quotes ahead body : List UInt8) : Prop where
  units : InUnits body
  closed : quotes ++ body ++ quotes <+: ahead
  first : ∀ other, InUnits other → quotes ++ other ++ quotes <+: ahead →
    body.length ≤ other.length

/-- No units at all are enclosed by the quotes. -/
def Unclosed (quotes ahead : List UInt8) : Prop :=
  ∀ body, InUnits body → ¬ quotes ++ body ++ quotes <+: ahead

/-- What stands from some quotes through the ones that close them. -/
def quoted (quotes ahead : List UInt8) : Option (List UInt8) :=
  if quotes <+: ahead then (closedBy quotes (ahead.drop quotes.length)).map (quotes ++ ·) else none

variable {ahead body quotes rest u v w : List UInt8} {src : Source} {s : Scan}

lemma IsUnit.ne_nil (h : IsUnit u) : u ≠ [] := by
  rcases h with ⟨b, -, rfl⟩ | ⟨b, rfl⟩
  · exact List.cons_ne_nil b []
  · exact List.cons_ne_nil 92 [b]

/-- Only one unit lies ahead. -/
lemma IsUnit.unique (hu : IsUnit u) (hpre : u <+: ahead) (hv : IsUnit v) (hpre' : v <+: ahead) :
    u = v := by
  have hread := escapedChar_eq_some_iff.mpr ⟨hu, hpre⟩
  rw [escapedChar_eq_some_iff.mpr ⟨hv, hpre'⟩] at hread
  exact (Option.some.inj hread).symm

/-- A backslash at the end of a text completes no unit. -/
lemma InUnits.not_concat_backslash (h : InUnits body) : ¬ InUnits (body ++ [92]) := by
  intro hlast
  induction h with
  | nil =>
    generalize hend : ([] ++ [92] : List UInt8) = text at hlast
    cases hlast with
    | nil => cases hend
    | cons hu _ =>
      rcases hu with ⟨b, hb, rfl⟩ | ⟨b, rfl⟩
      · cases hend
        exact hb rfl
      · cases hend
  | @cons u body hu _ ih =>
    generalize hend : u ++ body ++ [92] = text at hlast
    cases hlast with
    | nil => simp at hend
    | @cons v body' hv hrest =>
      rw [List.append_assoc] at hend
      obtain rfl := hu.unique (List.prefix_append u _) hv ⟨body', hend.symm⟩
      rw [List.append_cancel_left hend] at ih
      exact ih hrest

/-- Closing quotes come at once, or else after a unit and what stands behind it. -/
lemma closedBy_eq (hne : quotes ≠ []) (rest : List UInt8) :
    closedBy quotes rest = if quotes <+: rest then some quotes else
      (escapedChar.reads? rest).bind fun u =>
        (closedBy quotes (rest.drop u.length)).map (u ++ ·) := by
  have hstep := readsOn_closedBy (p := literal quotes) (reads?_literal quotes) hne rest
  rw [hstep, reads?_literal]
  split
  · rfl
  · rw [Option.none_or]
    apply Option.bind_congr
    intro u hu
    rw [if_neg (escapedChar_eq_some_iff.mp hu).1.ne_nil]

/-- The loop of a text finds the first quotes between two units, if there are any. -/
lemma closedBy_cases (hne : quotes ≠ []) (rest : List UInt8) :
    (∃ body, closedBy quotes rest = some (body ++ quotes) ∧ InUnits body ∧
      body ++ quotes <+: rest ∧
      ∀ other, InUnits other → other ++ quotes <+: rest → body.length ≤ other.length) ∨
    closedBy quotes rest = none ∧ ∀ body, InUnits body → ¬ body ++ quotes <+: rest := by
  induction hn : rest.length using Nat.strong_induction_on generalizing rest with
  | _ n ih =>
    rw [closedBy_eq hne]
    by_cases hclosed : quotes <+: rest
    · rw [if_pos hclosed]
      exact .inl ⟨[], rfl, .nil, hclosed, fun other _ _ => Nat.zero_le _⟩
    · rw [if_neg hclosed]
      -- Whatever is closed here begins with the unit ahead.
      have hbegins : ∀ other, InUnits other → other ++ quotes <+: rest →
          ∃ u more, other = u ++ more ∧ IsUnit u ∧ InUnits more ∧ u <+: rest := by
        intro other hother hpre
        cases hother with
        | nil => exact (hclosed hpre).elim
        | @cons u more hu hmore =>
          rw [List.append_assoc] at hpre
          exact ⟨u, more, rfl, hu, hmore, (List.prefix_append u _).trans hpre⟩
      cases hread : escapedChar.reads? rest with
      | none =>
        refine .inr ⟨rfl, fun other hother hpre => ?_⟩
        obtain ⟨u, more, -, hu, -, hfront⟩ := hbegins other hother hpre
        rw [escapedChar_eq_some_iff.mpr ⟨hu, hfront⟩] at hread
        cases hread
      | some u =>
        obtain ⟨hu, tail, rfl⟩ := escapedChar_eq_some_iff.mp hread
        have hpos := List.length_pos_iff.mpr hu.ne_nil
        have hshort : tail.length < n := by
          rw [← hn, List.length_append]
          omega
        have hafter : ∀ other, InUnits other → other ++ quotes <+: u ++ tail →
            ∃ more, other = u ++ more ∧ InUnits more ∧ more ++ quotes <+: tail := by
          intro other hother hpre
          obtain ⟨v, more, rfl, hv, hmore, hfront⟩ := hbegins other hother hpre
          obtain rfl := hu.unique (List.prefix_append u tail) hv hfront
          rw [List.append_assoc, List.prefix_append_right_inj] at hpre
          exact ⟨more, rfl, hmore, hpre⟩
        rw [Option.bind_some, List.drop_left]
        obtain ⟨body, hfound, hbody, hpre, hfirst⟩ | ⟨hnone, hopen⟩ := ih _ hshort tail rfl
        · left
          refine ⟨u ++ body, ?_, .cons hu hbody, ?_, fun other hother hpre' => ?_⟩
          · rw [hfound, Option.map_some, List.append_assoc]
          · rw [List.append_assoc, List.prefix_append_right_inj]
            exact hpre
          · obtain ⟨more, rfl, hmore, hrest⟩ := hafter other hother hpre'
            have hle := hfirst more hmore hrest
            simp only [List.length_append]
            omega
        · right
          refine ⟨by rw [hnone, Option.map_none], fun other hother hpre => ?_⟩
          obtain ⟨more, -, hmore, hrest⟩ := hafter other hother hpre
          exact hopen more hmore hrest

lemma quoted_cases (quotes : List UInt8) (hne : quotes ≠ []) (ahead : List UInt8) :
    (∃ body, Encloses quotes ahead body ∧ quoted quotes ahead = some (quotes ++ body ++ quotes)) ∨
      Unclosed quotes ahead ∧ quoted quotes ahead = none := by
  unfold quoted
  by_cases hopened : quotes <+: ahead
  · obtain ⟨rest, rfl⟩ := hopened
    have hinside : ∀ other, quotes ++ other ++ quotes <+: quotes ++ rest ↔
        other ++ quotes <+: rest := by
      intro other
      rw [List.append_assoc, List.prefix_append_right_inj]
    rw [if_pos (List.prefix_append quotes rest), List.drop_left]
    obtain ⟨body, hfound, hbody, hpre, hfirst⟩ | ⟨hnone, hopen⟩ := closedBy_cases hne rest
    · left
      refine ⟨body, ⟨hbody, (hinside body).mpr hpre, fun other hother hpre' => ?_⟩, ?_⟩
      · exact hfirst other hother ((hinside other).mp hpre')
      · rw [hfound, Option.map_some, List.append_assoc]
    · right
      refine ⟨fun other hother hpre => ?_, by rw [hnone, Option.map_none]⟩
      exact hopen other hother ((hinside other).mp hpre)
  · rw [if_neg hopened]
    refine .inr ⟨fun body _ hpre => hopened ?_, rfl⟩
    rw [List.append_assoc] at hpre
    exact (List.prefix_append quotes _).trans hpre

lemma Encloses.unique (h : Encloses quotes ahead body) (h' : Encloses quotes ahead w) :
    body = w := by
  have hle := h.first w h'.units h'.closed
  have hge := h'.first body h.units h.closed
  have hboth := List.prefix_of_prefix_length_le h.closed h'.closed (by simp [hle])
  rw [List.append_assoc, List.append_assoc, List.prefix_append_right_inj] at hboth
  have hpre := List.prefix_of_prefix_length_le ((List.prefix_append body quotes).trans hboth)
    (List.prefix_append w quotes) hle
  exact hpre.eq_of_length_le hge

lemma quoted_eq_some_iff (hne : quotes ≠ []) :
    quoted quotes ahead = some w ↔
      ∃ body, Encloses quotes ahead body ∧ w = quotes ++ body ++ quotes := by
  obtain ⟨body, hbody, hfound⟩ | ⟨hopen, hnone⟩ := quoted_cases quotes hne ahead
  · rw [hfound]
    constructor
    · intro h
      exact ⟨body, hbody, (Option.some.inj h).symm⟩
    · rintro ⟨other, hother, rfl⟩
      rw [hbody.unique hother]
  · rw [hnone]
    refine iff_of_false (Option.some_ne_none w).symm ?_
    rintro ⟨body, hbody, -⟩
    exact hopen body hbody.units hbody.closed

/-- A backslash at the end of a text closes nothing. -/
lemma quoted_concat_backslash (hlast : quotes.getLast? = some 34) (ahead : List UInt8) :
    quoted quotes (ahead ++ [92]) = quoted quotes ahead := by
  have hne : quotes ≠ [] := by
    rintro rfl
    cases hlast
  have hfront : ∀ body, quotes ++ body ++ quotes <+: ahead ++ [92] ↔
      quotes ++ body ++ quotes <+: ahead := by
    intro body
    constructor
    · intro hpre
      obtain heq | hpre := List.prefix_concat_iff.mp hpre
      · have hend := congrArg List.getLast? heq
        rw [List.getLast?_append, hlast, List.getLast?_concat] at hend
        cases hend
      · exact hpre
    · intro hpre
      exact hpre.trans (List.prefix_append ahead [92])
  have hencloses : ∀ body, Encloses quotes (ahead ++ [92]) body ↔ Encloses quotes ahead body := by
    intro body
    constructor
    · intro h
      exact ⟨h.units, (hfront body).mp h.closed,
        fun other hother hpre => h.first other hother ((hfront other).mpr hpre)⟩
    · intro h
      exact ⟨h.units, (hfront body).mpr h.closed,
        fun other hother hpre => h.first other hother ((hfront other).mp hpre)⟩
  apply Option.ext
  intro w
  rw [quoted_eq_some_iff hne, quoted_eq_some_iff hne]
  simp only [hencloses]

lemma reads?_text_eq (ahead : List UInt8) :
    text.reads? ahead = (quoted [34, 34, 34] ahead).or (quoted [34] ahead) :=
  reads?_text ahead

/-- A pattern matches after just the bytes that it reads. -/
lemma run_eq_matched_iff {p : Pattern} (hle : s.position.offset ≤ src.bytes.size) :
    p.run src s = .matched ⟨s.position.advanceOver w, s.kept ++ w.toArray⟩ ↔
      p.reads? (src.remaining s.position) = some w := by
  rw [← Scan.keepAll_eq]
  obtain ⟨v, hread, -, hrun⟩ | ⟨v, hread, -, hrun⟩ := p.run_cases hle
  · rw [hrun, hread]
    constructor
    · intro h
      have hkept := congrArg Scan.kept (Outcome.matched.inj h)
      rw [Scan.keepAll_eq, Scan.keepAll_eq] at hkept
      have hbytes : v.toArray = w.toArray := (Array.append_right_inj s.kept).mp hkept
      rw [List.toArray_inj hbytes]
    · intro h
      cases h
      rfl
  · rw [hrun, hread]
    constructor
    · intro h
      cases h
    · intro h
      cases h

/-- A text goes through the first three quotes that close three at its front, or else through the
first quote that closes one, or there is none: three quotes that are not closed leave the empty text
of the first two. A backslash at the very end is no unit, and the same is read without it. -/
theorem text_delimited (src : Source) (s : Scan) (hle : s.position.offset ≤ src.bytes.size) :
    let ahead := src.remaining s.position
    let reads := fun w => text.run src s = .matched ⟨s.position.advanceOver w, s.kept ++ w.toArray⟩
    ((∃ body, Encloses [34, 34, 34] ahead body ∧ reads ([34, 34, 34] ++ body ++ [34, 34, 34])) ∨
      Unclosed [34, 34, 34] ahead ∧
        (∃ body, Encloses [34] ahead body ∧ reads ([34] ++ body ++ [34])) ∨
      Unclosed [34, 34, 34] ahead ∧ Unclosed [34] ahead ∧ ∃ t, text.run src s = .failed t) ∧
    ([34, 34, 34] <+: ahead → Unclosed [34, 34, 34] ahead → reads [34, 34]) ∧
    (∀ body, InUnits body → ¬ InUnits (body ++ [92])) ∧
    ∀ src' s', s'.position.offset ≤ src'.bytes.size →
      src'.remaining s'.position = ahead ++ [92] → ∀ w, reads w ↔
        text.run src' s' = .matched ⟨s'.position.advanceOver w, s'.kept ++ w.toArray⟩ := by
  intro ahead reads
  have hreads : ∀ w, reads w ↔ (quoted [34, 34, 34] ahead).or (quoted [34] ahead) = some w := by
    intro w
    rw [← reads?_text_eq]
    exact run_eq_matched_iff hle
  simp only [hreads]
  refine ⟨?_, ?_, fun body => InUnits.not_concat_backslash, fun src' s' hle' hahead w => ?_⟩
  · obtain ⟨body, hbody, hfound⟩ | ⟨hopen, hnone⟩ :=
      quoted_cases [34, 34, 34] (by decide) ahead
    · exact .inl ⟨body, hbody, by rw [hfound, Option.some_or]⟩
    · rw [hnone, Option.none_or]
      obtain ⟨body, hbody, hfound⟩ | ⟨hopen', hnone'⟩ :=
        quoted_cases [34] (by decide) ahead
      · exact .inr (.inl ⟨hopen, body, hbody, hfound⟩)
      · have hread : text.reads? ahead = none := by
          rw [reads?_text_eq, hnone, hnone', Option.none_or]
        obtain ⟨bytes, -, hrun⟩ := run_of_reads_none hle hread
        exact .inr (.inr ⟨hopen, hopen', _, hrun⟩)
  · rintro ⟨rest, hrest⟩ hopen
    have hthree : quoted [34, 34, 34] ahead = none := by
      obtain ⟨body, hbody, -⟩ | ⟨-, hnone⟩ :=
        quoted_cases [34, 34, 34] (by decide) ahead
      · exact (hopen body hbody.units hbody.closed).elim
      · exact hnone
    have hempty : Encloses [34] ahead [] :=
      ⟨.nil, ⟨34 :: rest, hrest⟩, fun other _ _ => Nat.zero_le _⟩
    rw [hthree, Option.none_or]
    exact (quoted_eq_some_iff (by decide)).mpr ⟨[], hempty, rfl⟩
  · rw [run_eq_matched_iff hle', hahead, reads?_text_eq, quoted_concat_backslash rfl,
      quoted_concat_backslash rfl]

/-- Behind three quotes an escaped quote and two more close nothing, with a backslash after them or
without. -/
theorem text_delimited_unclosed :
    let src := Source.ofBytes #[34, 34, 34, 92, 34, 34, 34]
    let src' := Source.ofBytes #[34, 34, 34, 92, 34, 34, 34, 92]
    let s := Scan.fresh .start
    let ahead := src.remaining s.position
    (s.position.offset ≤ src.bytes.size ∧ s.position.offset ≤ src'.bytes.size ∧
      [34, 34, 34] <+: ahead ∧ Unclosed [34, 34, 34] ahead ∧ InUnits [92, 34] ∧
      src'.remaining s.position = ahead ++ [92]) ∧
    text.run src s = .matched ⟨⟨1, 3, 2⟩, #[34, 34]⟩ ∧
    text.run src' s = .matched ⟨⟨1, 3, 2⟩, #[34, 34]⟩ ∧ ¬ InUnits [92, 34, 92] := by
  intro src src' s ahead
  have hle : s.position.offset ≤ src.bytes.size := by decide
  have hle' : s.position.offset ≤ src'.bytes.size := by decide
  have hquotes : [34, 34, 34] <+: ahead := by decide
  have hunits : InUnits ([92, 34] ++ []) := .cons (.inr ⟨34, rfl⟩) .nil
  have hopen : Unclosed [34, 34, 34] ahead := by
    obtain ⟨body, -, hfound⟩ | ⟨hopen, -⟩ := quoted_cases [34, 34, 34] (by decide) ahead
    · have hnone : quoted [34, 34, 34] ahead = none := by decide
      rw [hnone] at hfound
      cases hfound
    · exact hopen
  have hahead : src'.remaining s.position = ahead ++ [92] := by decide
  obtain ⟨-, hempty, hunit, hsame⟩ := text_delimited src s hle
  have hread := hempty hquotes hopen
  have hread' := (hsame src' s hle' hahead [34, 34]).mp hread
  exact ⟨⟨hle, hle', hquotes, hopen, hunits, hahead⟩, hread, hread', hunit [92, 34] hunits⟩

end Lexeme

end ByteLexer
