import ByteLexer.Proofs.Stream

/-!
# Comments as tokens

Whether comments are tokens or skipped, the lexer comes by the same places. What it does in one step
when they are skipped it does in as many steps as there are comments and one more when they are
tokens, and apart from the comments it gives the same tokens.
-/

namespace ByteLexer

namespace Lexer

/-- The settings with comments as tokens. -/
def keeping (settings : Settings) : Settings := { settings with keepComments := true }

/-- The settings with comments skipped. -/
def skipping (settings : Settings) : Settings := { settings with keepComments := false }

variable {src : Source} {settings : Settings} {n : Nat} {tokens : List Token} {l : Lexer}

/-- One step of a lexer that keeps comments, as one that skips them sees it: over a comment nothing
has changed, since the step goes on as it would from behind the comment, and any other token is the
token of both. -/
lemma next_keeping_cases (hsize : src.bytes.size ≤ Pattern.unbounded) (settings : Settings)
    (hn : n ≤ src.bytes.size) :
    (∃ token m, m ≤ src.bytes.size ∧ token.kind = .comment ∧
      (before src (keeping settings) n).next = (some token, before src (keeping settings) m) ∧
      (before src (skipping settings) n).next = (before src (skipping settings) m).next) ∨
    (∃ token m, m ≤ src.bytes.size ∧ token.kind ≠ .comment ∧
      (before src (keeping settings) n).next = (some token, before src (keeping settings) m) ∧
      (before src (skipping settings) n).next = (some token, before src (skipping settings) m)) ∨
    ∃ m ≤ src.bytes.size,
      (before src (keeping settings) n).next = (none, before src (keeping settings) m) ∧
      (before src (skipping settings) n).next = (none, before src (skipping settings) m) := by
  have hlen := length_drop_le hsize n
  have hkeep := next_before hsize (keeping settings) hn
  have hskip := next_before hsize (skipping settings) hn
  have hblanks : skips (keeping settings) (src.bytes.toList.drop n) =
      Lexeme.blanks (src.bytes.toList.drop n) := rfl
  have hskips : ∀ ahead, skips (skipping settings) ahead = Lexeme.skippable ahead := fun _ => rfl
  have hfirst := Source.add_length_le hn (prefix_skips (keeping settings) _)
  rw [hblanks] at hkeep hfirst
  rw [hskips, Lexeme.skippable_eq hlen, List.length_append, ← Nat.add_assoc] at hskip
  simp only [← List.drop_drop] at hskip
  simp only [List.drop_drop] at hskip
  generalize n + (Lexeme.blanks (src.bytes.toList.drop n)).length = first at *
  have hread : Rule.defaultReading (keeping settings) (src.bytes.toList.drop first) = _ :=
    Rule.defaultReading_keepComments settings (src.bytes.toList.drop first)
  rw [readToken_before _ hfirst] at hkeep
  cases hcomment : Lexeme.comment.reads? (src.bytes.toList.drop first) with
  | some w =>
    have hm := Source.add_length_le hfirst (Pattern.prefix_of_reads hcomment)
    rw [hread, hcomment] at hkeep
    refine .inl ⟨.ofBytes .comment (src.placeAt first) w, first + w.length, hm, rfl, hkeep, ?_⟩
    rw [hskip, hcomment, next_before hsize _ hm, hskips, List.length_append, ← Nat.add_assoc]
  | none =>
    rw [hcomment, List.length_nil, Nat.add_zero, readToken_before _ hfirst] at hskip
    rw [hread, hcomment, Option.map_none, Option.none_or] at hkeep
    cases hfound : Rule.defaultReading (skipping settings) (src.bytes.toList.drop first) with
    | none =>
      rw [hfound] at hskip
      rw [skipping] at hfound
      rw [hfound] at hkeep
      exact .inr (.inr ⟨first, hfirst, hkeep, hskip⟩)
    | some found =>
      obtain ⟨kind, w⟩ := found
      have hm := Source.add_length_le hfirst (Rule.prefix_of_defaultReading hfound)
      have hkind := Rule.kind_ne_comment rfl hfound
      rw [hfound] at hskip
      rw [skipping] at hfound
      rw [hfound] at hkeep
      exact .inr (.inl ⟨_, first + w.length, hm, hkind, hkeep, hskip⟩)

/-- A run to the end with comments as tokens is one without them when comments are skipped. -/
lemma Yields.skipping (hsize : src.bytes.size ≤ Pattern.unbounded) (hn : n ≤ src.bytes.size)
    (h : Yields (before src (keeping settings) n) tokens l) :
    ∃ m ≤ src.bytes.size, l = before src (keeping settings) m ∧
      Yields (before src (skipping settings) n) (tokens.filter (·.kind ≠ .comment))
        (before src (skipping settings) m) := by
  generalize hl : before src (keeping settings) n = start at h
  induction h generalizing n with
  | done hnext =>
    subst hl
    rcases next_keeping_cases hsize settings hn with
      ⟨token, m, -, -, hkeep, -⟩ | ⟨token, m, -, -, hkeep, -⟩ | ⟨m, hm, hkeep, hskip⟩
    · cases (Prod.mk.inj (hnext.symm.trans hkeep)).1
    · cases (Prod.mk.inj (hnext.symm.trans hkeep)).1
    · exact ⟨m, hm, (Prod.mk.inj (hnext.symm.trans hkeep)).2, .done hskip⟩
  | token hnext _ ih =>
    subst hl
    rcases next_keeping_cases hsize settings hn with
      ⟨token, k, hk, hkind, hkeep, hskip⟩ | ⟨token, k, hk, hkind, hkeep, hskip⟩ | ⟨m, -, hkeep, -⟩
    · obtain ⟨htoken, rfl⟩ := Prod.mk.inj (hnext.symm.trans hkeep)
      obtain ⟨m, hm, hstop, hyields⟩ := ih hk rfl
      rw [Option.some.inj htoken, List.filter_cons_of_neg (by simp [hkind])]
      exact ⟨m, hm, hstop, hyields.of_next_eq hskip⟩
    · obtain ⟨htoken, rfl⟩ := Prod.mk.inj (hnext.symm.trans hkeep)
      obtain ⟨m, hm, hstop, hyields⟩ := ih hk rfl
      rw [Option.some.inj htoken, List.filter_cons_of_pos (by simp [hkind])]
      exact ⟨m, hm, hstop, .token hskip hyields⟩
    · cases (Prod.mk.inj (hnext.symm.trans hkeep)).1

/-- Whether comments are kept as tokens or skipped, tokenizing a text comes to the same place and to
the same error, if to any, and without the comments the tokens are the same. -/
theorem tokenize_keepComments (src : Source) (settings : Settings)
    (hfits : FitsMemory src.bytes) :
    let kept := (ofCursor (.ofSource src) { settings with keepComments := true }).tokenize
    let skipped := (ofCursor (.ofSource src) { settings with keepComments := false }).tokenize
    skipped.1 = kept.1.map (·.filter (·.kind ≠ .comment)) ∧
      skipped.2.cursor = kept.2.cursor := by
  obtain ⟨tokens, stop, hkeep⟩ := exists_yields src (keeping settings)
  obtain ⟨m, hm, rfl, hskip⟩ := hkeep.skipping hfits.le_unbounded (Nat.zero_le _)
  have hkept := tokenize_eq hm hkeep.tokens_eq
  have hskipped := tokenize_eq hm hskip.tokens_eq
  have hkept : (ofCursor (.ofSource src) { settings with keepComments := true }).tokenize = _ :=
    hkept
  have hskipped : (ofCursor (.ofSource src) { settings with keepComments := false }).tokenize = _ :=
    hskipped
  dsimp only
  rw [hkept, hskipped]
  refine ⟨?_, rfl⟩
  have hmode : (keeping settings).unmatched = (Lexer.skipping settings).unmatched := rfl
  rw [hmode]
  cases src.bytes[m]? with
  | none => rfl
  | some byte => cases (Lexer.skipping settings).unmatched <;> rfl

/-- A text with a comment behind its token and another one at its end. -/
theorem tokenize_keepComments_line :
    let src := Source.ofBytes (Text.Utf8.encode "x /* y */ // z").toArray
    let kept := (ofCursor (.ofSource src) { keepComments := true }).tokenize
    let skipped := (ofCursor (.ofSource src) {}).tokenize
    FitsMemory src.bytes ∧
      kept.1 = .ok [⟨.identifier, ⟨1, 1, 0⟩, "x"⟩, ⟨.comment, ⟨1, 3, 2⟩, "/* y */"⟩,
        ⟨.comment, ⟨1, 11, 10⟩, "// z"⟩] ∧
      skipped.1 = .ok [⟨.identifier, ⟨1, 1, 0⟩, "x"⟩] ∧
      skipped.1 = kept.1.map (·.filter (·.kind ≠ .comment)) ∧
      skipped.2.cursor = kept.2.cursor :=
  ⟨by decide, by decide +kernel, by decide +kernel, tokenize_keepComments _ {} (by decide)⟩

end Lexer

end ByteLexer
