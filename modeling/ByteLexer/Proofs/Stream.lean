import ByteLexer.Proofs.DefaultReadings

/-!
# The stream under the default rules

With the default rules each step of the stream is a step over the text ahead: what can be skipped,
and then what the rules read there. The steps of a run are told apart from its end, so that a run
can be looked at from any place it comes by.
-/

namespace ByteLexer

/-- A text that fits in memory, where no object is larger than the largest signed 64-bit number.
Repetitions without a bound of their own are not cut short on such a text. -/
def FitsMemory (bytes : Array UInt8) : Prop := bytes.size ≤ 0x7FFFFFFFFFFFFFFF

instance (bytes : Array UInt8) : Decidable (FitsMemory bytes) := inferInstanceAs (Decidable (_ ≤ _))

lemma FitsMemory.le_unbounded {bytes : Array UInt8} (h : FitsMemory bytes) :
    bytes.size ≤ Pattern.unbounded := by
  have hbound : 0x7FFFFFFFFFFFFFFF ≤ Pattern.unbounded := by decide
  exact Nat.le_trans h hbound

lemma FitsMemory.length_remaining_le {src : Source} (h : FitsMemory src.bytes) (pos : Position) :
    (src.remaining pos).length ≤ Pattern.unbounded := by
  rw [Source.length_remaining]
  exact (Nat.sub_le _ _).trans h.le_unbounded

lemma FitsMemory.fitsWords {src : Source} {p : Position} (h : FitsMemory src.bytes)
    (hle : p.offset ≤ src.bytes.size) (hp : p.Measured) : p.FitsWords := by
  have hsize : src.bytes.size ≤ 0x7FFFFFFFFFFFFFFF := h
  have hline := hp.line
  have hcolumn := hp.column
  constructor <;> omega

/-- What is skipped at the front of a text. -/
def skips (settings : Settings) (ahead : List UInt8) : List UInt8 :=
  if settings.keepComments then Lexeme.blanks ahead else Lexeme.skippable ahead

namespace Lexer

/-- A lexer gives some tokens one after the other and is left as the last argument, whether or not
there are more. -/
inductive Gives : Lexer → List Token → Lexer → Prop where
  | nil {l : Lexer} : Gives l [] l
  | cons {l l' l'' : Lexer} {token : Token} {tokens : List Token}
      (h : l.next = (some token, l')) (hrest : Gives l' tokens l'') : Gives l (token :: tokens) l''

/-- A lexer with the default rules before the byte at an offset of a text. -/
def before (src : Source) (settings : Settings) (n : Nat) : Lexer :=
  (ofCursor (.ofSource src) settings).moveTo (src.placeAt n)

variable {src : Source} {settings : Settings} {n : Nat} {l l' l'' : Lexer}
  {tokens tokens' : List Token} {token : Token}

lemma Gives.yields (h : Gives l tokens l') (h' : Yields l' tokens' l'') :
    Yields l (tokens ++ tokens') l'' := by
  induction h with
  | nil => exact h'
  | cons hnext _ ih => exact .token hnext (ih h')

/-- A run to the end gives its tokens up to a step that has none. -/
lemma Yields.gives (h : Yields l tokens l') :
    ∃ last, Gives l tokens last ∧ last.next = (none, l') := by
  induction h with
  | done hnext => exact ⟨_, .nil, hnext⟩
  | token hnext _ ih =>
    obtain ⟨last, hgives, hlast⟩ := ih
    exact ⟨last, .cons hnext hgives, hlast⟩

/-- A run to the end comes by each of its tokens. -/
lemma Yields.gives_at {earlier later : List Token} (h : Yields l tokens l')
    (htokens : tokens = earlier ++ token :: later) :
    ∃ last next, Gives l earlier last ∧ last.next = (some token, next) := by
  induction h generalizing earlier with
  | done => cases earlier <;> cases htokens
  | token hnext _ ih =>
    cases earlier with
    | nil =>
      cases htokens
      exact ⟨_, _, .nil, hnext⟩
    | cons first earlier =>
      obtain ⟨rfl, hrest⟩ := List.cons.inj htokens
      obtain ⟨last, next, hgives, hlast⟩ := ih hrest
      exact ⟨last, next, .cons hnext hgives, hlast⟩

/-- A run to the end is the same from any two places with the same first step. -/
lemma Yields.of_next_eq (h : l.next = l'.next) (h' : Yields l' tokens l'') :
    Yields l tokens l'' := by
  cases h' with
  | done hnext => exact .done (h.trans hnext)
  | token hnext hrest => exact .token (h.trans hnext) hrest

/-- There is one run to the end. -/
lemma Yields.unique (h : Yields l tokens l') (h' : Yields l tokens' l'') :
    tokens = tokens' ∧ l' = l'' := by
  induction h generalizing tokens' with
  | done hnext =>
    cases h' with
    | done hnext' => exact ⟨rfl, (Prod.mk.inj (hnext.symm.trans hnext')).2⟩
    | token hnext' _ => cases (Prod.mk.inj (hnext.symm.trans hnext')).1
  | token hnext _ ih =>
    cases h' with
    | done hnext' => cases (Prod.mk.inj (hnext.symm.trans hnext')).1
    | token hnext' hrest' =>
      obtain ⟨htoken, rfl⟩ := Prod.mk.inj (hnext.symm.trans hnext')
      obtain ⟨rfl, hstop⟩ := ih hrest'
      exact ⟨congrArg (· :: _) (Option.some.inj htoken), hstop⟩

lemma offset_before (hn : n ≤ src.bytes.size) : (before src settings n).cursor.offset = n :=
  Source.offset_placeAt hn

lemma peek_before (settings : Settings) (hn : n ≤ src.bytes.size) :
    (before src settings n).cursor.peek = (src.bytes.toList.drop n).head? := by
  rw [← Source.remaining_placeAt hn, ← Source.peek_eq_head?]
  rfl

lemma provided_byPriority (settings : Settings) :
    ∀ r ∈ Rule.byPriority (Rule.defaults settings), r.Provided :=
  fun r hr => Rule.provided_defaults settings r (Rule.mem_byPriority.mp hr)

lemma reads_byPriority (settings : Settings) :
    ∀ r ∈ Rule.byPriority (Rule.defaults settings), r.Reads :=
  fun r hr => (provided_byPriority settings r hr).reads

/-- Whatever its rules are, a lexer comes to no place whose line or column is further on than the
offset, so if the text fits in memory, places are made of numbers of sixty-four bits. -/
theorem places_measured (src : Source) (rules : List Rule) (settings : Settings)
    (hrules : ∀ r ∈ rules, r.Provided) (p : Position) :
    let l := ofRules (.ofSource src) rules settings
    (p = l.tokens.2.cursor.position ∨ ∃ token ∈ l.tokens.1, p = token.position) →
      p.Measured ∧ (FitsMemory src.bytes → p.FitsWords) := by
  intro l hp
  obtain ⟨-, m, hm, hstop, htiles⟩ :=
    tokens_tiles (reads_ofRules (.ofSource src) settings hrules) rfl
  obtain ⟨n, hn, rfl⟩ : ∃ n, n ≤ src.bytes.size ∧ p = src.placeAt n := by
    rcases hp with rfl | ⟨token, htoken, rfl⟩
    · exact ⟨m, hm, hstop⟩
    · obtain ⟨first, last, hcut⟩ := htiles.exists_cutFrom htoken
      exact ⟨first, (Nat.le_of_lt hcut.lt).trans hcut.le, hcut.position⟩
  have hmeasured : (src.placeAt n).Measured := Position.measured_start.advanceOver _
  have hle : (src.placeAt n).offset ≤ src.bytes.size := by
    rw [Source.offset_placeAt hn]
    exact hn
  exact ⟨hmeasured, fun hfits => hfits.fitsWords hle hmeasured⟩

/-- The tokens of a run to the end are the tokens of the stream. -/
lemma Yields.tokens_eq (h : Yields (before src settings 0) tokens l) :
    (before src settings 0).tokens = (tokens, l) := by
  have hyields := (tokens_tiles (l := before src settings 0) (reads_byPriority settings) rfl).1
  obtain ⟨htokens, hstop⟩ := h.unique hyields
  exact Prod.ext htokens.symm hstop.symm

lemma exists_yields (src : Source) (settings : Settings) :
    ∃ tokens l, Yields (before src settings 0) tokens l :=
  ⟨_, _, (tokens_tiles (l := before src settings 0) (reads_byPriority settings) rfl).1⟩

/-- Input left where the stream ends is an error if the settings say so. -/
lemma tokenize_eq (hn : n ≤ src.bytes.size)
    (h : (before src settings 0).tokens = (tokens, before src settings n)) :
    (before src settings 0).tokenize =
      (match src.bytes[n]?, settings.unmatched with
        | some byte, .error => .error ⟨src.name, src.placeAt n, byte⟩
        | _, _ => .ok tokens, before src settings n) := by
  have hpeek : (before src settings n).cursor.peek = src.bytes[n]? := by
    rw [peek_before settings hn, List.head?_drop, Array.getElem?_toList]
  have hmode : (before src settings n).settings.unmatched = settings.unmatched := rfl
  rw [tokenize, h]
  dsimp only
  rw [hpeek, hmode]
  cases src.bytes[n]? with
  | none => rfl
  | some byte => cases settings.unmatched <;> rfl

/-- Skipping leads from one place of a text to another. -/
lemma skipTrivia_place (settings : Settings) (hn : n ≤ src.bytes.size) :
    ∃ m ≤ src.bytes.size, (before src settings n).skipTrivia = before src settings m := by
  obtain ⟨m, hskip, hgap⟩ := skipped_gap settings hn
  exact ⟨m, hgap.le_size hn, congrArg (ofCursor (.ofSource src) settings).moveTo hskip⟩

/-- Where a step of the stream ends is a place of the text again. -/
lemma next_place (settings : Settings) (hn : n ≤ src.bytes.size) :
    ∃ m ≤ src.bytes.size, (before src settings n).next.2 = before src settings m := by
  obtain ⟨first, hgap, hnone | ⟨token, last, hsome, hcut⟩⟩ :=
    next_cases (l := before src settings n) (reads_byPriority settings) hn rfl
  · rw [hnone]
    exact ⟨first, hgap.le_size hn, rfl⟩
  · rw [hsome]
    exact ⟨last, hcut.le, rfl⟩

lemma Gives.place (h : Gives (before src settings n) tokens l) (hn : n ≤ src.bytes.size) :
    ∃ m ≤ src.bytes.size, l = before src settings m := by
  generalize hl : before src settings n = start at h
  induction h generalizing n with
  | nil => exact ⟨n, hn, hl.symm⟩
  | cons hnext _ ih =>
    subst hl
    obtain ⟨m, hm, hplace⟩ := next_place settings hn
    rw [hnext] at hplace
    exact ih hm hplace.symm

lemma follows_byPriority (settings : Settings) :
    ∀ r ∈ Rule.byPriority (Rule.defaults settings), r.Follows r.reads? ∧ r.Unhindered := by
  intro r hr
  have hmem := Rule.mem_byPriority.mp hr
  exact ⟨(provided_byPriority settings r hr).follows, Rule.unhindered_defaults settings r hmem⟩

/-- At a place of a text the rules read what they read off the front of the text ahead. -/
lemma readToken_before (settings : Settings) (hn : n ≤ src.bytes.size) :
    (before src settings n).readToken =
      match Rule.defaultReading settings (src.bytes.toList.drop n) with
      | some (kind, w) =>
        (some (.ofBytes kind (src.placeAt n) w), before src settings (n + w.length))
      | none => (none, before src settings n) := by
  have hmatch := Rule.firstMatch_eq (follows_byPriority settings)
    ((Source.offset_placeAt hn).le.trans hn)
  rw [Source.remaining_placeAt hn] at hmatch
  have hread : (before src settings n).readToken =
      let found := Rule.firstMatch src (src.placeAt n)
        (Rule.byPriority (Rule.defaults settings))
      (found.1, (ofCursor (.ofSource src) settings).moveTo found.2) := rfl
  rw [hread, hmatch, ← Rule.defaultReading]
  cases hfound : Rule.defaultReading settings (src.bytes.toList.drop n) with
  | none => rfl
  | some found =>
    obtain ⟨kind, w⟩ := found
    dsimp only [before]
    rw [Source.placeAt_add (Rule.prefix_of_defaultReading hfound)]
    rfl

/-- Any token of the stream is what the default rules read at its place. -/
lemma token_of_next (hn : n ≤ src.bytes.size) (h : (before src settings n).next = (some token, l)) :
    ∃ m ≤ src.bytes.size, ∃ kind w,
      Rule.defaultReading settings (src.bytes.toList.drop m) = some (kind, w) ∧
      token = .ofBytes kind (src.placeAt m) w := by
  obtain ⟨m, hm, hskip⟩ := skipTrivia_place settings hn
  refine ⟨m, hm, ?_⟩
  rw [next, hskip, readToken_before settings hm] at h
  cases hfound : Rule.defaultReading settings (src.bytes.toList.drop m) with
  | none =>
    rw [hfound] at h
    dsimp only at h
    rw [if_pos rfl] at h
    cases h
  | some found =>
    obtain ⟨kind, w⟩ := found
    rw [hfound] at h
    dsimp only at h
    split at h
    · cases h
    · exact ⟨kind, w, rfl, (Option.some.inj (Prod.mk.inj h).1).symm⟩

lemma Gives.forall_tokens {P : Token → Prop} (h : Gives (before src settings n) tokens l)
    (hn : n ≤ src.bytes.size) (hP : ∀ m kind w,
      Rule.defaultReading settings (src.bytes.toList.drop m) = some (kind, w) →
      P (.ofBytes kind (src.placeAt m) w)) : ∀ token ∈ tokens, P token := by
  generalize hl : before src settings n = start at h
  induction h generalizing n with
  | nil => exact fun token h => by cases h
  | cons hnext hrest ih =>
    subst hl
    obtain ⟨m, -, kind, w, hread, rfl⟩ := token_of_next hn hnext
    obtain ⟨k, hk, rfl⟩ := (Gives.cons hnext .nil).place hn
    intro token hmem
    rcases List.mem_cons.mp hmem with rfl | hmem
    · exact hP m kind w hread
    · exact ih hk rfl token hmem

lemma length_drop_le (hsize : src.bytes.size ≤ Pattern.unbounded) (n : Nat) :
    (src.bytes.toList.drop n).length ≤ Pattern.unbounded := by
  rw [List.length_drop, Array.length_toList]
  omega

lemma prefix_skips (settings : Settings) (ahead : List UInt8) : skips settings ahead <+: ahead := by
  rw [skips]
  split
  · exact List.takeWhile_prefix _
  · exact Pattern.prefix_of_reads (Lexeme.reads?_trivia _)

/-- Where skipping stops no blank comes next, and no comment unless comments are tokens. -/
lemma drop_skips (settings : Settings) {ahead : List UInt8}
    (hlen : ahead.length ≤ Pattern.unbounded) :
    Lexeme.blanks (ahead.drop (skips settings ahead).length) = [] ∧
      (settings.keepComments = false →
        Lexeme.comment.reads? (ahead.drop (skips settings ahead).length) = none) := by
  rw [skips]
  split
  · next hkeep => exact ⟨Lexeme.blanks_drop ahead, fun h => by rw [h] at hkeep; cases hkeep⟩
  · exact ⟨(Lexeme.drop_skippable hlen).1, fun _ => (Lexeme.drop_skippable hlen).2⟩

/-- At any place what is skipped is what can be skipped off the front of the text ahead. -/
lemma skipped_recognize (hsize : src.bytes.size ≤ Pattern.unbounded) (settings : Settings)
    {pos : Position} (hle : pos.offset ≤ src.bytes.size) :
    ((skipped settings).recognize src pos).2 =
      pos.advanceOver (skips settings (src.remaining pos)) := by
  have hlen : (src.remaining pos).length ≤ Pattern.unbounded := by
    rw [Source.length_remaining]
    omega
  rw [skipped, skips]
  split
  · rw [Lexeme.goesBack_spaces.recognize_eq hle, Lexeme.reads?_spaces hlen]
    by_cases hblank : Lexeme.blanks (src.remaining pos) = []
    · rw [if_pos hblank, hblank]
      rfl
    · rw [if_neg hblank]
  · rw [Lexeme.goesBack_trivia.recognize_eq hle, Lexeme.reads?_trivia]

lemma skipTrivia_before (hsize : src.bytes.size ≤ Pattern.unbounded) (settings : Settings)
    (hn : n ≤ src.bytes.size) :
    (before src settings n).skipTrivia =
      before src settings (n + (skips settings (src.bytes.toList.drop n)).length) := by
  have hskip := skipped_recognize hsize settings ((Source.offset_placeAt hn).le.trans hn)
  rw [Source.remaining_placeAt hn] at hskip
  rw [before, before, Source.placeAt_add (prefix_skips settings _), ← hskip]
  rfl

/-- The next token of the stream is what the rules read behind what is skipped; they read nothing
empty, so no token ends the stream. -/
lemma next_before (hsize : src.bytes.size ≤ Pattern.unbounded) (settings : Settings)
    (hn : n ≤ src.bytes.size) :
    (before src settings n).next =
      (before src settings (n + (skips settings (src.bytes.toList.drop n)).length)).readToken := by
  have hfirst := Source.add_length_le hn (prefix_skips settings (src.bytes.toList.drop n))
  rw [next, skipTrivia_before hsize settings hn]
  generalize n + (skips settings (src.bytes.toList.drop n)).length = first at *
  rw [readToken_before settings hfirst]
  cases hfound : Rule.defaultReading settings (src.bytes.toList.drop first) with
  | none =>
    dsimp only
    rw [if_pos rfl]
  | some found =>
    obtain ⟨kind, w⟩ := found
    have hpos := List.length_pos_iff.mpr (Rule.defaultReading_ne_nil hfound)
    have hle := Source.add_length_le hfirst (Rule.prefix_of_defaultReading hfound)
    dsimp only
    rw [offset_before hle, offset_before hfirst, if_neg (by omega)]

/-- One step of the stream: past what is skipped it either ends, since the rules read nothing there,
or cuts the next token off the text. -/
lemma next_before_cases (hsize : src.bytes.size ≤ Pattern.unbounded) (settings : Settings)
    (hn : n ≤ src.bytes.size) :
    ∃ first ≤ src.bytes.size,
      src.bytes.toList.drop n =
        skips settings (src.bytes.toList.drop n) ++ src.bytes.toList.drop first ∧
      (before src settings n).skipTrivia = before src settings first ∧
      ((before src settings n).next = (none, before src settings first) ∧
          Rule.defaultReading settings (src.bytes.toList.drop first) = none ∨
        ∃ kind w, first + w.length ≤ src.bytes.size ∧
          (before src settings n).next =
            (some (.ofBytes kind (src.placeAt first) w), before src settings (first + w.length)) ∧
          src.bytes.toList.drop first = w ++ src.bytes.toList.drop (first + w.length) ∧
          Rule.defaultReading settings (src.bytes.toList.drop first) = some (kind, w)) := by
  have hdrop : ∀ k w, w <+: src.bytes.toList.drop k →
      src.bytes.toList.drop k = w ++ src.bytes.toList.drop (k + w.length) := fun k w hw => by
    rw [← List.drop_drop]
    exact List.prefix_append_drop hw
  have hpre := prefix_skips settings (src.bytes.toList.drop n)
  have hfirst := Source.add_length_le hn hpre
  have hskip := skipTrivia_before hsize settings hn
  have hnext := next_before hsize settings hn
  have hahead := hdrop n _ hpre
  generalize n + (skips settings (src.bytes.toList.drop n)).length = first at *
  refine ⟨first, hfirst, hahead, hskip, ?_⟩
  rw [readToken_before settings hfirst] at hnext
  cases hread : Rule.defaultReading settings (src.bytes.toList.drop first) with
  | none =>
    rw [hread] at hnext
    exact .inl ⟨hnext, rfl⟩
  | some found =>
    obtain ⟨kind, w⟩ := found
    rw [hread] at hnext
    have hw := Rule.prefix_of_defaultReading hread
    exact .inr ⟨kind, w, Source.add_length_le hfirst hw, hnext, hdrop first w hw, rfl⟩

/-- Where the skipping stops no blank comes next. -/
lemma blanks_of_eq_skips {ahead rest : List UInt8} (hlen : ahead.length ≤ Pattern.unbounded)
    (h : ahead = skips settings ahead ++ rest) : Lexeme.blanks rest = [] := by
  have hblank := (drop_skips settings hlen).1
  have hrest : ahead.drop (skips settings ahead).length = rest :=
    (congrArg (List.drop _) h).trans List.drop_left
  rwa [hrest] at hblank

end Lexer

end ByteLexer
