import ByteLexer.Proofs.Stream
import ByteLexer.Session

/-!
# Places of a session

A session comes to places by reading on, by going back to what it has put aside, and by being sent
somewhere; a place past the end of the text is never gone to. So whatever holds of the beginning of
a text, and of all places behind one where it holds, holds wherever a session stands and of all it
has put aside, if it holds of the places that the session is sent to. Such properties are to be
inside the text, to have the line and the column that belong to the offset, and to have neither of
them further on than the offset.
-/

namespace ByteLexer

/-- A property of places inside a text that holds of its beginning and is kept by reading on. -/
structure Source.KeptAhead (src : Source) (P : Position → Prop) : Prop where
  start : P .start
  le_size : ∀ p, P p → p.offset ≤ src.bytes.size
  ahead : ∀ p bytes, P p → bytes <+: src.remaining p → P (p.advanceOver bytes)

/-- The session is one on the text, and the property holds of the place of its cursor and of all
places that it has put aside. -/
structure Session.Within (src : Source) (P : Position → Prop) (s : Session) : Prop where
  source : s.cursor.source = src
  place : P s.cursor.position
  checkpoints : ∀ entry ∈ s.checkpoints, P entry.2.position
  copies : ∀ entry ∈ s.copies, entry.2.source = src ∧ P entry.2.position

/-- The session can tell the place: its cursor is there, or a checkpoint or a copy that it has put
aside. -/
def Session.Shows (s : Session) (p : Position) : Prop :=
  p = s.cursor.position ∨ (∃ entry ∈ s.checkpoints, p = entry.2.position) ∨
    ∃ entry ∈ s.copies, p = entry.2.position

variable {src : Source} {P : Position → Prop} {p : Position}

namespace Source

lemma keptAhead_inside (src : Source) : src.KeptAhead (·.offset ≤ src.bytes.size) where
  start := Nat.zero_le _
  le_size _ h := h
  ahead p bytes h hb := by
    have hlen := hb.length_le
    rw [length_remaining] at hlen
    rw [Position.offset_advanceOver]
    omega

/-- The place over the bytes before an offset is such a place again after reading on. -/
lemma keptAhead_placeAt (src : Source) :
    src.KeptAhead fun p => p.offset ≤ src.bytes.size ∧ p = src.placeAt p.offset where
  start := ⟨Nat.zero_le _, rfl⟩
  le_size _ h := h.1
  ahead p bytes h hb := by
    refine ⟨src.keptAhead_inside.ahead p bytes h.1 hb, ?_⟩
    rw [Position.offset_advanceOver, placeAt_add hb, ← h.2]

lemma keptAhead_measured (src : Source) :
    src.KeptAhead fun p => p.offset ≤ src.bytes.size ∧ p.Measured where
  start := ⟨Nat.zero_le _, Position.measured_start⟩
  le_size _ h := h.1
  ahead p bytes h hb := ⟨src.keptAhead_inside.ahead p bytes h.1 hb, h.2.advanceOver bytes⟩

/-- The end of the text is reached by reading all of it. -/
lemma KeptAhead.seek_of_lt (hP : src.KeptAhead P) (hpast : src.bytes.size < p.offset) :
    P (src.seek p) := by
  rw [seek, if_pos hpast]
  exact hP.ahead .start src.bytes.toList hP.start (List.prefix_refl _)

lemma KeptAhead.seek_of_holds (hP : src.KeptAhead P) (h : P p) : P (src.seek p) := by
  rwa [seek_of_le (hP.le_size p h)]

lemma KeptAhead.advance (hP : src.KeptAhead P) (h : P p) : P (src.advance p) := by
  unfold Source.advance
  cases hpeek : src.peek p with
  | none => exact h
  | some byte =>
    rw [peek_eq_head?] at hpeek
    obtain ⟨rest, hrest⟩ := List.head?_eq_some_iff.mp hpeek
    exact hP.ahead p [byte] h ⟨rest, hrest.symm⟩

lemma KeptAhead.skip {c : Cursor} (hP : src.KeptAhead P) (hsource : c.source = src)
    (h : P c.position) (n : Nat) : (c.skip n).source = src ∧ P (c.skip n).position := by
  induction n generalizing c with
  | zero => exact ⟨hsource, h⟩
  | succ n ih =>
    rw [Cursor.skip]
    split
    · exact ⟨hsource, h⟩
    · apply ih
      · exact hsource
      · subst hsource
        exact hP.advance h

lemma KeptAhead.run {s : Scan} (hP : src.KeptAhead P) (h : P s.position) (p : Pattern) :
    P (p.run src s).scan.position := by
  have hle := hP.le_size s.position h
  obtain ⟨bytes, hb, hscan, -⟩ := (p.run_inStep src src s s ⟨hle, hle, rfl⟩).scan_eq
  rw [hscan, Scan.position_keepAll]
  exact hP.ahead s.position bytes h hb

lemma KeptAhead.recognize (hP : src.KeptAhead P) (h : P p) (q : Pattern) :
    P (q.recognize src p).2 := by
  obtain ⟨bytes, hb, hstop⟩ := q.recognize_stop (hP.le_size p h)
  rw [hstop]
  exact hP.ahead p bytes h hb

lemma KeptAhead.find {α : Type} {s : Scan} (hP : src.KeptAhead P) (h : P s.position)
    (t : KeywordTable α) : P (t.find src s).2.position := by
  have hle := hP.le_size s.position h
  have ha : Scan.Aligned src src s s := ⟨hle, hle, rfl⟩
  obtain ⟨tag, bytes, hb, hfind, -⟩ := t.find_inStep ha
  rw [hfind, Scan.position_keepAll]
  exact hP.ahead s.position bytes h hb

end Source

namespace Session

variable {s : Session} {steps earlier : List Step}

lemma within_ofSource (hP : src.KeptAhead P) : (ofSource src).Within src P where
  source := rfl
  place := hP.start
  checkpoints := fun _ h => (List.not_mem_nil h).elim
  copies := fun _ h => (List.not_mem_nil h).elim

/-- Moving the cursor keeps to the property if the new place has it, whatever bytes are kept. -/
lemma Within.moveTo (h : s.Within src P) (hp : P p) (kept : Array UInt8) :
    Within src P { s with cursor.position := p, kept } where
  source := h.source
  place := hp
  checkpoints := h.checkpoints
  copies := h.copies

lemma Within.holds_of_shows (h : s.Within src P) (hp : s.Shows p) : P p := by
  rcases hp with rfl | ⟨entry, hentry, rfl⟩ | ⟨entry, hentry, rfl⟩
  · exact h.place
  · exact h.checkpoints entry hentry
  · exact (h.copies entry hentry).2

lemma mem_of_lookup {β : Type} {entries : List (String × β)} {key : String} {value : β}
    (h : entries.lookup key = some value) : (key, value) ∈ entries := by
  obtain ⟨before, after, rfl, -⟩ := List.lookup_eq_some_iff.mp h
  exact List.mem_append_right before List.mem_cons_self

/-- A step keeps to the property if the place it may be sent to does. -/
lemma Within.step (hP : src.KeptAhead P) (h : s.Within src P) (step : Step)
    (hseek : ∀ p, step = .seek p → P (src.seek p)) : (s.step step).2.Within src P := by
  obtain ⟨⟨source, position⟩, kept, checkpoints, copies⟩ := s
  obtain rfl : source = src := h.source
  have hplace : P position := h.place
  cases step with
  | peek | atEnd | offset | name | remaining | buffer | slice | matchLength => exact h
  | inspect key =>
    rw [Session.step]
    split <;> exact h
  | advance => exact h.moveTo (hP.advance hplace) kept
  | skip n =>
    obtain ⟨hsource, hskip⟩ := hP.skip (c := ⟨source, position⟩) rfl hplace n
    exact ⟨hsource, hskip, h.checkpoints, h.copies⟩
  | seek p => exact h.moveTo (hseek p rfl) kept
  | reset => exact h.moveTo hP.start kept
  | push bytes => exact h.moveTo hplace _
  | clear => exact h.moveTo hplace _
  | save key =>
    exact ⟨rfl, hplace, List.forall_mem_cons.mpr ⟨hplace, h.checkpoints⟩, h.copies⟩
  | restore key =>
    rw [Session.step]
    split
    · next c hlookup =>
      have hc : P c.position := h.checkpoints _ (mem_of_lookup hlookup)
      exact h.moveTo (hP.seek_of_holds hc) _
    · exact h
  | copy key =>
    exact ⟨rfl, hplace, h.checkpoints, List.forall_mem_cons.mpr ⟨⟨rfl, hplace⟩, h.copies⟩⟩
  | swap key =>
    rw [Session.step]
    split
    · next c hlookup =>
      have hc : c.source = source ∧ P c.position := h.copies _ (mem_of_lookup hlookup)
      exact ⟨hc.1, hc.2, h.checkpoints, List.forall_mem_cons.mpr ⟨⟨rfl, hplace⟩, h.copies⟩⟩
    · exact h
  | parse q => exact h.moveTo (hP.run hplace q) _
  | recognize q => exact h.moveTo (hP.recognize hplace q) kept
  | find t => exact h.moveTo (hP.find hplace t) _

lemma run_concat (s : Session) (steps : List Step) (step : Step) :
    s.run (steps ++ [step]) = ((s.run steps).step step).2 := by
  rw [run, List.foldl_append]
  rfl

/-- A session keeps to the property if the places it is sent to do, given that it kept to it so
far. -/
lemma within_run (hP : src.KeptAhead P) (steps : List Step)
    (hseek : ∀ before p after, steps = before ++ .seek p :: after →
      (∀ earlier, earlier <+: before → ((ofSource src).run earlier).Within src P) →
        P (src.seek p)) :
    ∀ earlier, earlier <+: steps → ((ofSource src).run earlier).Within src P := by
  -- From the end: which places a step may be sent to is told by the steps before it.
  induction steps using List.reverseRecOn with
  | nil =>
    intro earlier hearlier
    rw [List.prefix_nil.mp hearlier]
    exact within_ofSource hP
  | append_singleton steps step ih =>
    have hsteps := ih fun before p after h => hseek before p (after ++ [step]) (by rw [h]; simp)
    intro earlier hearlier
    rcases List.prefix_concat_iff.mp hearlier with rfl | hearlier
    · rw [run_concat]
      apply (hsteps steps (List.prefix_refl steps)).step hP
      rintro p rfl
      exact hseek steps p [] rfl hsteps
    · exact hsteps earlier hearlier

/-- A session is sent only to places that it could tell before, or to ones past the end of the
text. -/
def SentToShown (src : Source) (steps : List Step) : Prop :=
  ∀ before p after, steps = before ++ .seek p :: after →
    src.bytes.size < p.offset ∨ ∃ earlier, earlier <+: before ∧
      ((ofSource src).run earlier).Shows p

lemma SentToShown.within (hsent : SentToShown src steps) (hP : src.KeptAhead P) :
    ((ofSource src).run steps).Within src P := by
  apply within_run hP steps _ steps (List.prefix_refl steps)
  intro before p after hsteps hbefore
  rcases hsent before p after hsteps with hpast | ⟨earlier, hearlier, hshows⟩
  · exact hP.seek_of_lt hpast
  · exact hP.seek_of_holds ((hbefore earlier hearlier).holds_of_shows hshows)

/-- Whatever a session does, its cursor stays inside the text, and so does all that it has put
aside; and if it is sent only to places that it could tell before, or to ones past the end of the
text, the line and the column of every place that it can tell are those that belong to the
offset. -/
theorem run_keeps_places (src : Source) (steps : List Step) :
    let s := (ofSource src).run steps
    (s.cursor.source = src ∧ s.cursor.offset + s.cursor.remaining.length = src.bytes.size ∧
      ∀ p, s.Shows p → p.offset ≤ src.bytes.size) ∧
    ((∀ before p after, steps = before ++ .seek p :: after →
        src.bytes.size < p.offset ∨ ∃ earlier, earlier <+: before ∧
          ((ofSource src).run earlier).Shows p) →
      ∀ p, s.Shows p →
        p.line = 1 + (src.bytes.toList.take p.offset).count 10 ∧
        p.column = 1 + ((src.bytes.toList.take p.offset).reverse.takeWhile (· != 10)).length) := by
  intro s
  constructor
  · have h := within_run src.keptAhead_inside steps (fun _ p _ _ _ => src.offset_seek_le p) steps
      (List.prefix_refl steps)
    have hle : s.cursor.offset ≤ src.bytes.size := h.place
    have hlen : s.cursor.remaining.length = src.bytes.size - s.cursor.offset := by
      rw [Cursor.remaining, h.source, Source.length_remaining]
      rfl
    exact ⟨h.source, by omega, fun p hp => h.holds_of_shows hp⟩
  · intro hsent
    have h : s.Within src fun p => p.offset ≤ src.bytes.size ∧ p = src.placeAt p.offset :=
      SentToShown.within hsent src.keptAhead_placeAt
    intro p hp
    rw [(h.holds_of_shows hp).2, Source.offset_placeAt (h.holds_of_shows hp).1]
    exact ⟨line_advanceOver _, column_advanceOver _⟩

/-- A session that is sent past the end of the text, and from there back to where it put a
checkpoint aside. -/
theorem run_keeps_places_back :
    let src := Source.ofBytes #[97, 10, 98]
    let steps : List Step :=
      [.skip 2, .save "line", .seek ⟨5, 5, 5⟩, .copy "end", .seek ⟨2, 1, 2⟩]
    let s := (ofSource src).run steps
    (∀ before p after, steps = before ++ .seek p :: after →
      src.bytes.size < p.offset ∨ ∃ earlier, earlier <+: before ∧
        ((ofSource src).run earlier).Shows p) ∧
    s.Shows ⟨2, 1, 2⟩ ∧ s.Shows ⟨2, 2, 3⟩ ∧
    ∀ p, s.Shows p →
      p.line = 1 + (src.bytes.toList.take p.offset).count 10 ∧
      p.column = 1 + ((src.bytes.toList.take p.offset).reverse.takeWhile (· != 10)).length := by
  intro src steps s
  have hsent : ∀ before p after, steps = before ++ .seek p :: after →
      src.bytes.size < p.offset ∨ ∃ earlier, earlier <+: before ∧
        ((ofSource src).run earlier).Shows p := by
    intro before p after h
    simp only [steps] at h
    rcases before with _ | ⟨_, _ | ⟨_, _ | ⟨_, _ | ⟨_, _ | ⟨_, _ | ⟨_, before⟩⟩⟩⟩⟩⟩ <;> cases h
    · exact .inl (by decide)
    · exact .inr ⟨[.skip 2], ⟨_, rfl⟩, .inl rfl⟩
  refine ⟨hsent, .inl rfl, .inr (.inr ⟨_, List.mem_cons_self, rfl⟩), ?_⟩
  exact (run_keeps_places src steps).2 hsent

/-- A session sent to such places only can tell no place whose line or column is further on than the
offset, so if the text fits in memory, places are made of numbers of sixty-four bits. -/
theorem shows_measured (hsent : SentToShown src steps) (hp : ((ofSource src).run steps).Shows p) :
    p.Measured ∧ (FitsMemory src.bytes → p.FitsWords) := by
  obtain ⟨hle, hmeasured⟩ := (hsent.within src.keptAhead_measured).holds_of_shows hp
  exact ⟨hmeasured, fun hfits => hfits.fitsWords hle hmeasured⟩

end Session

end ByteLexer
