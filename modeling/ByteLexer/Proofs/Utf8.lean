import ByteLexer.Text.Utf8
import Mathlib.Data.List.Basic

/-!
# Valid UTF-8

The valid texts are those that strings are encoded by. Decoding loses nothing of a valid text:
encoding what it gives brings the text back. A valid text may be cut before a byte of its own
character and after one, and the pieces are valid; the bytes below 128 are such bytes.
-/

namespace ByteLexer.Text.Utf8

open State

variable {q q' : State} {b : UInt8} {bytes rest pre w u v : List UInt8} {n : Nat}

lemma encode_ofList (chars : List Char) :
    encode (String.ofList chars) = chars.flatMap String.utf8EncodeChar := by
  have hbytes : (String.ofList chars).toUTF8 = chars.utf8Encode := String.toByteArray_ofList
  rw [encode, hbytes, List.utf8Encode, List.toList_data_toByteArray]

lemma encode_append (s t : String) : encode (s ++ t) = encode s ++ encode t := by
  have hbytes : (s ++ t).toUTF8 = s.toUTF8 ++ t.toUTF8 := String.toByteArray_append
  rw [encode, hbytes, ByteArray.data_append, Array.toList_append]
  rfl

/-- The bytes of strings that are joined by another. -/
lemma encode_intercalate (sep s : String) (strings : List String) :
    encode (sep.intercalate (s :: strings)) =
      encode s ++ strings.flatMap fun t => encode sep ++ encode t := by
  induction strings generalizing s with
  | nil => rw [String.intercalate_singleton, List.flatMap_nil, List.append_nil]
  | cons t strings ih =>
    rw [String.intercalate_cons_cons, encode_append, encode_append, ih, List.flatMap_cons,
      List.append_assoc, List.append_assoc]

lemma toNat_ofNat (h : n.isValidChar) : (Char.ofNat n).val.toNat = n := by
  rw [Char.ofNat, dif_pos h]
  rfl

lemma encodeChar_one (h : b < 0x80) : String.utf8EncodeChar (Char.ofUInt8 b) = [b] := by
  have hval : (Char.ofUInt8 b).val.toNat = b.toNat := UInt8.toNat_toUInt32 b
  have hle : b.toNat ≤ 127 := Nat.le_of_lt_succ (UInt8.lt_iff_toNat_lt.mp h)
  rw [String.utf8EncodeChar, hval, if_pos hle, UInt8.ofNat_toNat]

lemma encodeChar_two (hlow : 0x80 ≤ n) (hhigh : n ≤ 0x7FF) :
    String.utf8EncodeChar (Char.ofNat n) =
      [UInt8.ofNat (n / 64 % 32 + 192), UInt8.ofNat (n % 64 + 128)] := by
  have hval := toNat_ofNat (n := n) (.inl (by omega))
  rw [String.utf8EncodeChar, hval, if_neg (by omega), if_pos hhigh]

lemma encodeChar_three (hlow : 0x800 ≤ n) (hhigh : n ≤ 0xFFFF) (hvalid : n.isValidChar) :
    String.utf8EncodeChar (Char.ofNat n) = [UInt8.ofNat (n / 4096 % 16 + 224),
      UInt8.ofNat (n / 64 % 64 + 128), UInt8.ofNat (n % 64 + 128)] := by
  rw [String.utf8EncodeChar, toNat_ofNat hvalid, if_neg (by omega), if_neg (by omega),
    if_pos hhigh]

lemma encodeChar_four (hlow : 0x10000 ≤ n) (hhigh : n < 0x110000) :
    String.utf8EncodeChar (Char.ofNat n) = [UInt8.ofNat (n / 262144 % 8 + 240),
      UInt8.ofNat (n / 4096 % 64 + 128), UInt8.ofNat (n / 64 % 64 + 128),
      UInt8.ofNat (n % 64 + 128)] := by
  have hval := toNat_ofNat (n := n) (.inr ⟨by omega, hhigh⟩)
  rw [String.utf8EncodeChar, hval, if_neg (by omega), if_neg (by omega), if_neg (by omega)]

/-- The first bytes of characters and the states after them. -/
lemma lead_cases (h : lead b = some q) :
    q = ready ∧ b.toNat < 128 ∨ q = owesOne ∧ 194 ≤ b.toNat ∧ b.toNat < 224 ∨
    q = afterE0 ∧ b.toNat = 224 ∨ q = afterED ∧ b.toNat = 237 ∨
    q = owesTwo ∧ 225 ≤ b.toNat ∧ b.toNat < 240 ∧ b.toNat ≠ 237 ∨
    q = afterF0 ∧ b.toNat = 240 ∨ q = owesThree ∧ 241 ≤ b.toNat ∧ b.toNat < 244 ∨
    q = afterF4 ∧ b.toNat = 244 := by
  simp only [lead, UInt8.lt_iff_toNat_lt, ← UInt8.toNat_inj, UInt8.reduceToNat] at h
  split_ifs at h
  all_goals cases h
  all_goals simp
  all_goals omega

/-- The later bytes of characters and the states before and after them. -/
lemma step_cases (hq : q ≠ ready) (h : q.step b = some q') :
    128 ≤ b.toNat ∧ b.toNat < 192 ∧
      (q = owesOne ∧ q' = ready ∨ q = owesTwo ∧ q' = owesOne ∨ q = owesThree ∧ q' = owesTwo ∨
      q = afterE0 ∧ q' = owesOne ∧ 160 ≤ b.toNat ∨ q = afterED ∧ q' = owesOne ∧ b.toNat < 160 ∨
      q = afterF0 ∧ q' = owesTwo ∧ 144 ≤ b.toNat ∨ q = afterF4 ∧ q' = owesTwo ∧ b.toNat < 144) := by
  cases q
  case ready => exact (hq rfl).elim
  all_goals
    simp only [step, UInt8.lt_iff_toNat_lt, UInt8.le_iff_toNat_le, UInt8.reduceToNat] at h
    split_ifs at h
    cases h
    simp
    omega

/-- In the middle of a character of a valid text there is a byte that goes on with it. -/
lemma decodeFrom_step (hq : q ≠ ready) (value : Nat) (h : q.run rest = some ready) :
    ∃ b tail q', rest = b :: tail ∧ q.step b = some q' ∧ q'.run tail = some ready ∧
      decodeFrom q value rest = if q' = ready
        then Char.ofNat (value * 64 + b.toNat % 64) :: decodeFrom ready 0 tail
        else decodeFrom q' (value * 64 + b.toNat % 64) tail := by
  cases rest with
  | nil => exact (hq (Option.some.inj h)).elim
  | cons b tail =>
    obtain ⟨q', hstep, hrun⟩ := Option.bind_eq_some_iff.mp h
    refine ⟨b, tail, q', rfl, hstep, hrun, ?_⟩
    rw [decodeFrom, if_neg hq, continueChar, hstep]
    cases q' <;> rfl

/-- The last byte of a character. -/
lemma decodeFrom_owesOne (value : Nat) (h : owesOne.run rest = some ready) :
    ∃ b tail, rest = b :: tail ∧ 128 ≤ b.toNat ∧ b.toNat < 192 ∧ ready.run tail = some ready ∧
      decodeFrom owesOne value rest =
        Char.ofNat (value * 64 + b.toNat % 64) :: decodeFrom ready 0 tail := by
  obtain ⟨b, tail, q', rfl, hstep, hrun, hdecode⟩ := decodeFrom_step (by decide) value h
  obtain ⟨hlow, hhigh, hstates⟩ := step_cases (by decide) hstep
  obtain rfl : q' = ready := by simpa using hstates
  exact ⟨b, tail, rfl, hlow, hhigh, hrun, hdecode⟩

/-- The last two bytes of a character. -/
lemma decodeFrom_twoMore (hq : q = owesTwo ∨ q = afterE0 ∨ q = afterED) (value : Nat)
    (h : q.run rest = some ready) :
    ∃ b c tail, rest = b :: c :: tail ∧ (128 ≤ b.toNat ∧ b.toNat < 192) ∧
      (128 ≤ c.toNat ∧ c.toNat < 192) ∧ (q = afterE0 → 160 ≤ b.toNat) ∧
      (q = afterED → b.toNat < 160) ∧ ready.run tail = some ready ∧
      decodeFrom q value rest =
        Char.ofNat ((value * 64 + b.toNat % 64) * 64 + c.toNat % 64) ::
          decodeFrom ready 0 tail := by
  have hne : q ≠ ready := by rcases hq with rfl | rfl | rfl <;> decide
  obtain ⟨b, tail, q', rfl, hstep, hrun, hdecode⟩ := decodeFrom_step hne value h
  obtain ⟨hlow, hhigh, hstates⟩ := step_cases hne hstep
  have hnext : q' = owesOne ∧ (q = afterE0 → 160 ≤ b.toNat) ∧ (q = afterED → b.toNat < 160) := by
    rcases hq with rfl | rfl | rfl
    all_goals simpa using hstates
  obtain ⟨rfl, hE0, hED⟩ := hnext
  obtain ⟨c, tail, rfl, hlow', hhigh', hrun, hdecode'⟩ :=
    decodeFrom_owesOne (value * 64 + b.toNat % 64) hrun
  exact ⟨b, c, tail, rfl, ⟨hlow, hhigh⟩, ⟨hlow', hhigh'⟩, hE0, hED, hrun,
    hdecode.trans hdecode'⟩

/-- The last three bytes of a character. -/
lemma decodeFrom_threeMore (hq : q = owesThree ∨ q = afterF0 ∨ q = afterF4) (value : Nat)
    (h : q.run rest = some ready) :
    ∃ b c d tail, rest = b :: c :: d :: tail ∧ (128 ≤ b.toNat ∧ b.toNat < 192) ∧
      (128 ≤ c.toNat ∧ c.toNat < 192) ∧ (128 ≤ d.toNat ∧ d.toNat < 192) ∧
      (q = afterF0 → 144 ≤ b.toNat) ∧ (q = afterF4 → b.toNat < 144) ∧
      ready.run tail = some ready ∧ decodeFrom q value rest =
        Char.ofNat (((value * 64 + b.toNat % 64) * 64 + c.toNat % 64) * 64 + d.toNat % 64) ::
          decodeFrom ready 0 tail := by
  have hne : q ≠ ready := by rcases hq with rfl | rfl | rfl <;> decide
  obtain ⟨b, tail, q', rfl, hstep, hrun, hdecode⟩ := decodeFrom_step hne value h
  obtain ⟨hlow, hhigh, hstates⟩ := step_cases hne hstep
  have hnext : q' = owesTwo ∧ (q = afterF0 → 144 ≤ b.toNat) ∧ (q = afterF4 → b.toNat < 144) := by
    rcases hq with rfl | rfl | rfl
    all_goals simpa using hstates
  obtain ⟨rfl, hF0, hF4⟩ := hnext
  obtain ⟨c, d, tail, rfl, hc, hd, -, -, hrun, hdecode'⟩ :=
    decodeFrom_twoMore (.inl rfl) (value * 64 + b.toNat % 64) hrun
  exact ⟨b, c, d, tail, rfl, ⟨hlow, hhigh⟩, hc, hd, hF0, hF4, hrun, hdecode.trans hdecode'⟩

lemma decodeFrom_lead {tail : List UInt8} (hlead : lead b = some q) (hq : q ≠ ready) :
    decodeFrom ready 0 (b :: tail) = decodeFrom q (q.leadValue b) tail := by
  rw [decodeFrom, if_pos rfl, beginChar, hlead]
  cases q
  case ready => exact (hq rfl).elim
  all_goals rfl

lemma ofNat_eq (h : n = b.toNat) : UInt8.ofNat n = b := by
  rw [h, UInt8.ofNat_toNat]

/-- A valid text that is not empty begins with a character, and the character is encoded by the
bytes it was read from. -/
lemma decodeFrom_char (h : ready.run (b :: rest) = some ready) :
    ∃ bytes tail c, b :: rest = bytes ++ tail ∧ bytes ≠ [] ∧ ready.run tail = some ready ∧
      decodeFrom ready 0 (b :: rest) = c :: decodeFrom ready 0 tail ∧
      String.utf8EncodeChar c = bytes := by
  obtain ⟨q, hlead, hrun⟩ := Option.bind_eq_some_iff.mp h
  have hlead : lead b = some q := hlead
  have hcases := lead_cases hlead
  by_cases hone : q = ready
  · subst hone
    have hlt : b.toNat < 128 := by simpa using hcases
    refine ⟨[b], rest, Char.ofUInt8 b, rfl, List.cons_ne_nil _ _, hrun, ?_,
      encodeChar_one (UInt8.lt_iff_toNat_lt.mpr hlt)⟩
    rw [decodeFrom, if_pos rfl, beginChar, hlead]
    rfl
  rw [decodeFrom_lead hlead hone]
  by_cases htwo : q = owesOne
  · subst htwo
    have hb : 194 ≤ b.toNat ∧ b.toNat < 224 := by simpa using hcases
    obtain ⟨c, tail, rfl, hlow, hhigh, hrun, hdecode⟩ :=
      decodeFrom_owesOne (owesOne.leadValue b) hrun
    refine ⟨[b, c], tail, _, rfl, List.cons_ne_nil _ _, hrun, hdecode, ?_⟩
    rw [leadValue, encodeChar_two (by omega) (by omega), ofNat_eq (b := b) (by omega),
      ofNat_eq (b := c) (by omega)]
  by_cases hthree : q = owesTwo ∨ q = afterE0 ∨ q = afterED
  · obtain ⟨c, d, tail, rfl, hc, hd, hE0, hED, hrun, hdecode⟩ :=
      decodeFrom_twoMore hthree (q.leadValue b) hrun
    have hvalue : q.leadValue b = b.toNat % 16 := by
      rcases hthree with rfl | rfl | rfl <;> rfl
    have hb : 224 ≤ b.toNat ∧ b.toNat < 240 ∧ (b.toNat = 224 → 160 ≤ c.toNat) ∧
        (b.toNat = 237 → c.toNat < 160) := by
      rcases hthree with rfl | rfl | rfl
      all_goals
        simp at hcases hE0 hED
        omega
    refine ⟨[b, c, d], tail, _, rfl, List.cons_ne_nil _ _, hrun, hdecode, ?_⟩
    rw [hvalue, encodeChar_three (by omega) (by omega) (by unfold Nat.isValidChar; omega),
      ofNat_eq (b := b) (by omega), ofNat_eq (b := c) (by omega), ofNat_eq (b := d) (by omega)]
  · have hfour : q = owesThree ∨ q = afterF0 ∨ q = afterF4 := by
      cases q <;> simp at hone htwo hthree ⊢
    obtain ⟨c, d, e, tail, rfl, hc, hd, he, hF0, hF4, hrun, hdecode⟩ :=
      decodeFrom_threeMore hfour (q.leadValue b) hrun
    have hvalue : q.leadValue b = b.toNat % 8 := by
      rcases hfour with rfl | rfl | rfl <;> rfl
    have hb : 240 ≤ b.toNat ∧ b.toNat ≤ 244 ∧ (b.toNat = 240 → 144 ≤ c.toNat) ∧
        (b.toNat = 244 → c.toNat < 144) := by
      rcases hfour with rfl | rfl | rfl
      all_goals
        simp at hcases hF0 hF4
        omega
    refine ⟨[b, c, d, e], tail, _, rfl, List.cons_ne_nil _ _, hrun, hdecode, ?_⟩
    rw [hvalue, encodeChar_four (by omega) (by omega), ofNat_eq (b := b) (by omega),
      ofNat_eq (b := c) (by omega), ofNat_eq (b := d) (by omega), ofNat_eq (b := e) (by omega)]

/-- Encoding what a valid text decodes to brings the text back. -/
theorem encode_decodeLossy (h : isValid w = true) : encode (decodeLossy w) = w := by
  rw [isValid, decide_eq_true_eq] at h
  rw [decodeLossy, encode_ofList]
  induction hn : w.length using Nat.strongRecOn generalizing w with
  | _ n ih =>
    cases w with
    | nil => rfl
    | cons b rest =>
      obtain ⟨bytes, tail, c, heq, hne, hrun, hdecode, hchar⟩ := decodeFrom_char h
      have hpos := List.length_pos_iff.mpr hne
      have hlen : tail.length < n := by
        rw [← hn, heq, List.length_append]
        omega
      rw [hdecode, List.flatMap_cons, hchar, ih _ hlen hrun rfl, heq]

lemma toNat_ofNat_of_lt (h : n < 256) : (UInt8.ofNat n).toNat = n := by
  rw [UInt8.toNat_ofNat', Nat.mod_eq_of_lt h]

/-- The first bytes of characters by their numbers. -/
lemma lead_ofNat (h : n < 256) : lead (UInt8.ofNat n) =
    if n < 128 then some ready else if n < 194 then none else if n < 224 then some owesOne
    else if n = 224 then some afterE0 else if n = 237 then some afterED
    else if n < 240 then some owesTwo else if n = 240 then some afterF0
    else if n < 244 then some owesThree else if n = 244 then some afterF4 else none := by
  simp only [lead, UInt8.lt_iff_toNat_lt, ← UInt8.toNat_inj, UInt8.reduceToNat,
    toNat_ofNat_of_lt h]

/-- A byte is between two others by its number. -/
lemma between_ofNat (low high : UInt8) (h : n < 256) (hlow : low.toNat ≤ n)
    (hhigh : n < high.toNat) : low ≤ UInt8.ofNat n ∧ UInt8.ofNat n < high := by
  rw [UInt8.le_iff_toNat_le, UInt8.lt_iff_toNat_lt, toNat_ofNat_of_lt h]
  exact ⟨hlow, hhigh⟩

lemma continues (n : Nat) : 0x80 ≤ UInt8.ofNat (n % 64 + 128) ∧ UInt8.ofNat (n % 64 + 128) < 0xC0 :=
  between_ofNat 0x80 0xC0 (by omega) (Nat.le_add_left _ _) (show n % 64 + 128 < 192 by omega)

lemma run_owesOne (n : Nat) : owesOne.run [UInt8.ofNat (n % 64 + 128)] = some ready := by
  rw [run, step, if_pos (continues n)]
  rfl

lemma run_owesTwo (m n : Nat) :
    owesTwo.run [UInt8.ofNat (m % 64 + 128), UInt8.ofNat (n % 64 + 128)] = some ready := by
  rw [run, step, if_pos (continues m), Option.bind_some, run_owesOne]

lemma run_owesThree (l m n : Nat) :
    owesThree.run [UInt8.ofNat (l % 64 + 128), UInt8.ofNat (m % 64 + 128),
      UInt8.ofNat (n % 64 + 128)] = some ready := by
  rw [run, step, if_pos (continues l), Option.bind_some, run_owesTwo]

/-- The bytes of a character are read from between two characters to between two characters. -/
lemma run_encodeChar (c : Char) : ready.run (String.utf8EncodeChar c) = some ready := by
  have hvalid : c.val.toNat.isValidChar := c.valid
  have hc : Char.ofNat c.val.toNat = c := Char.ofNat_toNat c
  generalize c.val.toNat = n at hvalid hc
  subst hc
  have hchar := hvalid
  unfold Nat.isValidChar at hvalid
  by_cases hone : n ≤ 0x7F
  · rw [String.utf8EncodeChar, toNat_ofNat hchar, if_pos hone, run, step,
      lead_ofNat (by omega), if_pos (by omega)]
    rfl
  by_cases htwo : n ≤ 0x7FF
  · rw [encodeChar_two (by omega) htwo, run, step, lead_ofNat (by omega), if_neg (by omega),
      if_neg (by omega), if_pos (by omega), Option.bind_some, run_owesOne]
  by_cases hthree : n ≤ 0xFFFF
  · rw [encodeChar_three (by omega) hthree hchar, run, step, lead_ofNat (by omega),
      if_neg (by omega), if_neg (by omega), if_neg (by omega)]
    by_cases hE0 : n / 4096 % 16 + 224 = 224
    · have hb := between_ofNat 0xA0 0xC0 (n := n / 64 % 64 + 128) (by omega)
        (show 160 ≤ _ by omega) (show _ < 192 by omega)
      rw [if_pos hE0, Option.bind_some, run, step, if_pos hb, Option.bind_some, run_owesOne]
    by_cases hED : n / 4096 % 16 + 224 = 237
    · have hb := between_ofNat 0x80 0xA0 (n := n / 64 % 64 + 128) (by omega)
        (show 128 ≤ _ by omega) (show _ < 160 by omega)
      rw [if_neg hE0, if_pos hED, Option.bind_some, run, step, if_pos hb, Option.bind_some,
        run_owesOne]
    · rw [if_neg hE0, if_neg hED, if_pos (by omega), Option.bind_some, run_owesTwo]
  · rw [encodeChar_four (by omega) (by omega), run, step, lead_ofNat (by omega),
      if_neg (by omega), if_neg (by omega), if_neg (by omega), if_neg (by omega),
      if_neg (by omega), if_neg (by omega)]
    by_cases hF0 : n / 262144 % 8 + 240 = 240
    · have hb := between_ofNat 0x90 0xC0 (n := n / 4096 % 64 + 128) (by omega)
        (show 144 ≤ _ by omega) (show _ < 192 by omega)
      rw [if_pos hF0, Option.bind_some, run, step, if_pos hb, Option.bind_some, run_owesTwo]
    by_cases hF4 : n / 262144 % 8 + 240 = 244
    · have hb := between_ofNat 0x80 0x90 (n := n / 4096 % 64 + 128) (by omega)
        (show 128 ≤ _ by omega) (show _ < 144 by omega)
      rw [if_neg hF0, if_neg (by omega), if_pos hF4, Option.bind_some, run, step, if_pos hb,
        Option.bind_some, run_owesTwo]
    · rw [if_neg hF0, if_pos (by omega), Option.bind_some, run_owesThree]

lemma run_encode (text : String) : ready.run (encode text) = some ready := by
  rw [← String.ofList_toList (s := text), encode_ofList]
  induction text.toList with
  | nil => rfl
  | cons c chars ih => rw [List.flatMap_cons, run_append, run_encodeChar, Option.bind_some, ih]

/-- The valid byte lists are those that some text is encoded by. -/
lemma isValid_iff_exists_encode : isValid w = true ↔ ∃ text, encode text = w := by
  constructor
  · intro h
    exact ⟨decodeLossy w, encode_decodeLossy h⟩
  · rintro ⟨text, rfl⟩
    exact decide_eq_true (run_encode text)

lemma encode_injective : Function.Injective encode := by
  intro s t h
  apply String.toByteArray_inj.mp
  apply ByteArray.ext
  exact Array.toList_inj.mp h

lemma length_encode (text : String) : (encode text).length = text.utf8ByteSize := rfl

/-- A byte below 128 is a character. -/
lemma step_ascii (hb : b < 0x80) (h : q.step b = some q') : q = ready ∧ q' = ready := by
  have hb : b.toNat < 128 := UInt8.lt_iff_toNat_lt.mp hb
  by_cases hq : q = ready
  · subst hq
    have hcases := lead_cases h
    refine ⟨rfl, ?_⟩
    rcases hcases with ⟨rfl, -⟩ | hcases
    · rfl
    · omega
  · have hlow := (step_cases hq h).1
    omega

/-- A piece of a valid text is valid if it begins with a byte below 128 and ends with one or with
the text. -/
theorem isValid_piece (h : isValid (pre ++ (b :: w ++ rest)) = true) (hfirst : b < 0x80)
    (hlast : rest = [] ∨ ∃ c ∈ (b :: w).getLast?, c < 0x80) : isValid (b :: w) = true := by
  rw [isValid, decide_eq_true_eq, run_append] at h
  obtain ⟨q, -, h⟩ := Option.bind_eq_some_iff.mp h
  rw [run_append] at h
  obtain ⟨q', hpiece, hrest⟩ := Option.bind_eq_some_iff.mp h
  obtain ⟨_, hstep, -⟩ := Option.bind_eq_some_iff.mp hpiece
  obtain ⟨rfl, -⟩ := step_ascii hfirst hstep
  refine decide_eq_true ?_
  rw [hpiece]
  rcases hlast with rfl | ⟨c, hc, hlt⟩
  · exact hrest
  · obtain ⟨front, hfront⟩ := List.getLast?_eq_some_iff.mp hc
    rw [hfront, run_append] at hpiece
    obtain ⟨_, -, hpiece⟩ := Option.bind_eq_some_iff.mp hpiece
    obtain ⟨_, hstep, hend⟩ := Option.bind_eq_some_iff.mp hpiece
    rw [← Option.some.inj hend, (step_ascii hlt hstep).2]

lemma isValid_append_iff (h : isValid u = true) : isValid (u ++ v) = isValid v := by
  rw [isValid, decide_eq_true_eq] at h
  rw [isValid, run_append, h]
  rfl

lemma isValid_of_ascii (h : ∀ b ∈ w, b < 0x80) : isValid w = true := by
  induction w with
  | nil => rfl
  | cons b w ih =>
    have hb := h b List.mem_cons_self
    have hfirst : isValid [b] = true := by
      simp [isValid, State.run, step, lead, hb]
    rw [← List.singleton_append, isValid_append_iff hfirst]
    exact ih fun c hc => h c (List.mem_cons_of_mem b hc)

/-- What stands before a byte below 128 in a valid text is valid. -/
lemma isValid_before (h : isValid (u ++ b :: v) = true) (hb : b < 0x80) : isValid u = true := by
  rw [isValid, decide_eq_true_eq, run_append] at h
  obtain ⟨q, hu, h⟩ := Option.bind_eq_some_iff.mp h
  obtain ⟨_, hstep, -⟩ := Option.bind_eq_some_iff.mp h
  obtain ⟨rfl, -⟩ := step_ascii hb hstep
  exact decide_eq_true hu

end ByteLexer.Text.Utf8
