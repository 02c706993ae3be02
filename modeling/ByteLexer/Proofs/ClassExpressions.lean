import ByteLexer.ByteClass
import Mathlib.Algebra.BigOperators.Group.Finset.Basic
import Mathlib.Data.Set.Card

/-!
# Expressions for byte classes

A class made by the constructions, however they are nested, is a set of bytes and a flag: the bytes
are those the constructions stand for as sets, and the flag is only ever set on a class without
bytes. The two decide everything that can be asked of a class, its list of bytes, their number and
equality. The bits of a class may also be kept as four words of sixty-four, its quarters: what is
found in them is the same, and insertions, unions and differences can be made in each of them apart.
A range, and with it the digits of a base, comes from inserting one byte after the other.
-/

namespace ByteLexer

/-- The ways to make a class. -/
inductive ClassExpr where
  | empty
  | any
  | epsilon
  | single (byte : UInt8)
  | range (first last : UInt8)
  | ofList (bytes : List UInt8)
  | ofPred (test : UInt8 → Bool)
  | union (e f : ClassExpr)
  | sdiff (e f : ClassExpr)

namespace ClassExpr

/-- The class that an expression makes. -/
def eval : ClassExpr → ByteClass
  | empty => ∅
  | any => .any
  | epsilon => .epsilon
  | single byte => .single byte
  | range first last => .range first last
  | ofList bytes => .ofList bytes
  | ofPred test => .ofPred test
  | union e f => e.eval ∪ f.eval
  | sdiff e f => e.eval \ f.eval

/-- The bytes that an expression stands for. -/
def bytes : ClassExpr → Set UInt8
  | empty => ∅
  | any => Set.univ
  | epsilon => ∅
  | single byte => {byte}
  | range first last => {b | first ≤ b ∧ b ≤ last}
  | ofList bytes => {b | b ∈ bytes}
  | ofPred test => {b | test b = true}
  | union e f => e.bytes ∪ f.bytes
  | sdiff e f => e.bytes \ f.bytes

/-- Whether an expression stands for reading nothing: a union does if both sides do, a difference if
its left side does. -/
def isEpsilon : ClassExpr → Bool
  | epsilon => true
  | union e f => e.isEpsilon && f.isEpsilon
  | sdiff e _ => e.isEpsilon
  | _ => false

end ClassExpr

namespace ByteClass

variable {c d : ByteClass} {b : UInt8} {i : Nat}

lemma pairwise_allBytes : allBytes.Pairwise (· < ·) := by
  unfold allBytes
  rw [List.pairwise_map]
  apply List.pairwise_lt_range.imp_of_mem
  intro i j hi hj hij
  have hi' : (UInt8.ofNat i).toNat = i := UInt8.toNat_ofNat_of_lt (List.mem_range.mp hi)
  have hj' : (UInt8.ofNat j).toNat = j := UInt8.toNat_ofNat_of_lt (List.mem_range.mp hj)
  rw [UInt8.lt_iff_toNat_lt, hi', hj']
  exact hij

lemma pairwise_toList (c : ByteClass) : c.toList.Pairwise (· < ·) :=
  pairwise_allBytes.filter c.contains

lemma size_eq_ncard (c : ByteClass) : c.size = {b | c.contains b = true}.ncard := by
  have hset : {b | c.contains b = true} = (c.toList.toFinset : Set UInt8) := by
    ext b
    simp
  rw [hset, Set.ncard_coe_finset, List.toFinset_card_of_nodup c.pairwise_toList.nodup]
  rfl

lemma getLsbD_bits (hi : i < 256) : c.bits.getLsbD i = c.contains (UInt8.ofNat i) := by
  have hbyte : (UInt8.ofNat i).toNat = i := UInt8.toNat_ofNat_of_lt hi
  rw [contains, hbyte]

/-- The bytes and the flag are all there is to a class. -/
lemma eq_iff_contains :
    c = d ↔ (∀ b, c.contains b = d.contains b) ∧ c.isEpsilon = d.isEpsilon := by
  constructor
  · rintro rfl
    exact ⟨fun b => rfl, rfl⟩
  · rintro ⟨hbytes, hflag⟩
    have hbits : c.bits = d.bits := by
      apply BitVec.eq_of_getLsbD_eq
      intro i hi
      rw [getLsbD_bits hi, getLsbD_bits hi, hbytes]
    cases c
    cases d
    simp only at hbits hflag
    rw [hbits, hflag]

lemma isEmpty_iff_contains : c.isEmpty = true ↔ ∀ b, c.contains b = false := by
  unfold isEmpty
  rw [decide_eq_true_iff]
  constructor
  · intro h b
    rw [contains, h, BitVec.getLsbD_zero]
  · intro h
    apply BitVec.eq_of_getLsbD_eq
    intro i hi
    rw [getLsbD_bits hi, h, BitVec.getLsbD_zero]

/-- The bits of the bytes from `64 * i` on, as a word of sixty-four. -/
def quarter (c : ByteClass) (i : Nat) : BitVec 64 := c.bits.extractLsb' (64 * i) 64

/-- What is asked of a class is found in its quarters: the high bits of a byte name the quarter and
its low bits the place in it. -/
structure FoundInQuarters (c : ByteClass) : Prop where
  contains_iff : ∀ b : UInt8, c.contains b = true ↔
    c.quarter (b >>> 6).toNat &&& 1#64 <<< (b &&& 63).toNat ≠ 0#64
  size_eq : c.size = ∑ i ∈ Finset.range 4, (c.quarter i).cpop.toNat
  isEmpty_iff : c.isEmpty = true ↔ ∀ i < 4, c.quarter i = 0#64

lemma getLsbD_quarter {k : Nat} (hk : k < 64) :
    (c.quarter i).getLsbD k = c.bits.getLsbD (64 * i + k) := by
  unfold quarter
  rw [BitVec.getLsbD_extractLsb', decide_eq_true hk, Bool.true_and]

/-- A bit is tested by masking its word. -/
lemma and_shiftLeft_ne_zero_iff {x : BitVec 64} {k : Nat} (hk : k < 64) :
    x &&& 1#64 <<< k ≠ 0#64 ↔ x.getLsbD k = true := by
  have htwo : BitVec.twoPow 64 k ≠ 0#64 := by
    intro h
    have hbit := congrArg (fun y : BitVec 64 => y.getLsbD k) h
    simp [hk] at hbit
  rw [← BitVec.twoPow_eq, BitVec.and_twoPow]
  by_cases hx : x.getLsbD k = true
  · rw [if_pos hx]
    exact iff_of_true htwo hx
  · rw [if_neg hx]
    exact iff_of_false (fun h => h rfl) hx

lemma toNat_high (b : UInt8) : (b >>> 6).toNat = b.toNat / 64 := by
  rw [UInt8.toNat_shiftRight]
  exact Nat.shiftRight_eq_div_pow b.toNat 6

lemma toNat_low (b : UInt8) : (b &&& 63).toNat = b.toNat % 64 := by
  rw [UInt8.toNat_and]
  exact Nat.and_two_pow_sub_one_eq_mod b.toNat 6

lemma contains_iff_quarter (b : UInt8) : c.contains b = true ↔
    c.quarter (b >>> 6).toNat &&& 1#64 <<< (b &&& 63).toNat ≠ 0#64 := by
  have hplace : 64 * (b.toNat / 64) + b.toNat % 64 = b.toNat := Nat.div_add_mod b.toNat 64
  have hlt : b.toNat % 64 < 64 := Nat.mod_lt _ (by decide)
  rw [toNat_high, toNat_low, and_shiftLeft_ne_zero_iff hlt, getLsbD_quarter hlt, hplace]
  rfl

/-- The ones of a word are the places where it has a one. -/
lemma toNat_cpop_eq_countP {w : Nat} (x : BitVec w) :
    x.cpop.toNat = (List.range w).countP x.getLsbD := by
  have hrec : ∀ k, x.cpopNatRec k 0 = (List.range k).countP x.getLsbD := by
    intro k
    induction k with
    | zero => rfl
    | succ k ih =>
      rw [BitVec.cpopNatRec_succ, BitVec.cpopNatRec_add, ih, List.range_succ, List.countP_append]
      cases hx : x.getLsbD k <;> simp [hx]
  rw [BitVec.toNat_cpop]
  exact hrec w

/-- Counting over several words is counting over one after the other. -/
lemma countP_range_mul (f : Nat → Bool) (w n : Nat) :
    (List.range (w * n)).countP f =
      ∑ i ∈ Finset.range n, (List.range w).countP fun k => f (w * i + k) := by
  induction n with
  | zero => rfl
  | succ n ih =>
    rw [Nat.mul_succ, List.range_add, List.countP_append, ih, Finset.sum_range_succ,
      List.countP_map]
    rfl

lemma size_eq_sum_quarter (c : ByteClass) :
    c.size = ∑ i ∈ Finset.range 4, (c.quarter i).cpop.toNat := by
  have hcount : c.size = (List.range (64 * 4)).countP c.bits.getLsbD := by
    have hall : allBytes = (List.range (64 * 4)).map UInt8.ofNat := rfl
    rw [size, toList, ← List.countP_eq_length_filter, hall, List.countP_map]
    apply List.countP_congr
    intro i hi
    rw [getLsbD_bits (List.mem_range.mp hi)]
    rfl
  rw [hcount, countP_range_mul]
  apply Finset.sum_congr rfl
  intro i _
  rw [toNat_cpop_eq_countP]
  apply List.countP_congr
  intro k hk
  rw [getLsbD_quarter (List.mem_range.mp hk)]

lemma isEmpty_iff_quarter : c.isEmpty = true ↔ ∀ i < 4, c.quarter i = 0#64 := by
  rw [isEmpty_iff_contains]
  constructor
  · intro h i hi
    apply BitVec.eq_of_getLsbD_eq
    intro k hk
    rw [getLsbD_quarter hk, getLsbD_bits (by omega), h, BitVec.getLsbD_zero]
  · intro h b
    have hquarter : c.quarter (b.toNat / 64) = 0#64 := h _ (by have := b.toNat_lt; omega)
    have hlow : b.toNat % 64 < 64 := Nat.mod_lt _ (by decide)
    have hbit := getLsbD_quarter (c := c) (i := b.toNat / 64) hlow
    rw [hquarter, BitVec.getLsbD_zero, Nat.div_add_mod] at hbit
    exact hbit.symm

lemma foundInQuarters (c : ByteClass) : c.FoundInQuarters :=
  ⟨contains_iff_quarter, c.size_eq_sum_quarter, isEmpty_iff_quarter⟩

lemma quarter_union (c d : ByteClass) (i : Nat) : (c ∪ d).quarter i = c.quarter i ||| d.quarter i :=
  BitVec.extractLsb'_or

lemma quarter_sdiff (c d : ByteClass) (hi : i < 4) :
    (c \ d).quarter i = c.quarter i &&& ~~~d.quarter i := by
  apply BitVec.eq_of_getLsbD_eq
  intro k hk
  have hlt : 64 * i + k < 256 := by omega
  rw [getLsbD_quarter hk, getLsbD_bits hlt, contains_sdiff, BitVec.getLsbD_and, BitVec.getLsbD_not,
    getLsbD_quarter hk, getLsbD_quarter hk, getLsbD_bits hlt, getLsbD_bits hlt, decide_eq_true hk,
    Bool.true_and]

/-- Inserting a byte sets one bit, in the quarter that the high bits of the byte name. -/
theorem quarter_insert (c : ByteClass) (byte : UInt8) (hi : i < 4) :
    (c.insert byte).quarter i = if (byte >>> 6).toNat = i then
      c.quarter i ||| 1#64 <<< (byte &&& 63).toNat else c.quarter i := by
  rw [toNat_high, toNat_low, ← BitVec.twoPow_eq]
  apply BitVec.eq_of_getLsbD_eq
  intro k hk
  have hset : (c.insert byte).bits.getLsbD (64 * i + k) =
      (c.bits.getLsbD (64 * i + k) || decide (byte.toNat = 64 * i + k)) := by
    have hlt : 64 * i + k < 256 := by omega
    simp [insert, hlt, eq_comm]
  rw [getLsbD_quarter hk, hset]
  split
  · next hquarter =>
    have hplace : byte.toNat = 64 * i + k ↔ byte.toNat % 64 = k := by omega
    rw [BitVec.getLsbD_or, getLsbD_quarter hk]
    simp [hk, hplace, eq_comm]
  · next hquarter =>
    have hplace : byte.toNat ≠ 64 * i + k := by omega
    rw [getLsbD_quarter hk]
    simp [hplace]

/-- The bytes from `first` to `last` in ascending order. -/
def bytesBetween (first last : UInt8) : List UInt8 :=
  (List.range' first.toNat (last.toNat + 1 - first.toNat)).map UInt8.ofNat

lemma mem_bytesBetween {first last : UInt8} :
    b ∈ bytesBetween first last ↔ first ≤ b ∧ b ≤ last := by
  rw [bytesBetween, List.mem_map, UInt8.le_iff_toNat_le, UInt8.le_iff_toNat_le]
  constructor
  · rintro ⟨n, hn, rfl⟩
    have hn := List.mem_range'_1.mp hn
    have hlt : n < 256 := by
      have hlast := last.toNat_lt
      omega
    have hbyte : (UInt8.ofNat n).toNat = n := UInt8.toNat_ofNat_of_lt hlt
    omega
  · intro h
    exact ⟨b.toNat, List.mem_range'_1.mpr (by omega), UInt8.ofNat_toNat⟩

/-- A range is made by inserting its bytes one after the other, from the first to the last. -/
theorem range_eq_foldl_insert (first last : UInt8) :
    range first last = (bytesBetween first last).foldl insert empty := by
  rw [eq_iff_contains]
  refine ⟨fun b => ?_, (isEpsilon_ofList _).trans (isEpsilon_ofList _).symm⟩
  have hfold : ((bytesBetween first last).foldl insert empty).contains b =
      (bytesBetween first last).contains b := contains_ofList _ b
  rw [hfold, contains_range, Bool.eq_iff_iff, List.contains_iff_mem, mem_bytesBetween]
  simp

lemma any_digitValue?_iff (b : UInt8) (n : Nat) :
    (digitValue? b).any (· < n) = true ↔
      48 ≤ b.toNat ∧ b.toNat ≤ 57 ∧ b.toNat < 48 + n ∨
        97 ≤ b.toNat ∧ b.toNat ≤ 122 ∧ b.toNat < 87 + n ∨
        65 ≤ b.toNat ∧ b.toNat ≤ 90 ∧ b.toNat < 55 + n := by
  simp only [digitValue?, UInt8.le_iff_toNat_le, UInt8.toNat_ofNat]
  split
  · simp only [Option.any_some, decide_eq_true_eq]
    omega
  · split
    · simp only [Option.any_some, decide_eq_true_eq]
      omega
    · split
      · simp only [Option.any_some, decide_eq_true_eq]
        omega
      · simp only [Option.any_none, Bool.false_eq_true, false_iff]
        omega

/-- The digits of a base are one range, and three of them if there are letters among the digits. -/
theorem digit_eq_ranges {base : Nat} (h : 2 ≤ base) :
    let count := UInt8.ofNat (min base 36)
    digit base = if count ≤ 10 then range 48 (48 + count - 1)
      else range 48 57 ∪ range 97 (97 + (count - 11)) ∪ range 65 (65 + (count - 11)) := by
  intro count
  have hcount : count.toNat = min base 36 := UInt8.toNat_ofNat_of_lt (by omega : min base 36 < 256)
  rw [digit, if_neg (by omega), eq_iff_contains]
  constructor
  · intro b
    rw [contains_ofPred, Bool.eq_iff_iff, any_digitValue?_iff]
    split
    · next hle =>
      simp only [UInt8.le_iff_toNat_le, UInt8.reduceToNat, contains_range, UInt8.toNat_add,
        UInt8.toNat_sub, Bool.and_eq_true, decide_eq_true_eq] at hle ⊢
      omega
    · next hle =>
      simp only [UInt8.le_iff_toNat_le, UInt8.reduceToNat, contains_union, contains_range,
        UInt8.toNat_add, UInt8.toNat_sub, Bool.or_eq_true, Bool.and_eq_true,
        decide_eq_true_eq] at hle ⊢
      omega
  · split
    · exact (isEpsilon_ofList _).trans (isEpsilon_ofList _).symm
    · have hrange : ∀ first last, (range first last).isEpsilon = false := fun first last =>
        isEpsilon_ofList _
      have hunion : ∀ c d : ByteClass, (c ∪ d).isEpsilon = (c.isEpsilon && d.isEpsilon) :=
        fun c d => rfl
      rw [hunion, hrange, Bool.and_false]
      exact isEpsilon_ofList _

end ByteClass

namespace ClassExpr

lemma contains_eval (e : ClassExpr) (b : UInt8) : e.eval.contains b = true ↔ b ∈ e.bytes := by
  induction e with
  | empty => simp [eval, bytes]
  | any => simp [eval, bytes]
  | epsilon => simp [eval, bytes]
  | single byte => simp [eval, bytes]
  | range first last => simp [eval, bytes]
  | ofList bytes => simp [eval, ClassExpr.bytes]
  | ofPred test => simp [eval, bytes]
  | union e f ihe ihf => simp [eval, bytes, ihe, ihf]
  | sdiff e f ihe ihf => simp [eval, bytes, ihe, ← ihf]

lemma isEpsilon_eval (e : ClassExpr) : e.eval.isEpsilon = e.isEpsilon := by
  induction e with
  | empty => rfl
  | any => rfl
  | epsilon => rfl
  | single byte => rfl
  | range first last => exact ByteClass.isEpsilon_ofList _
  | ofList bytes => exact ByteClass.isEpsilon_ofList bytes
  | ofPred test => exact ByteClass.isEpsilon_ofList _
  | union e f ihe ihf =>
    rw [isEpsilon, ← ihe, ← ihf]
    rfl
  | sdiff e f ihe _ =>
    rw [isEpsilon, ← ihe]
    rfl

/-- Only a class without bytes is flagged: unions ask for the flag on both sides, and a difference
takes bytes away. -/
lemma bytes_eq_empty {e : ClassExpr} (h : e.isEpsilon = true) : e.bytes = ∅ := by
  induction e with
  | epsilon => rfl
  | union e f ihe ihf =>
    obtain ⟨he, hf⟩ := Bool.and_eq_true_iff.mp h
    rw [bytes, ihe he, ihf hf, Set.empty_union]
  | sdiff e f ihe _ => rw [bytes, ihe h, Set.empty_sdiff]
  | _ => cases h

lemma setOf_contains_eval (e : ClassExpr) : {b | e.eval.contains b = true} = e.bytes := by
  ext b
  exact e.contains_eval b

lemma eval_eq_iff (e f : ClassExpr) :
    e.eval = f.eval ↔ e.bytes = f.bytes ∧ e.isEpsilon = f.isEpsilon := by
  rw [ByteClass.eq_iff_contains, isEpsilon_eval, isEpsilon_eval, Set.ext_iff]
  apply and_congr_left'
  apply forall_congr'
  intro b
  rw [← contains_eval, ← contains_eval]
  exact Bool.eq_iff_iff

lemma isEmpty_eval_iff (e : ClassExpr) : e.eval.isEmpty = true ↔ e.bytes = ∅ := by
  rw [ByteClass.isEmpty_iff_contains, Set.eq_empty_iff_forall_notMem]
  simp only [← e.contains_eval, Bool.not_eq_true]

/-- A class made by an expression has the bytes the expression stands for and its flag, and a class
with the flag has no bytes. It lists its bytes in ascending order, each once, counts them and says
when there are none; classes are equal if their bytes and their flags are. The same is found in the
quarters of a class, and unions and differences are made quarter by quarter. -/
theorem eval_is_set_with_flag (e f : ClassExpr) :
    (∀ b, e.eval.contains b = true ↔ b ∈ e.bytes) ∧
    (e.eval.isEpsilon = e.isEpsilon ∧ (e.isEpsilon = true → e.bytes = ∅)) ∧
    (e.eval.toList.Pairwise (· < ·) ∧ ∀ b, b ∈ e.eval.toList ↔ b ∈ e.bytes) ∧
    e.eval.size = e.bytes.ncard ∧
    (e.eval.isEmpty = true ↔ e.bytes = ∅) ∧
    (e.eval = f.eval ↔ e.bytes = f.bytes ∧ e.isEpsilon = f.isEpsilon) ∧
    e.eval.FoundInQuarters ∧
    ∀ i < 4, (e.union f).eval.quarter i = e.eval.quarter i ||| f.eval.quarter i ∧
      (e.sdiff f).eval.quarter i = e.eval.quarter i &&& ~~~f.eval.quarter i := by
  refine ⟨e.contains_eval, ⟨e.isEpsilon_eval, bytes_eq_empty⟩, ⟨e.eval.pairwise_toList, ?_⟩, ?_,
    e.isEmpty_eval_iff, e.eval_eq_iff f, e.eval.foundInQuarters, ?_⟩
  · intro b
    rw [ByteClass.mem_toList, contains_eval]
  · rw [ByteClass.size_eq_ncard, setOf_contains_eval]
  · intro i hi
    exact ⟨ByteClass.quarter_union e.eval f.eval i, ByteClass.quarter_sdiff e.eval f.eval hi⟩

/-- A class that keeps the flag through a union and a difference, and one that has no bytes either,
since its range is the wrong way round, but not the flag: they are not equal. -/
theorem eval_is_set_with_flag_nested :
    let e : ClassExpr := .sdiff (.union .epsilon (.sdiff .epsilon (.single 97))) (.range 98 122)
    let f : ClassExpr := .range 122 98
    e.isEpsilon = true ∧ e.bytes = ∅ ∧ f.bytes = ∅ ∧ e.eval ≠ f.eval := by
  intro e f
  obtain ⟨-, ⟨-, hflagged⟩, -, -, -, heq, -⟩ := eval_is_set_with_flag e f
  obtain ⟨-, -, -, -, hempty, -⟩ := eval_is_set_with_flag f e
  have hflag : e.isEpsilon = true := rfl
  have hne : e.eval ≠ f.eval := by
    intro h
    have hsame : true = false := (heq.mp h).2
    cases hsame
  exact ⟨hflag, hflagged hflag, hempty.mp (by decide +kernel), hne⟩

end ClassExpr

end ByteLexer
