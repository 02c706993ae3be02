import ByteLexer.Proofs.Readings
import ByteLexer.Proofs.RegularOperations
import Mathlib.Order.CompletePartialOrder

/-!
# Patterns that read the longest prefix

Many patterns are greedy in the strong sense: whatever lies ahead, they read the longest of the
texts of some language that it begins with, and fail if it begins with none. In general a sequence
of two such patterns is not of this kind, since the first takes what the second would need. It is
when the texts of the first language cannot go on with a byte that begins a text of the second; the
same condition carries repetitions, and a choice asks that no text of the second language goes on
beyond one of the first.

Repetitions without a bound stop after `Pattern.unbounded` rounds, so the texts ahead are no longer
than that.
-/

open scoped Computability

namespace ByteLexer

/-- The longest text of `L` that a text begins with, if it begins with any. -/
def IsLongestPrefix (L : Language UInt8) (ahead : List UInt8) : Option (List UInt8) → Prop
  | some w => w <+: ahead ∧ w ∈ L ∧ ∀ v, v <+: ahead → v ∈ L → v.length ≤ w.length
  | none => ∀ v, v <+: ahead → v ∉ L

/-- The texts of `L` begin with bytes of `S`. -/
def BeginsIn (L : Language UInt8) (S : Set UInt8) : Prop := ∀ b t, b :: t ∈ L → b ∈ S

/-- A text of `L` goes on to another one only with a byte of `S`. -/
def GrowsBy (L : Language UInt8) (S : Set UInt8) : Prop :=
  ∀ u b t, u ∈ L → u ++ b :: t ∈ L → b ∈ S

/-- All bytes of the texts of `L` are in `S`. -/
def ConsistsOf (L : Language UInt8) (S : Set UInt8) : Prop := ∀ w ∈ L, ∀ b ∈ w, b ∈ S

/-- A pattern reads the longest text of `L` that lies ahead. -/
def Pattern.Munches (p : Pattern) (L : Language UInt8) : Prop :=
  ∀ ahead, ahead.length ≤ unbounded → IsLongestPrefix L ahead (p.reads? ahead)

variable {L M : Language UInt8} {S T T' : Set UInt8} {ahead u v w rest tail : List UInt8}
  {r r' : Option (List UInt8)} {p q : Pattern} {c : ByteClass} {n : Nat}

lemma IsLongestPrefix.unique (h : IsLongestPrefix L ahead r) (h' : IsLongestPrefix L ahead r') :
    r = r' := by
  cases r with
  | none =>
    cases r' with
    | none => rfl
    | some w => exact (h w h'.1 h'.2.1).elim
  | some u =>
    cases r' with
    | none => exact (h' u h.1 h.2.1).elim
    | some w =>
      have hlen := Nat.le_antisymm (h'.2.2 u h.1 h.2.1) (h.2.2 w h'.1 h'.2.1)
      rw [List.prefix_iff_eq_take.mp h.1, List.prefix_iff_eq_take.mp h'.1, hlen]

/-- A prefix that avoids what comes after `w` does not reach beyond `w`. -/
lemma prefix_of_avoids (hv : v <+: w ++ tail) (h : ∀ b ∈ tail.head?, b ∉ v) : v <+: w := by
  obtain ⟨s, hs⟩ := hv
  rcases List.append_eq_append_iff.mp hs with ⟨t, rfl, -⟩ | ⟨t, rfl, rfl⟩
  · exact List.prefix_append v t
  · cases t with
    | nil => rw [List.append_nil]
    | cons b t => exact (h b rfl (by simp)).elim

/-- What follows the longest prefix may be exchanged for anything that begins with a byte no text of
the language has. -/
lemma IsLongestPrefix.exchange (h : IsLongestPrefix L (w ++ rest) r) (hw : ∀ u, r = some u → u = w)
    (hL : ConsistsOf L S) (htail : ∀ b ∈ tail.head?, b ∉ S) : IsLongestPrefix L (w ++ tail) r := by
  have hfront : ∀ v, v <+: w ++ tail → v ∈ L → v <+: w ++ rest := fun v hv hmem =>
    (prefix_of_avoids hv fun b hb hbv => htail b hb (hL v hmem b hbv)).trans
      (List.prefix_append w rest)
  cases r with
  | none => exact fun v hv hmem => h v (hfront v hv hmem) hmem
  | some u =>
    obtain rfl := hw u rfl
    exact ⟨List.prefix_append u tail, h.2.1, fun v hv hmem => h.2.2 v (hfront v hv hmem) hmem⟩

/-- If what begins `M` cannot extend the texts of `L`, then only the longest prefix in `L` is
followed by a text of `M`, the empty one apart. -/
lemma eq_or_nil_of_longest (h : IsLongestPrefix L ahead (some w)) (hg : GrowsBy L S)
    (hb : BeginsIn M T) (hST : Disjoint S T) (hu : u ∈ L) (hv : v ∈ M) (huv : u ++ v <+: ahead) :
    u = w ∨ v = [] := by
  have hpre : u <+: ahead := (List.prefix_append u v).trans huv
  obtain ⟨t, rfl⟩ := List.prefix_of_prefix_length_le hpre h.1 (h.2.2 u hpre hu)
  cases t with
  | nil => exact .inl (List.append_nil u).symm
  | cons b t =>
    cases v with
    | nil => exact .inr rfl
    | cons b' v =>
      obtain ⟨s, hs⟩ := huv
      obtain ⟨s', hs'⟩ := h.1
      have heq : b' :: (v ++ s) = b :: (t ++ s') := by
        rw [← hs', List.append_assoc, List.append_assoc] at hs
        exact List.append_cancel_left hs
      rw [List.cons.injEq] at heq
      exact (Set.disjoint_left.mp hST (hg u b t hu h.2.1) (heq.1 ▸ hb b' v hv)).elim

/-- After the longest text of one language the longest of another: together they are the longest
text of the product, if what begins the second cannot extend the first. -/
lemma IsLongestPrefix.append (h : IsLongestPrefix L (u ++ rest) (some u))
    (h' : IsLongestPrefix M rest r) (hg : GrowsBy L S) (hb : BeginsIn M T) (hST : Disjoint S T) :
    IsLongestPrefix (L * M) (u ++ rest) (r.map (u ++ ·)) := by
  have hparts : ∀ u' v', u' ∈ L → v' ∈ M → u' ++ v' <+: u ++ rest →
      u' = u ∧ v' <+: rest ∨ v' = [] ∧ u'.length ≤ u.length := by
    intro u' v' hu' hv' hpre
    rcases eq_or_nil_of_longest h hg hb hST hu' hv' hpre with rfl | rfl
    · exact .inl ⟨rfl, (List.prefix_append_right_inj u').mp hpre⟩
    · rw [List.append_nil] at hpre
      exact .inr ⟨rfl, h.2.2 u' hpre hu'⟩
  cases r with
  | none =>
    rintro _ hw ⟨u', hu', v', hv', rfl⟩
    rcases hparts u' v' hu' hv' hw with ⟨-, hpre⟩ | ⟨rfl, -⟩
    · exact h' v' hpre hv'
    · exact h' [] List.nil_prefix hv'
  | some v =>
    refine ⟨(List.prefix_append_right_inj u).mpr h'.1,
      Language.append_mem_mul h.2.1 h'.2.1, ?_⟩
    rintro _ hw ⟨u', hu', v', hv', rfl⟩
    simp only [List.length_append]
    rcases hparts u' v' hu' hv' hw with ⟨rfl, hpre⟩ | ⟨rfl, hle⟩
    · have hle := h'.2.2 v' hpre hv'
      omega
    · rw [List.length_nil]
      omega

lemma IsLongestPrefix.mul_none (h : IsLongestPrefix L ahead none) (M : Language UInt8) :
    IsLongestPrefix (L * M) ahead none := by
  rintro _ hw ⟨u, hu, v, -, rfl⟩
  exact h u ((List.prefix_append u v).trans hw) hu

lemma IsLongestPrefix.one_add (h : IsLongestPrefix L ahead r) :
    IsLongestPrefix (1 + L) ahead (some (r.getD [])) := by
  cases r with
  | none =>
    refine ⟨List.nil_prefix, .inl rfl, ?_⟩
    rintro v hv (rfl | hmem)
    · rfl
    · exact (h v hv hmem).elim
  | some u =>
    refine ⟨h.1, .inr h.2.1, ?_⟩
    rintro v hv (rfl | hmem)
    · exact Nat.zero_le _
    · exact h.2.2 v hv hmem

/-- If what begins `M` always extends a text of `L`, nothing of `M` comes after the longest. -/
lemma IsLongestPrefix.eq_none_of_extends (h : IsLongestPrefix L (u ++ rest) (some u))
    (h' : IsLongestPrefix M rest r) (hb : BeginsIn M T) (hnil : [] ∉ M)
    (hext : ∀ w ∈ L, ∀ b ∈ T, w ++ [b] ∈ L) : r = none := by
  cases r with
  | none => rfl
  | some v =>
    obtain ⟨⟨s, rfl⟩, hmem, -⟩ := h'
    cases v with
    | nil => exact (hnil hmem).elim
    | cons b v =>
      have hle := h.2.2 (u ++ [b]) ⟨v ++ s, by simp⟩ (hext u h.2.1 b (hb b v hmem))
      rw [List.length_append, List.length_singleton] at hle
      omega

lemma ConsistsOf.growsBy (h : ConsistsOf L S) : GrowsBy L S :=
  fun u b t _ hL => h (u ++ b :: t) hL b (by simp)

lemma ConsistsOf.beginsIn (h : ConsistsOf L S) : BeginsIn L S :=
  fun b t hL => h (b :: t) hL b List.mem_cons_self

lemma BeginsIn.mul (h : BeginsIn L S) (hnil : [] ∉ L) : BeginsIn (L * M) S := by
  intro b t ht
  obtain ⟨u, hu, v, -, huv⟩ := Language.mem_mul.mp ht
  cases u with
  | nil => exact (hnil hu).elim
  | cons b' u =>
    rw [List.cons_append, List.cons.injEq] at huv
    exact huv.1 ▸ h b' u hu

lemma BeginsIn.kstar (h : BeginsIn L S) (hnil : [] ∉ L) : BeginsIn L∗ S := by
  intro b t ht
  rw [← Language.one_add_self_mul_kstar_eq_kstar] at ht
  rcases ht with ht | ht
  · cases ht
  · exact h.mul hnil b t ht

lemma ConsistsOf.mul (hL : ConsistsOf L S) (hM : ConsistsOf M S) : ConsistsOf (L * M) S := by
  rintro w ⟨u, hu, v, hv, rfl⟩ b hb
  rcases List.mem_append.mp hb with hb | hb
  · exact hL u hu b hb
  · exact hM v hv b hb

lemma ConsistsOf.add (hL : ConsistsOf L S) (hM : ConsistsOf M S) : ConsistsOf (L + M) S := by
  rintro w (hw | hw)
  · exact hL w hw
  · exact hM w hw

lemma ConsistsOf.one : ConsistsOf 1 S := by
  rintro w rfl b hb
  cases hb

lemma ConsistsOf.kstar (hL : ConsistsOf L S) : ConsistsOf L∗ S := by
  rintro w ⟨parts, rfl, hparts⟩ b hb
  obtain ⟨part, hpart, hb⟩ := List.mem_flatten.mp hb
  exact hL part (hparts part hpart) b hb

lemma ConsistsOf.mono (h : ConsistsOf L S) (hST : S ⊆ T) : ConsistsOf L T :=
  fun w hw b hb => hST (h w hw b hb)

/-- If what begins `M` cannot extend the texts of `L`, then a text of `L * M` parts in one way only,
and it grows as its second part does. -/
lemma GrowsBy.mul (hL : GrowsBy L S) (hM : GrowsBy M T) (hb : BeginsIn M T')
    (hST : Disjoint S T') (hnil : [] ∉ M) : GrowsBy (L * M) T := by
  intro w b t hw hwt
  obtain ⟨u, hu, v, hv, rfl⟩ := Language.mem_mul.mp hw
  obtain ⟨u', hu', v', hv', h⟩ := Language.mem_mul.mp hwt
  rw [List.append_assoc] at h
  rcases List.append_eq_append_iff.mp h with ⟨s, rfl, hs⟩ | ⟨s, rfl, hs⟩
  · cases s with
    | nil =>
      rw [List.nil_append] at hs
      exact hM v b t hv (hs ▸ hv')
    | cons x s =>
      exact (Set.disjoint_left.mp hST (hL u' x s hu' hu) (hb x _ (hs ▸ hv'))).elim
  · cases s with
    | nil =>
      rw [List.nil_append] at hs
      exact hM v b t hv (hs ▸ hv')
    | cons x s =>
      cases v with
      | nil => exact (hnil hv).elim
      | cons y v =>
        rw [List.cons_append, List.cons_append, List.cons.injEq] at hs
        exact (Set.disjoint_left.mp hST (hL u x s hu hu') (hs.1 ▸ hb y v hv)).elim

namespace Pattern

/-- Patterns that go back and read the longest text of one language come out alike. -/
lemma run_eq_of_isLongestPrefix {src : Source} {s : Scan} (hp : p.GoesBack) (hq : q.GoesBack)
    (hle : s.position.offset ≤ src.bytes.size)
    (h : IsLongestPrefix L (src.remaining s.position) (p.reads? (src.remaining s.position)))
    (h' : IsLongestPrefix L (src.remaining s.position) (q.reads? (src.remaining s.position))) :
    p.run src s = q.run src s := by
  rw [hp.run_eq hle, hq.run_eq hle, h.unique h']

lemma length_drop_le (hne : w ≠ []) (hlen : ahead.length ≤ n + 1) :
    (ahead.drop w.length).length ≤ n := by
  have hpos := List.length_pos_iff.mpr hne
  rw [List.length_drop]
  omega

lemma munches_ofClass (hc : c.isEpsilon = false) :
    (ofClass c).Munches (Automaton.oneByte c) := by
  intro ahead _
  cases ahead with
  | nil =>
    rw [reads?_ofClass_nil hc]
    rintro v hv ⟨byte, -, rfl⟩
    exact List.cons_ne_nil _ _ (List.prefix_nil.mp hv)
  | cons b rest =>
    rw [reads?_ofClass_cons hc]
    split
    · next hb =>
      refine ⟨⟨rest, rfl⟩, ⟨b, hb, rfl⟩, ?_⟩
      rintro v - ⟨byte, -, rfl⟩
      rfl
    · next hb =>
      rintro v hv ⟨byte, hbyte, rfl⟩
      obtain ⟨rfl, -⟩ := List.cons_prefix_cons.mp hv
      exact hb hbyte

lemma munches_literal (bytes : List UInt8) : (literal bytes).Munches {bytes} := by
  intro ahead _
  rw [reads?_literal]
  split
  · next h => exact ⟨h, rfl, fun v _ hv => (congrArg List.length hv).le⟩
  · next h =>
    rintro v hv rfl
    exact h hv

lemma Munches.attempt (hp : p.Munches L) : p.attempt.Munches L := by
  intro ahead hlen
  rw [reads?_attempt]
  exact hp ahead hlen

/-- A sequence is greedy if the second pattern begins with bytes the first would not take. -/
lemma Munches.seq (hp : p.Munches L) (hq : q.Munches M) (hg : GrowsBy L S) (hb : BeginsIn M T)
    (hST : Disjoint S T) : (p.seq q).Munches (L * M) := by
  intro ahead hlen
  have hlong := hp ahead hlen
  rw [reads?_seq]
  cases hu : p.reads? ahead with
  | none =>
    rw [hu] at hlong
    exact hlong.mul_none M
  | some u =>
    rw [hu] at hlong
    obtain ⟨rest, rfl⟩ := hlong.1
    rw [List.length_append] at hlen
    rw [Option.bind_some, List.drop_left]
    exact hlong.append (hq rest (by omega)) hg hb hST

/-- A choice is greedy if no text of the second language goes on beyond one of the first. -/
lemma Munches.alt (hp : p.Munches L) (hq : q.Munches M) (hback : p.GoesBack)
    (h : ∀ u ∈ L, ∀ v ∈ M, u <+: v → v.length ≤ u.length) : (p.alt q).Munches (L + M) := by
  intro ahead hlen
  have hlong := hp ahead hlen
  have hlong' := hq ahead hlen
  rw [reads?_alt hback]
  cases hu : p.reads? ahead with
  | some u =>
    rw [hu] at hlong
    refine ⟨hlong.1, .inl hlong.2.1, ?_⟩
    rintro v hv (hmem | hmem)
    · exact hlong.2.2 v hv hmem
    · rcases List.prefix_or_prefix_of_prefix hv hlong.1 with hpre | hpre
      · exact hpre.length_le
      · exact h u hlong.2.1 v hmem hpre
  | none =>
    rw [hu] at hlong
    rw [Option.none_or]
    cases hv : q.reads? ahead with
    | none =>
      rw [hv] at hlong'
      rintro v hpre (hmem | hmem)
      · exact hlong v hpre hmem
      · exact hlong' v hpre hmem
    | some v =>
      rw [hv] at hlong'
      refine ⟨hlong'.1, .inr hlong'.2.1, ?_⟩
      rintro w hw (hmem | hmem)
      · exact (hlong w hw hmem).elim
      · exact hlong'.2.2 w hw hmem

lemma Munches.optional (hp : p.Munches L) (hback : p.GoesBack) : p.optional.Munches (1 + L) := by
  intro ahead hlen
  rw [reads?_optional hback]
  exact (hp ahead hlen).one_add

/-- A repetition is greedy if what begins the texts it repeats does not extend them. -/
lemma Munches.repetition_zero (hp : p.Munches L) (hback : p.GoesBack) (hnil : [] ∉ L)
    (hg : GrowsBy L S) (hb : BeginsIn L T) (hST : Disjoint S T) (hn : n ≤ unbounded)
    (hlen : ahead.length ≤ n) : IsLongestPrefix L∗ ahead ((p.repetition 0 n).reads? ahead) := by
  induction n generalizing ahead with
  | zero =>
    obtain rfl := List.length_eq_zero_iff.mp (Nat.le_zero.mp hlen)
    exact ⟨List.nil_prefix, Language.nil_mem_kstar L, fun v hv _ => hv.length_le⟩
  | succ n ih =>
    have hlong := hp ahead (hlen.trans hn)
    rw [← Language.one_add_self_mul_kstar_eq_kstar]
    cases hu : p.reads? ahead with
    | none =>
      rw [hu] at hlong
      rw [reads?_repetition_none hback hu]
      exact (hlong.mul_none L∗).one_add
    | some u =>
      rw [hu] at hlong
      have hne : u ≠ [] := fun h => hnil (h ▸ hlong.2.1)
      obtain ⟨v, hv⟩ := Option.isSome_iff_exists.mp
        (hback.reads?_repetition_isSome n (ahead.drop u.length))
      have hrest := ih (by omega) (length_drop_le hne hlen)
      rw [reads?_repetition_some hu hne]
      obtain ⟨rest, rfl⟩ := hlong.1
      rw [List.drop_left] at hrest hv ⊢
      rw [hv] at hrest ⊢
      exact (hlong.append hrest hg (hb.kstar hnil) hST).one_add

lemma Munches.zeroOrMore (hp : p.Munches L) (hback : p.GoesBack) (hnil : [] ∉ L)
    (hg : GrowsBy L S) (hb : BeginsIn L T) (hST : Disjoint S T) : p.zeroOrMore.Munches L∗ :=
  fun _ hlen => hp.repetition_zero hback hnil hg hb hST le_rfl hlen

lemma Munches.oneOrMore (hp : p.Munches L) (hback : p.GoesBack) (hnil : [] ∉ L)
    (hg : GrowsBy L S) (hb : BeginsIn L T) (hST : Disjoint S T) :
    p.oneOrMore.Munches (L * L∗) := by
  intro ahead hlen
  have hlong := hp ahead hlen
  rw [Pattern.oneOrMore, reads?_repetition_succ, reads?_seq]
  cases hu : p.reads? ahead with
  | none =>
    rw [hu] at hlong
    exact hlong.mul_none L∗
  | some u =>
    rw [hu] at hlong
    have hne : u ≠ [] := fun h => hnil (h ▸ hlong.2.1)
    have hrest := hp.repetition_zero hback hnil hg hb hST (Nat.sub_le unbounded 1)
      (length_drop_le hne hlen)
    obtain ⟨rest, rfl⟩ := hlong.1
    rw [List.drop_left] at hrest
    rw [Option.bind_some, List.drop_left]
    exact hlong.append hrest hg (hb.kstar hnil) hST

end Pattern

end ByteLexer
