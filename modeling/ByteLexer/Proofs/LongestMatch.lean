import ByteLexer.Proofs.Lockstep
import ByteLexer.Proofs.Paths
import ByteLexer.Session
import Mathlib.Data.Finset.Card
import Mathlib.Logic.Relation
import Mathlib.Order.Bounds.Basic

/-!
# The longest match is the longest path

The two loops of the matcher are stated once more without a bound on their steps: `Gathers` collects
what is reached in place, `Follows` goes on byte by byte. Both end on every graph, with the result
that the bounded loops give. What `Gathers` collects is then exactly what is reached in place, so
the frontier of `Follows` accepts what is left of a text just when a path from the old frontier
does, and the last place where a path may end is the longest match. A cursor that reads ahead round
by round and is then set back finds the same.
-/

namespace ByteLexer.Automaton

/-- `id` leads to `j` without reading. -/
def LeadsTo (a : Automaton) (id j : Nat) : Prop :=
  ∃ node, a.nodes[id]? = some node ∧ j ∈ inPlace node

/-- `j` is reached from `id` without reading. -/
abbrev Reaches (a : Automaton) : Nat → Nat → Prop := Relation.ReflTransGen a.LeadsTo

/-- Collecting what is reached in place: from the nodes still to be looked at and those seen, the
loop ends with the last argument. -/
inductive Gathers (a : Automaton) : List Nat → List Nat → List Nat → Prop where
  | done {seen : List Nat} : Gathers a [] seen seen
  | outside {id : Nat} {pending seen result : List Nat} (hn : a.nodes[id]? = none)
      (h : Gathers a pending seen result) : Gathers a (id :: pending) seen result
  | again {id : Nat} {pending seen result : List Nat} (hs : id ∈ seen)
      (h : Gathers a pending seen result) : Gathers a (id :: pending) seen result
  | expand {id : Nat} {node : Node} {pending seen result : List Nat}
      (hn : a.nodes[id]? = some node) (hs : id ∉ seen)
      (h : Gathers a (inPlace node ++ pending) (id :: seen) result) :
      Gathers a (id :: pending) seen result

/-- The longest match known at a place, when the nodes of `reached` are reached there. -/
def bestInPlace (a : Automaton) (reached : List Nat) (read : Nat) (best : Option Nat) :
    Option Nat :=
  if a.endsInPlace reached then some read else best

/-- The longest match known after the nodes of `reading` have read one more byte. -/
def bestAfter (reading : List Node) (read : Nat) (best : Option Nat) : Option Nat :=
  if reading.any (·.accept) then some (read + 1) else best

/-- Following all paths from a frontier, where `read` bytes have been read and the longest match so
far is `best`: the loop ends with the last argument. -/
inductive Follows (a : Automaton) (src : Source) (first : Nat) :
    Nat → List Nat → Option Nat → Option Nat → Prop where
  | atEnd {read : Nat} {frontier reached : List Nat} {best : Option Nat}
      (hg : a.Gathers frontier [] reached) (hb : src.bytes[first + read]? = none) :
      Follows a src first read frontier best (a.bestInPlace reached read best)
  | stuck {read : Nat} {frontier reached : List Nat} {best : Option Nat} {byte : UInt8}
      (hg : a.Gathers frontier [] reached) (hb : src.bytes[first + read]? = some byte)
      (hf : (a.readers reached byte).filterMap (·.next) = []) :
      Follows a src first read frontier best
        (bestAfter (a.readers reached byte) read (a.bestInPlace reached read best))
  | read {read : Nat} {frontier reached : List Nat} {best result : Option Nat} {byte : UInt8}
      (hg : a.Gathers frontier [] reached) (hb : src.bytes[first + read]? = some byte)
      (h : Follows a src first (read + 1) ((a.readers reached byte).filterMap (·.next))
        (bestAfter (a.readers reached byte) read (a.bestInPlace reached read best)) result) :
      Follows a src first read frontier best result

variable {a : Automaton} {id j : Nat} {node : Node} {ids pending seen reached result : List Nat}
  {u v w : List UInt8} {byte : UInt8}

lemma length_inPlace_le (node : Node) : (inPlace node).length ≤ 2 := by
  unfold inPlace
  cases node.alt <;> cases node.next <;> cases node.label.isEpsilon <;> simp

/-- A node taken up for the first time leaves one node less, and that pays for what it may add. -/
lemma closureFrom_gathers (a : Automaton) (steps : Nat) (pending seen : List Nat)
    (h : pending.length + 2 * (Finset.range a.size \ seen.toFinset).card ≤ steps) :
    a.Gathers pending seen (a.closureFrom steps pending seen) := by
  induction steps generalizing pending seen with
  | zero =>
    have hp : pending = [] := List.length_eq_zero_iff.mp (by omega)
    rw [hp, closureFrom]
    exact .done
  | succ steps ih =>
    cases pending with
    | nil => exact .done
    | cons id pending =>
      rw [List.length_cons] at h
      rw [closureFrom]
      split
      · next hn => exact .outside hn (ih pending seen (by omega))
      · next node hn =>
        by_cases hs : id ∈ seen
        · rw [if_pos (List.contains_iff_mem.mpr hs)]
          exact .again hs (ih pending seen (by omega))
        · rw [if_neg (fun hc => hs (List.contains_iff_mem.mp hc))]
          refine .expand hn hs (ih _ _ ?_)
          have hmem : id ∈ Finset.range a.size \ seen.toFinset := by
            simp [lt_of_getElem? hn, hs]
          have hcard := Finset.card_erase_add_one hmem
          have hle := length_inPlace_le node
          rw [List.toFinset_cons, Finset.sdiff_insert, List.length_append]
          omega

lemma closure_gathers (a : Automaton) (ids : List Nat) : a.Gathers ids [] (a.closure ids) := by
  apply closureFrom_gathers
  simp

lemma longestFrom_follows (a : Automaton) (src : Source) (first rounds read : Nat)
    (frontier : List Nat) (best : Option Nat) (h : src.bytes.size - (first + read) < rounds) :
    a.Follows src first read frontier best
      (a.longestFrom src first rounds read frontier best) := by
  induction rounds generalizing read frontier best with
  | zero => omega
  | succ rounds ih =>
    have hg := a.closure_gathers frontier
    rw [longestFrom]
    split
    · next hb => exact .atEnd hg hb
    · next byte hb =>
      have hlt : first + read < src.bytes.size := (Array.getElem?_eq_some_iff.mp hb).1
      dsimp only
      split
      · next hf => exact .stuck hg hb hf
      · exact .read hg hb (ih _ _ _ (by omega))

/-- What holds of the nodes seen and pending while the loop gathers what is reached from `ids`. -/
structure GatherInvariant (a : Automaton) (ids pending seen : List Nat) : Prop where
  seen_reached : ∀ x ∈ seen, x < a.size ∧ ∃ id ∈ ids, a.Reaches id x
  pending_reached : ∀ x ∈ pending, ∃ id ∈ ids, a.Reaches id x
  covers_ids : ∀ id ∈ ids, id < a.size → id ∈ seen ∨ id ∈ pending
  covers_edges : ∀ x ∈ seen, ∀ j, a.LeadsTo x j → j < a.size → j ∈ seen ∨ j ∈ pending

lemma GatherInvariant.pop (h : GatherInvariant a ids (id :: pending) seen)
    (hid : id < a.size → id ∈ seen) : GatherInvariant a ids pending seen := by
  have hdrop : ∀ x, x < a.size → x ∈ seen ∨ x ∈ id :: pending → x ∈ seen ∨ x ∈ pending := by
    intro x hx hmem
    rcases hmem with hmem | hmem
    · exact .inl hmem
    · rcases List.mem_cons.mp hmem with rfl | hmem
      · exact .inl (hid hx)
      · exact .inr hmem
  refine ⟨h.seen_reached, fun x hx => h.pending_reached x (List.mem_cons_of_mem id hx), ?_, ?_⟩
  · exact fun x hx hlt => hdrop x hlt (h.covers_ids x hx hlt)
  · exact fun x hx j hj hlt => hdrop j hlt (h.covers_edges x hx j hj hlt)

lemma GatherInvariant.expand (h : GatherInvariant a ids (id :: pending) seen)
    (hn : a.nodes[id]? = some node) :
    GatherInvariant a ids (inPlace node ++ pending) (id :: seen) := by
  obtain ⟨start, hstart, hreach⟩ := h.pending_reached id List.mem_cons_self
  have hmove : ∀ x, x ∈ seen ∨ x ∈ id :: pending →
      x ∈ id :: seen ∨ x ∈ inPlace node ++ pending := by
    intro x hx
    simp only [List.mem_cons, List.mem_append] at hx ⊢
    tauto
  refine ⟨?_, ?_, fun x hx hlt => hmove x (h.covers_ids x hx hlt), ?_⟩
  · intro x hx
    rcases List.mem_cons.mp hx with rfl | hx
    · exact ⟨lt_of_getElem? hn, start, hstart, hreach⟩
    · exact h.seen_reached x hx
  · intro x hx
    rcases List.mem_append.mp hx with hx | hx
    · exact ⟨start, hstart, hreach.tail ⟨node, hn, hx⟩⟩
    · exact h.pending_reached x (List.mem_cons_of_mem id hx)
  · intro x hx j hj hlt
    rcases List.mem_cons.mp hx with rfl | hx
    · obtain ⟨node', hn', hmem⟩ := hj
      cases hn.symm.trans hn'
      exact .inr (List.mem_append_left _ hmem)
    · exact hmove j (h.covers_edges x hx j hj hlt)

lemma Gathers.invariant (h : a.Gathers pending seen result)
    (hi : GatherInvariant a ids pending seen) : GatherInvariant a ids [] result := by
  induction h with
  | done => exact hi
  | outside hn _ ih =>
    exact ih (hi.pop fun hlt => absurd hlt (by simpa [size] using Array.getElem?_eq_none_iff.mp hn))
  | again hs _ ih => exact ih (hi.pop fun _ => hs)
  | expand hn _ _ ih => exact ih (hi.expand hn)

/-- The loop gathers the nodes reached in place, and nothing else. -/
lemma Gathers.mem_iff (h : a.Gathers ids [] reached) :
    j ∈ reached ↔ j < a.size ∧ ∃ id ∈ ids, a.Reaches id j := by
  have hi : GatherInvariant a ids [] reached :=
    h.invariant ⟨by simp, fun x hx => ⟨x, hx, .refl⟩, fun id hid _ => .inr hid, by simp⟩
  refine ⟨fun hj => hi.seen_reached j hj, ?_⟩
  rintro ⟨hlt, id, hid, hreach⟩
  induction hreach with
  | refl => simpa using hi.covers_ids id hid hlt
  | tail _ hstep ih =>
    obtain ⟨node, hn, hmem⟩ := hstep
    simpa using hi.covers_edges _ (ih (lt_of_getElem? hn)) _ ⟨node, hn, hmem⟩ hlt

lemma LeadsTo.accepts (h : a.LeadsTo id j) (hw : a.Accepts j w) : a.Accepts id w := by
  obtain ⟨node, hn, hmem⟩ := h
  rcases List.mem_append.mp hmem with hmem | hmem
  · exact .alt hn (by simpa using hmem) hw
  · cases he : node.label.isEpsilon with
    | false => simp [he] at hmem
    | true =>
      have hj : node.next = some j := by simpa [he] using hmem
      have hu : node.Reads [] := by simp [Node.Reads, he]
      exact .next hn hu hj hw

lemma Reaches.accepts (h : a.Reaches id j) (hw : a.Accepts j w) : a.Accepts id w := by
  induction h using Relation.ReflTransGen.head_induction_on with
  | refl => exact hw
  | head hstep _ ih => exact hstep.accepts ih

/-- A path reads nothing on its way to some node, and there it ends in place or reads a byte. -/
lemma accepts_iff_reaches : a.Accepts id w ↔ ∃ j node, a.Reaches id j ∧ a.nodes[j]? = some node ∧
    ((node.label.isEpsilon = true ∧ node.accept = true ∧ w = []) ∨
      node.label.isEpsilon = false ∧ ∃ byte v, w = byte :: v ∧ node.label.contains byte = true ∧
        ((node.accept = true ∧ v = []) ∨ ∃ k, node.next = some k ∧ a.Accepts k v)) := by
  constructor
  · intro hw
    induction hw with
    | @alt id j node w hn hj _ ih =>
      obtain ⟨k, last, hreach, hrest⟩ := ih
      exact ⟨k, last, hreach.head ⟨node, hn, by simp [inPlace, hj]⟩, hrest⟩
    | @next id j node u w hn hu hj h ih =>
      cases he : node.label.isEpsilon with
      | true =>
        obtain ⟨k, last, hreach, hrest⟩ := ih
        have hu' : u = [] := by simpa [Node.Reads, he] using hu
        rw [hu', List.nil_append]
        exact ⟨k, last, hreach.head ⟨node, hn, by simp [inPlace, he, hj]⟩, hrest⟩
      | false =>
        obtain ⟨byte, hbyte, rfl⟩ : ∃ byte, node.label.contains byte = true ∧ u = [byte] := by
          simpa [Node.Reads, he] using hu
        exact ⟨id, node, .refl, hn, .inr ⟨he, byte, w, rfl, hbyte, .inr ⟨j, hj, h⟩⟩⟩
    | @stop id node u hn hu ha =>
      refine ⟨id, node, .refl, hn, ?_⟩
      cases he : node.label.isEpsilon with
      | true => exact .inl ⟨rfl, ha, by simpa [Node.Reads, he] using hu⟩
      | false =>
        obtain ⟨byte, hbyte, rfl⟩ : ∃ byte, node.label.contains byte = true ∧ u = [byte] := by
          simpa [Node.Reads, he] using hu
        exact .inr ⟨rfl, byte, [], rfl, hbyte, .inl ⟨ha, rfl⟩⟩
  · rintro ⟨j, node, hreach, hn, ⟨he, ha, rfl⟩ | ⟨he, byte, v, rfl, hbyte, hrest⟩⟩
    · exact Reaches.accepts hreach (.stop hn (by simp [Node.Reads, he]) ha)
    · have hu : node.Reads [byte] := by simp [Node.Reads, he, hbyte]
      rcases hrest with ⟨ha, rfl⟩ | ⟨k, hk, hv⟩
      · exact Reaches.accepts hreach (.stop hn hu ha)
      · exact Reaches.accepts hreach (.next hn hu hk hv)

/-- A path from one of the nodes `ids` reads `w` and ends right after an accepting node. -/
def AcceptsFrom (a : Automaton) (ids : List Nat) (w : List UInt8) : Prop :=
  ∃ id ∈ ids, a.Accepts id w

lemma mem_readers {nodes : List Nat} : node ∈ a.readers nodes byte ↔
    ∃ id ∈ nodes, a.nodes[id]? = some node ∧ node.label.isEpsilon = false ∧
      node.label.contains byte = true := by
  simp [readers, Option.filter_eq_some_iff]

lemma Gathers.endsInPlace_iff (h : a.Gathers ids [] reached) :
    a.endsInPlace reached = true ↔ a.AcceptsFrom ids [] := by
  simp only [endsInPlace, List.any_eq_true, Option.any_eq_true, Bool.and_eq_true]
  constructor
  · rintro ⟨j, hj, node, hn, ha, he⟩
    obtain ⟨-, id, hid, hreach⟩ := h.mem_iff.mp hj
    exact ⟨id, hid, accepts_iff_reaches.mpr ⟨j, node, hreach, hn, .inl ⟨he, ha, rfl⟩⟩⟩
  · rintro ⟨id, hid, hw⟩
    obtain ⟨j, node, hreach, hn, ⟨he, ha, -⟩ | ⟨-, _, _, hw, -⟩⟩ := accepts_iff_reaches.mp hw
    · exact ⟨j, h.mem_iff.mpr ⟨lt_of_getElem? hn, id, hid, hreach⟩, node, hn, ha, he⟩
    · cases hw

/-- A path from the frontier that reads a byte ends there or goes on from the next frontier. -/
lemma Gathers.acceptsFrom_cons (h : a.Gathers ids [] reached) :
    a.AcceptsFrom ids (byte :: v) ↔
      (v = [] ∧ (a.readers reached byte).any (·.accept) = true) ∨
        a.AcceptsFrom ((a.readers reached byte).filterMap (·.next)) v := by
  constructor
  · rintro ⟨id, hid, hw⟩
    obtain ⟨j, node, hreach, hn, ⟨-, -, hw⟩ | ⟨he, _, _, hw, hbyte, hrest⟩⟩ :=
      accepts_iff_reaches.mp hw
    · cases hw
    · cases hw
      have hmem : node ∈ a.readers reached byte :=
        mem_readers.mpr ⟨j, h.mem_iff.mpr ⟨lt_of_getElem? hn, id, hid, hreach⟩, hn, he, hbyte⟩
      rcases hrest with ⟨ha, rfl⟩ | ⟨k, hk, hv⟩
      · exact .inl ⟨rfl, List.any_eq_true.mpr ⟨node, hmem, ha⟩⟩
      · exact .inr ⟨k, List.mem_filterMap.mpr ⟨node, hmem, hk⟩, hv⟩
  · have hback : ∀ node ∈ a.readers reached byte,
        ((node.accept = true ∧ v = []) ∨ ∃ k, node.next = some k ∧ a.Accepts k v) →
          a.AcceptsFrom ids (byte :: v) := by
      intro node hmem hrest
      obtain ⟨j, hj, hn, he, hbyte⟩ := mem_readers.mp hmem
      obtain ⟨-, id, hid, hreach⟩ := h.mem_iff.mp hj
      exact ⟨id, hid, accepts_iff_reaches.mpr
        ⟨j, node, hreach, hn, .inr ⟨he, byte, v, rfl, hbyte, hrest⟩⟩⟩
    rintro (⟨rfl, hany⟩ | ⟨k, hk, hv⟩)
    · obtain ⟨node, hmem, ha⟩ := List.any_eq_true.mp hany
      exact hback node hmem (.inl ⟨ha, rfl⟩)
    · obtain ⟨node, hmem, hnext⟩ := List.mem_filterMap.mp hk
      exact hback node hmem (.inr ⟨k, hnext, hv⟩)

/-- The greatest number with a property, if any number has it. -/
def IsLongest (P : Nat → Prop) : Option Nat → Prop
  | none => ∀ n, ¬P n
  | some n => IsGreatest {n | P n} n

lemma IsLongest.of_dominated {P Q : Nat → Prop} {best : Option Nat} (h : IsLongest Q best)
    (hQ : ∀ n, Q n → P n) (hP : ∀ n, P n → ∃ m, n ≤ m ∧ Q m) : IsLongest P best := by
  cases best with
  | none =>
    intro n hn
    obtain ⟨m, -, hm⟩ := hP n hn
    exact h m hm
  | some k =>
    refine ⟨hQ k h.1, fun n hn => ?_⟩
    obtain ⟨m, hnm, hm⟩ := hP n hn
    exact hnm.trans (h.2 hm)

lemma IsLongest.eq_some_iff {P : Nat → Prop} {best : Option Nat} (h : IsLongest P best) (n : Nat) :
    best = some n ↔ IsGreatest {k | P k} n := by
  cases best with
  | none => exact ⟨fun hn => (by cases hn), fun hn => (h n hn.1).elim⟩
  | some m => exact ⟨fun hn => (by cases hn; exact h), fun hn => congrArg some (h.unique hn)⟩

lemma IsLongest.eq_none_iff {P : Nat → Prop} {best : Option Nat} (h : IsLongest P best) :
    best = none ↔ ∀ n, ¬P n := by
  cases best with
  | none => exact ⟨fun _ => h, fun _ => rfl⟩
  | some m => exact ⟨fun hn => (by cases hn), fun hn => (hn m h.1).elim⟩

lemma IsLongest.unique {P : Nat → Prop} {best best' : Option Nat} (h : IsLongest P best)
    (h' : IsLongest P best') : best = best' :=
  Option.ext fun n => (h.eq_some_iff n).trans (h'.eq_some_iff n).symm

lemma isLongest_eq (best : Option Nat) : IsLongest (best = some ·) best := by
  cases best with
  | none => simp [IsLongest]
  | some n => exact ⟨rfl, fun m hm => by cases hm; exact le_rfl⟩

/-- The matches still to be had, given the longest one so far: that one itself, and those that a
path from the frontier reads in what is left. -/
def Candidate (a : Automaton) (rest : List UInt8) (read : Nat) (frontier : List Nat)
    (best : Option Nat) (n : Nat) : Prop :=
  best = some n ∨ ∃ w, w <+: rest ∧ n = read + w.length ∧ a.AcceptsFrom frontier w

variable {frontier : List Nat} {rest : List UInt8} {read n : Nat} {best : Option Nat}

lemma bestInPlace_le (hbest : ∀ n, best = some n → n ≤ read) :
    ∀ n, a.bestInPlace reached read best = some n → n ≤ read := by
  intro n hn
  unfold bestInPlace at hn
  split at hn
  · cases hn
    exact le_rfl
  · exact hbest n hn

lemma Gathers.candidate_of_bestInPlace (hg : a.Gathers frontier [] reached)
    (h : a.bestInPlace reached read best = some n) : a.Candidate rest read frontier best n := by
  unfold bestInPlace at h
  split at h
  · next he =>
    cases h
    exact .inr ⟨[], List.nil_prefix, by simp, hg.endsInPlace_iff.mp he⟩
  · exact .inl h

lemma Gathers.exists_bestInPlace (hg : a.Gathers frontier [] reached)
    (hbest : ∀ n, best = some n → n ≤ read)
    (h : best = some n ∨ (n = read ∧ a.AcceptsFrom frontier [])) :
    ∃ m, n ≤ m ∧ a.bestInPlace reached read best = some m := by
  unfold bestInPlace
  by_cases he : a.endsInPlace reached = true
  · refine ⟨read, ?_, if_pos he⟩
    rcases h with h | ⟨rfl, -⟩
    · exact hbest n h
    · exact le_rfl
  · rw [if_neg he]
    rcases h with h | ⟨-, h⟩
    · exact ⟨n, le_rfl, h⟩
    · exact absurd (hg.endsInPlace_iff.mpr h) he

lemma Gathers.candidate_of_read (hg : a.Gathers frontier [] reached)
    (h : a.Candidate rest (read + 1) ((a.readers reached byte).filterMap (·.next))
      (bestAfter (a.readers reached byte) read (a.bestInPlace reached read best)) n) :
    a.Candidate (byte :: rest) read frontier best n := by
  rcases h with h | ⟨w, hw, rfl, hacc⟩
  · unfold bestAfter at h
    split at h
    · next hany =>
      cases h
      exact .inr ⟨[byte], by simp, rfl, hg.acceptsFrom_cons.mpr (.inl ⟨rfl, hany⟩)⟩
    · exact hg.candidate_of_bestInPlace h
  · refine .inr ⟨byte :: w, by simpa using hw, ?_, hg.acceptsFrom_cons.mpr (.inr hacc)⟩
    rw [List.length_cons]
    omega

/-- Nothing longer is lost when a byte is read. -/
lemma Gathers.exists_candidate (hg : a.Gathers frontier [] reached)
    (hbest : ∀ n, best = some n → n ≤ read) (h : a.Candidate (byte :: rest) read frontier best n) :
    ∃ m, n ≤ m ∧ a.Candidate rest (read + 1) ((a.readers reached byte).filterMap (·.next))
      (bestAfter (a.readers reached byte) read (a.bestInPlace reached read best)) m := by
  have hbest' : ∀ m, a.bestInPlace reached read best = some m → m ≤ read := bestInPlace_le hbest
  have hplace : (best = some n ∨ (n = read ∧ a.AcceptsFrom frontier [])) → ∃ m, n ≤ m ∧
      bestAfter (a.readers reached byte) read (a.bestInPlace reached read best) = some m := by
    intro h
    obtain ⟨m, hnm, hm⟩ := hg.exists_bestInPlace hbest h
    unfold bestAfter
    split
    · exact ⟨read + 1, by have := hbest' m hm; omega, rfl⟩
    · exact ⟨m, hnm, hm⟩
  rcases h with h | ⟨w, hw, rfl, hacc⟩
  · obtain ⟨m, hnm, hm⟩ := hplace (.inl h)
    exact ⟨m, hnm, .inl hm⟩
  · cases w with
    | nil =>
      obtain ⟨m, hnm, hm⟩ := hplace (.inr ⟨rfl, hacc⟩)
      exact ⟨m, hnm, .inl hm⟩
    | cons b v =>
      obtain ⟨rfl, hv⟩ := List.cons_prefix_cons.mp hw
      rcases hg.acceptsFrom_cons.mp hacc with ⟨rfl, hany⟩ | hacc
      · exact ⟨read + 1, le_rfl, .inl (if_pos hany)⟩
      · refine ⟨read + 1 + v.length, ?_, .inr ⟨v, hv, rfl, hacc⟩⟩
        rw [List.length_cons]
        omega

lemma drop_eq_cons {src : Source} {k : Nat} (h : src.bytes[k]? = some byte) :
    src.bytes.toList.drop k = byte :: src.bytes.toList.drop (k + 1) := by
  obtain ⟨hk, rfl⟩ := Array.getElem?_eq_some_iff.mp h
  rw [List.drop_eq_getElem_cons (by simpa using hk), Array.getElem_toList]

/-- Whatever has been read so far, the loop ends with the longest candidate. -/
lemma Follows.isLongest {src : Source} {first : Nat} {result : Option Nat}
    (h : a.Follows src first read frontier best result) (hbest : ∀ n, best = some n → n ≤ read) :
    IsLongest (a.Candidate (src.bytes.toList.drop (first + read)) read frontier best) result := by
  induction h with
  | atEnd hg hb =>
    rw [List.drop_eq_nil_of_le (by simpa using Array.getElem?_eq_none_iff.mp hb)]
    refine (isLongest_eq _).of_dominated (fun n hn => hg.candidate_of_bestInPlace hn) ?_
    rintro n (hn | ⟨w, hw, rfl, hacc⟩)
    · exact hg.exists_bestInPlace hbest (.inl hn)
    · rw [List.prefix_nil.mp hw] at hacc ⊢
      exact hg.exists_bestInPlace hbest (.inr ⟨rfl, hacc⟩)
  | stuck hg hb hf =>
    rw [drop_eq_cons hb]
    refine (isLongest_eq _).of_dominated (fun n hn => hg.candidate_of_read (.inl hn)) ?_
    intro n hn
    obtain ⟨m, hnm, hm⟩ := hg.exists_candidate hbest hn
    rw [hf] at hm
    rcases hm with hm | ⟨_, _, _, _, hmem, _⟩
    · exact ⟨m, hnm, hm⟩
    · cases hmem
  | read hg hb _ ih =>
    rw [drop_eq_cons hb]
    refine (ih ?_).of_dominated (fun n hn => hg.candidate_of_read hn)
      (fun n hn => hg.exists_candidate hbest hn)
    intro n hn
    unfold bestAfter at hn
    split at hn
    · cases hn
      exact le_rfl
    · have := bestInPlace_le hbest n hn
      omega

lemma longestMatch_follows (src : Source) (p : Position) (h : a.root = some id) :
    a.Follows src p.offset 0 [id] none (a.longestMatch src p) := by
  rw [longestMatch, h]
  exact a.longestFrom_follows src p.offset _ 0 [id] none (by omega)

/-- Follows all paths from a frontier, where `read` bytes have been read and the longest match so
far is `best`: the cursor reads each byte after which some path goes on. -/
def probeFrom (a : Automaton) (c : Cursor) (read : Nat) (frontier : List Nat)
    (best : Option Nat) : Option Nat × Cursor :=
  let reached := a.closure frontier
  let best := a.bestInPlace reached read best
  match _hpeek : c.peek with
  | none => (best, c)
  | some byte =>
    let reading := a.readers reached byte
    let best := bestAfter reading read best
    match reading.filterMap (·.next) with
    | [] => (best, c)
    | frontier => a.probeFrom c.advance (read + 1) frontier best
termination_by c.source.bytes.size - c.offset
decreasing_by
  obtain ⟨hoffset, hlt⟩ := Source.offset_advance_of_peek _hpeek
  simp only [Cursor.offset, Cursor.advance, hoffset]
  omega

/-- Looks for the longest match with a cursor that reads ahead and is then set back. -/
def probe (a : Automaton) (c : Cursor) : Option Nat × Cursor :=
  match a.root with
  | none => (none, c)
  | some root =>
    let (best, moved) := a.probeFrom c 0 [root] none
    (best, moved.seek c.position)

/-- The cursor reads the text that the rounds of the matcher go through. -/
lemma probeFrom_eq (a : Automaton) (c : Cursor) (first rounds read : Nat) (frontier : List Nat)
    (best : Option Nat) (hoffset : c.offset = first + read)
    (hrounds : c.source.bytes.size - c.offset < rounds) :
    (a.probeFrom c read frontier best).1 =
        a.longestFrom c.source first rounds read frontier best ∧
      (a.probeFrom c read frontier best).2.source = c.source := by
  induction rounds generalizing c read frontier best with
  | zero => omega
  | succ rounds ih =>
    have hbyte : c.source.bytes[first + read]? = c.peek := by
      rw [← hoffset]
      rfl
    rw [probeFrom, longestFrom, hbyte]
    split
    · next hnone =>
      simp only [hnone]
      exact ⟨rfl, trivial⟩
    · next byte hsome =>
      obtain ⟨hadvance, hlt⟩ := Source.offset_advance_of_peek hsome
      have hlt : c.offset < c.source.bytes.size := hlt
      have hadvance : c.advance.offset = c.offset + 1 := hadvance
      simp only [hsome]
      cases hnext : (a.readers (a.closure frontier) byte).filterMap (·.next) with
      | nil => exact ⟨rfl, rfl⟩
      | cons id ids =>
        exact ih c.advance (read + 1) (id :: ids) _ (by omega)
          (show c.source.bytes.size - c.advance.offset < rounds by omega)

/-- The probe finds the longest match and leaves the cursor where it was. -/
lemma probe_eq (a : Automaton) {c : Cursor} (hle : c.offset ≤ c.source.bytes.size) :
    a.probe c = (a.longestMatch c.source c.position, c) := by
  rw [probe, longestMatch]
  cases a.root with
  | none => rfl
  | some root =>
    obtain ⟨hbest, hsource⟩ := a.probeFrom_eq c c.offset (c.source.bytes.size - c.offset + 1) 0
      [root] none rfl (Nat.lt_succ_self _)
    have hseek : (a.probeFrom c 0 [root] none).2.seek c.position = c := by
      rw [Cursor.seek, hsource, Source.seek_of_le hle]
    simp only [hbest, hseek, Option.bind_some]
    rfl

/-- Asking a session inside its text for the length of a match comes to a probe with its cursor. -/
theorem step_matchLength_eq_probe (a : Automaton) (s : Session)
    (hle : s.cursor.offset ≤ s.cursor.source.bytes.size) :
    s.step (.matchLength a) =
      let (found, cursor) := a.probe s.cursor
      (.ofNumber? found, { s with cursor }) := by
  rw [probe_eq a hle]
  rfl

/-- The longest match is the greatest length of a text of the language that lies ahead. -/
lemma longestMatch_isLongest (a : Automaton) (src : Source) (p : Position) :
    IsLongest (fun n => ∃ w, w <+: src.remaining p ∧ w ∈ a.language ∧ w.length = n)
      (a.longestMatch src p) := by
  cases hroot : a.root with
  | none =>
    rw [longestMatch, hroot]
    rintro n ⟨w, -, hw, -⟩
    rw [language_eq_zero hroot] at hw
    exact Language.notMem_zero w hw
  | some root =>
    have h := (longestMatch_follows src p hroot).isLongest (by simp)
    refine h.of_dominated ?_ ?_
    · rintro n (hn | ⟨w, hw, rfl, id, hid, hacc⟩)
      · cases hn
      · rw [List.mem_singleton.mp hid] at hacc
        exact ⟨w, hw, (mem_language hroot).mpr hacc, by omega⟩
    · rintro n ⟨w, hw, hmem, rfl⟩
      exact ⟨w.length, le_rfl, .inr ⟨w, hw, by omega, root, List.mem_singleton_self root,
        (mem_language hroot).mp hmem⟩⟩

/-- On any graph the loops of the matcher end. They find the length of the longest text ahead that
has an accepting path, or nothing if there is no such text, and leave the cursor where it is. As a
pattern the automaton reads and keeps just that many bytes, or fails without moving. -/
theorem longestMatch_eq_longest_path (a : Automaton) (s : Session) :
    let ahead := s.cursor.remaining
    let found := a.longestMatch s.cursor.source s.cursor.position
    (∀ root, a.root = some root →
      a.Follows s.cursor.source s.cursor.offset 0 [root] none found) ∧
    (∀ n, found = some n ↔
      IsGreatest {k | ∃ w, w <+: ahead ∧ w ∈ a.language ∧ w.length = k} n) ∧
    (found = none ↔ ∀ w, w <+: ahead → w ∉ a.language) ∧
    s.step (.matchLength a) = (.ofNumber? found, s) ∧
    (∀ n, found = some n → n ≤ ahead.length ∧
      s.step (.parse (.automaton a)) = (.flag true, s.withScan (s.scan.keepAll (ahead.take n)))) ∧
    (found = none → s.step (.parse (.automaton a)) = (.flag false, s)) := by
  intro ahead found
  have hlongest := a.longestMatch_isLongest s.cursor.source s.cursor.position
  have hparse : s.step (.parse (.automaton a)) =
      let outcome := Pattern.readMatch s.cursor.source found s.scan
      (.flag outcome.isMatch, s.withScan outcome.scan) := rfl
  refine ⟨fun root hroot => longestMatch_follows _ _ hroot, hlongest.eq_some_iff, ?_, rfl, ?_, ?_⟩
  · refine hlongest.eq_none_iff.trans ⟨fun h w hw hmem => h w.length ⟨w, hw, hmem, rfl⟩, ?_⟩
    rintro h n ⟨w, hw, hmem, -⟩
    exact h w hw hmem
  · intro n hn
    obtain ⟨w, hw, -, rfl⟩ := ((hlongest.eq_some_iff n).mp hn).1
    have hle : w.length ≤ (s.cursor.source.remaining s.scan.position).length := hw.length_le
    refine ⟨hle, ?_⟩
    rw [hparse, hn]
    simp only [Pattern.readMatch, Scan.read_eq hle]
    rfl
  · intro hn
    rw [hparse, hn]
    rfl

end ByteLexer.Automaton
