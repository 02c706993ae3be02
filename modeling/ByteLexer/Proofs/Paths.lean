import ByteLexer.Automaton.Algebra
import Mathlib.Computability.Language

/-!
# Paths through an automaton

A path goes along `alt` in place and along `next` after what its node reads. The texts read on the
paths that end right after an accepting node are the language of an automaton. This file defines
both for arbitrary graphs, and shows that a graph keeps its paths when it stands inside a larger one
with its nodes moved up.
-/

namespace ByteLexer

/-- What is read in passing a node: nothing if its class stands for that, else a byte of it. -/
def Node.Reads (node : Node) (u : List UInt8) : Prop :=
  if node.label.isEpsilon then u = [] else ∃ byte, node.label.contains byte = true ∧ u = [byte]

lemma Node.Reads.of_label_eq {node n : Node} {u : List UInt8} (hu : n.Reads u)
    (h : n.label = node.label) : node.Reads u := by
  rwa [Reads, h] at hu

namespace Automaton

/-- `a.Accepts id w` says that a path from the node `id` reads `w` and ends right after an accepting
node. -/
inductive Accepts (a : Automaton) : Nat → List UInt8 → Prop where
  | alt {id j : Nat} {node : Node} {w : List UInt8} (hn : a.nodes[id]? = some node)
      (hj : node.alt = some j) (h : Accepts a j w) : Accepts a id w
  | next {id j : Nat} {node : Node} {u w : List UInt8} (hn : a.nodes[id]? = some node)
      (hu : node.Reads u) (hj : node.next = some j) (h : Accepts a j w) : Accepts a id (u ++ w)
  | stop {id : Nat} {node : Node} {u : List UInt8} (hn : a.nodes[id]? = some node)
      (hu : node.Reads u) (ha : node.accept = true) : Accepts a id u

/-- The texts read on the accepting paths from the root; there are none without a root. -/
def language (a : Automaton) : Language UInt8 := {w | ∃ root, a.root = some root ∧ a.Accepts root w}

/-- No edge and no root leads out of the graph. -/
structure Closed (a : Automaton) : Prop where
  edge_lt : ∀ node ∈ a.nodes, ∀ j ∈ node.edges, j < a.size
  root_lt : ∀ root, a.root = some root → root < a.size

/-- The graph of `b` stands in that of `a` with its nodes moved up by `k`. -/
def Embeds (b a : Automaton) (k : Nat) : Prop :=
  ∀ id node, b.nodes[id]? = some node → a.nodes[id + k]? = some (node.shift k)

variable {a b : Automaton} {id j k root : Nat} {node : Node} {u v w : List UInt8}

lemma mem_language (h : a.root = some root) : w ∈ a.language ↔ a.Accepts root w := by
  constructor
  · rintro ⟨root', h', hw⟩
    rw [h] at h'
    cases h'
    exact hw
  · exact fun hw => ⟨root, h, hw⟩

lemma language_eq_zero (h : a.root = none) : a.language = 0 := by
  ext w
  constructor
  · rintro ⟨root, h', -⟩
    rw [h] at h'
    cases h'
  · exact fun hw => (Language.notMem_zero w hw).elim

lemma lt_of_getElem? (h : a.nodes[id]? = some node) : id < a.size :=
  (Array.getElem?_eq_some_iff.mp h).1

lemma exists_node (h : id < a.size) : ∃ node, a.nodes[id]? = some node :=
  ⟨a.nodes[id], Array.getElem?_eq_getElem h⟩

lemma Accepts.lt (h : a.Accepts id w) : id < a.size := by
  cases h with
  | alt hn _ _ => exact lt_of_getElem? hn
  | next hn _ _ _ => exact lt_of_getElem? hn
  | stop hn _ _ => exact lt_of_getElem? hn

/-- One step of a path: along `alt`, or past the node and then on or to the end. -/
lemma accepts_iff (hn : a.nodes[id]? = some node) :
    a.Accepts id w ↔ (∃ j, node.alt = some j ∧ a.Accepts j w) ∨
      ∃ u v, w = u ++ v ∧ node.Reads u ∧
        ((node.accept = true ∧ v = []) ∨ ∃ j, node.next = some j ∧ a.Accepts j v) := by
  constructor
  · intro h
    cases h with
    | alt hn' hj h =>
      cases hn.symm.trans hn'
      exact .inl ⟨_, hj, h⟩
    | @next _ j _ u v hn' hu hj h =>
      cases hn.symm.trans hn'
      exact .inr ⟨u, v, rfl, hu, .inr ⟨j, hj, h⟩⟩
    | stop hn' hu ha =>
      cases hn.symm.trans hn'
      exact .inr ⟨w, [], by simp, hu, .inl ⟨ha, rfl⟩⟩
  · rintro (⟨j, hj, h⟩ | ⟨u, v, rfl, hu, ⟨ha, rfl⟩ | ⟨j, hj, h⟩⟩)
    · exact .alt hn hj h
    · rw [List.append_nil]
      exact .stop hn hu ha
    · exact .next hn hu hj h

/-- A node whose class stands for reading nothing passes on what its two edges lead to. -/
lemma accepts_epsilon_iff (hn : a.nodes[id]? = some node) (he : node.label.isEpsilon = true) :
    a.Accepts id w ↔ (∃ j, node.alt = some j ∧ a.Accepts j w) ∨ (node.accept = true ∧ w = []) ∨
      ∃ j, node.next = some j ∧ a.Accepts j w := by
  simp [accepts_iff hn, Node.Reads, he]

namespace Closed

lemma alt_lt (h : a.Closed) (hn : a.nodes[id]? = some node) (hj : node.alt = some j) :
    j < a.size :=
  h.edge_lt node (Array.mem_of_getElem? hn) j (by simp [Node.edges, hj])

lemma next_lt (h : a.Closed) (hn : a.nodes[id]? = some node) (hj : node.next = some j) :
    j < a.size :=
  h.edge_lt node (Array.mem_of_getElem? hn) j (by simp [Node.edges, hj])

end Closed

@[simp] lemma shift_zero (node : Node) : node.shift 0 = node := by
  simp [Node.shift]

lemma Embeds.getElem? (h : b.Embeds a 0) (hn : b.nodes[id]? = some node) :
    a.nodes[id]? = some node := by
  simpa using h id node hn

lemma Embeds.accepts (h : b.Embeds a k) (hw : b.Accepts id w) : a.Accepts (id + k) w := by
  induction hw with
  | alt hn hj _ ih => exact .alt (h _ _ hn) (by simp [Node.shift, hj]) ih
  | next hn hu hj _ ih => exact .next (h _ _ hn) hu (by simp [Node.shift, hj]) ih
  | stop hn hu ha => exact .stop (h _ _ hn) hu ha

/-- A path that starts in an embedded closed graph stays in it. -/
lemma Embeds.accepts_iff (h : b.Embeds a k) (hb : b.Closed) (hid : id < b.size) :
    a.Accepts (id + k) w ↔ b.Accepts id w := by
  refine ⟨fun hw => ?_, h.accepts⟩
  generalize hi : id + k = i at hw
  induction hw generalizing id with
  | alt hn hj _ ih =>
    obtain ⟨node, hnode⟩ := exists_node hid
    cases ((hi ▸ h id node hnode).symm.trans hn)
    obtain ⟨j, hj', rfl⟩ := Option.map_eq_some_iff.mp hj
    exact .alt hnode hj' (ih (hb.alt_lt hnode hj') rfl)
  | next hn hu hj _ ih =>
    obtain ⟨node, hnode⟩ := exists_node hid
    cases ((hi ▸ h id node hnode).symm.trans hn)
    obtain ⟨j, hj', rfl⟩ := Option.map_eq_some_iff.mp hj
    exact .next hnode hu hj' (ih (hb.next_lt hnode hj') rfl)
  | stop hn hu ha =>
    obtain ⟨node, hnode⟩ := exists_node hid
    cases ((hi ▸ h id node hnode).symm.trans hn)
    exact .stop hnode hu ha

end Automaton

end ByteLexer
