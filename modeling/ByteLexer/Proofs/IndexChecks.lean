import ByteLexer.Proofs.LongestMatch
import ByteLexer.Proofs.Redirection

/-!
# Every look-up finds its node

A graph that leads out of itself is refused for its first fault. A graph that has been built never
does: the operations on graphs and the matcher are stated once more so that they fail where the
program would look up a node that is not there, or where it finds that a new graph is not closed,
and on graphs that have been built they never fail and come to the same.
-/

namespace ByteLexer

/-- An edge of the node leads to `target`, outside of `size` nodes: `next` if that leads out,
otherwise `alt`. -/
def Node.LeadsOut (node : Node) (size target : Nat) : Prop :=
  size ≤ target ∧ (node.next = some target ∨
    (∀ j, node.next = some j → j < size) ∧ node.alt = some target)

namespace Automaton

/-- What is wrong with a graph in the first place: the root if it lies outside, otherwise an edge of
the first node with one that leads out. -/
inductive FirstFault (nodes : Array Node) (root : Option Nat) : GraphError → Prop where
  | root {id : Nat} (hroot : root = some id) (hle : nodes.size ≤ id) :
      FirstFault nodes root (.danglingRoot id nodes.size)
  | edge {id target : Nat} {node : Node} (hroot : ∀ id, root = some id → id < nodes.size)
      (hnode : nodes[id]? = some node) (hout : node.LeadsOut nodes.size target)
      (hfirst : ∀ i < id, ∀ earlier, nodes[i]? = some earlier →
        ∀ j ∈ earlier.edges, j < nodes.size) :
      FirstFault nodes root (.danglingEdge id target nodes.size)

/-- The first node with an edge that leads out of the graph, and where that edge leads. -/
def firstOutside (nodes : Array Node) : Option (Nat × Nat) :=
  nodes.toList.zipIdx.findSome? fun (node, id) =>
    (node.edges.find? (nodes.size ≤ ·)).map fun target => (id, target)

-- Each of the following is the operation of the same name, with a check before every look-up of a
-- node and, where a new graph is made sure to be closed, with that check on the result.

/-- Fails unless there are nodes at all of `ids`. -/
def needs (a : Automaton) (ids : List Nat) : Option Unit := guard (∀ id ∈ ids, id < a.size)

/-- Fails unless the graph is found to be closed. -/
def checked (a : Automaton) : Option Automaton := if a.validate = .ok () then some a else none

def redirect? (target : Nat) (accept : Bool) (a : Automaton) (id : Nat) : Option Automaton := do
  a.needs [id]
  return redirect target accept a id

def redirectAll? (a : Automaton) (target : Nat) (accept : Bool) (ids : List Nat) :
    Option Automaton :=
  ids.foldlM (redirect? target accept) a

def append? (a b : Automaton) : Option Automaton :=
  match a.root, b.root with
  | some _, some entry => do
    let joined ← (a.absorb b).redirectAll? (entry + a.size) false a.acceptNodes
    joined.checked
  | _, _ => some empty

def optional? (a : Automaton) : Option Automaton :=
  match a.root with
  | some root => (a.pushRoot ⟨.epsilon, true, some root, none⟩).checked
  | none => some epsilon

def plus? (a : Automaton) : Option Automaton :=
  match a.root with
  | some root => do
    let looped ← a.redirectAll? root true a.acceptNodes
    looped.checked
  | none => some empty

def star? (a : Automaton) : Option Automaton := a.plus?.bind optional?

def replicate? (a : Automaton) : Nat → Option Automaton
  | 0 => some epsilon
  | n + 1 => Nat.repeat (fun b => b.bind (·.append? a)) n (some a)

def sharedAfter? (a : Automaton) (allowed : Nat) : Nat → Option Nat → Option Bool
  | _, none => some false
  | 0, some id => do
    a.needs [id]
    return true
  | steps + 1, some id => do
    a.needs [id]
    if allowed < a.inDegree id then some true
    else a.sharedAfter? 1 steps (a.nodes[id]?.bind (·.alt))

/-- All edges are counted first, each under the node it leads to. -/
def isShared? (a : Automaton) (id : Nat) : Option Bool := do
  a.needs (a.nodes.toList.flatMap Node.edges)
  a.sharedAfter? 0 (a.size + 1) (some id)

def lastAlternative? (a : Automaton) : Nat → Nat → Option Nat
  | 0, id => some id
  | steps + 1, id => do
    a.needs [id]
    match a.nodes[id]?.bind (·.alt) with
    | some alt => a.lastAlternative? steps alt
    | none => some id

def union? (a b : Automaton) : Option Automaton :=
  match a.root, b.root with
  | none, _ => some b
  | some _, none => some a
  | some first, some root => do
    let joined := a.absorb b
    let second := root + a.size
    if ← a.isShared? first then
      (joined.pushRoot ⟨.epsilon, false, some first, some second⟩).checked
    else
      let last ← joined.lastAlternative? (joined.size + 1) first
      joined.needs [last]
      (joined.setAlt last second).checked

def closureFrom? (a : Automaton) : Nat → List Nat → List Nat → Option (List Nat)
  | 0, _, seen => some seen
  | _ + 1, [], seen => some seen
  | steps + 1, id :: pending, seen => do
    a.needs [id]
    match a.nodes[id]? with
    | none => a.closureFrom? steps pending seen
    | some node =>
      if seen.contains id then a.closureFrom? steps pending seen
      else a.closureFrom? steps (inPlace node ++ pending) (id :: seen)

def closure? (a : Automaton) (ids : List Nat) : Option (List Nat) :=
  a.closureFrom? (ids.length + 2 * a.size) ids []

def longestFrom? (a : Automaton) (src : Source) (first : Nat) :
    (rounds read : Nat) → (frontier : List Nat) → (best : Option Nat) → Option (Option Nat)
  | 0, _, _, best => some best
  | rounds + 1, read, frontier, best => do
    let reached ← a.closure? frontier
    a.needs reached
    let best := a.bestInPlace reached read best
    match src.bytes[first + read]? with
    | none => some best
    | some byte =>
      let reading := a.readers reached byte
      let best := bestAfter reading read best
      match reading.filterMap (·.next) with
      | [] => some best
      | frontier => a.longestFrom? src first rounds (read + 1) frontier best

def longestMatch? (a : Automaton) (src : Source) (p : Position) : Option (Option Nat) :=
  match a.root with
  | none => some none
  | some root => a.longestFrom? src p.offset (src.bytes.size - p.offset + 1) 0 [root] none

variable {a b : Automaton} {nodes : Array Node} {node : Node} {root : Option Nat} {e : GraphError}
  {id j : Nat} {ids pending seen frontier : List Nat}

lemma findSome?_zipIdx_eq_some_iff {α β : Type} {l : List α} {f : α × Nat → Option β} {y : β} :
    l.zipIdx.findSome? f = some y ↔ ∃ i x, l[i]? = some x ∧ f (x, i) = some y ∧
      ∀ j < i, ∀ z, l[j]? = some z → f (z, j) = none := by
  rw [List.findSome?_eq_some_iff]
  constructor
  · rintro ⟨before, ⟨x, i⟩, after, heq, hf, hbefore⟩
    have hat : ∀ j : Nat, l[j]?.map (fun z => (z, j)) = (before ++ (x, i) :: after)[j]? := by
      intro j
      rw [← heq, List.getElem?_zipIdx, Nat.zero_add]
    have hmid := hat before.length
    rw [List.getElem?_append_right le_rfl, Nat.sub_self, List.getElem?_cons_zero,
      Option.map_eq_some_iff] at hmid
    obtain ⟨z, hz, heq⟩ := hmid
    cases heq
    refine ⟨before.length, x, hz, hf, fun j hj z hz => hbefore _ ?_⟩
    have hleft := hat j
    rw [hz, List.getElem?_append_left hj] at hleft
    exact List.mem_of_getElem? hleft.symm
  · rintro ⟨i, x, hx, hf, hbefore⟩
    obtain ⟨hi, rfl⟩ := List.getElem?_eq_some_iff.mp hx
    have hlen : i < l.zipIdx.length := by rwa [List.length_zipIdx]
    refine ⟨l.zipIdx.take i, (l[i], i), l.zipIdx.drop (i + 1), ?_, hf, ?_⟩
    · have hcons := List.getElem_cons_drop hlen
      rw [List.getElem_zipIdx, Nat.zero_add] at hcons
      rw [hcons, List.take_append_drop]
    · rintro ⟨z, j⟩ hmem
      obtain ⟨k, hk, heq⟩ := List.mem_take_iff_getElem.mp hmem
      rw [List.getElem_zipIdx, Nat.zero_add] at heq
      cases heq
      exact hbefore j (Nat.lt_min.mp hk).1 _ (List.getElem?_eq_getElem _)

/-- The edge that is found is the one that leads out. -/
lemma find?_edges_eq_some_iff (node : Node) (size target : Nat) :
    node.edges.find? (size ≤ ·) = some target ↔ node.LeadsOut size target := by
  have hone : ∀ edge : Option Nat, edge.toList.find? (size ≤ ·) = edge.filter (size ≤ ·) := by
    intro edge
    cases edge with
    | none => rfl
    | some j => simp [List.find?_singleton, Option.filter_some]
  rw [Node.edges, List.find?_append, hone, hone, Option.or_eq_some_iff, Option.filter_eq_some_iff,
    Option.filter_eq_none_iff, Option.filter_eq_some_iff, Node.LeadsOut]
  simp only [decide_eq_true_eq, not_le]
  tauto

/-- The first edge that leads out of the graph is one of the first node that has any. -/
lemma firstOutside_eq_some_iff (nodes : Array Node) (id target : Nat) :
    firstOutside nodes = some (id, target) ↔
      ∃ node, nodes[id]? = some node ∧ node.LeadsOut nodes.size target ∧
        ∀ i < id, ∀ earlier, nodes[i]? = some earlier → ∀ j ∈ earlier.edges, j < nodes.size := by
  rw [firstOutside, findSome?_zipIdx_eq_some_iff]
  simp only [Array.getElem?_toList, Option.map_eq_some_iff, Option.map_eq_none_iff,
    List.find?_eq_none, decide_eq_true_eq, not_le, find?_edges_eq_some_iff]
  constructor
  · rintro ⟨i, node, hnode, ⟨t, hout, heq⟩, hfirst⟩
    cases heq
    exact ⟨node, hnode, hout, hfirst⟩
  · rintro ⟨node, hnode, hout, hfirst⟩
    exact ⟨id, node, hnode, ⟨target, hout, rfl⟩, hfirst⟩

/-- If the root is one of the nodes, the first fault is the first edge that leads out. -/
lemma firstFault_iff (hin : ∀ id, root = some id → id < nodes.size) : FirstFault nodes root e ↔
    ∃ id target, firstOutside nodes = some (id, target) ∧
      e = .danglingEdge id target nodes.size := by
  constructor
  · intro h
    cases h with
    | root hroot hle =>
      have hlt := hin _ hroot
      omega
    | edge _ hnode hout hfirst =>
      exact ⟨_, _, (firstOutside_eq_some_iff nodes _ _).mpr ⟨_, hnode, hout, hfirst⟩, rfl⟩
  · rintro ⟨id, target, houtside, rfl⟩
    obtain ⟨node, hnode, hout, hfirst⟩ := (firstOutside_eq_some_iff nodes id target).mp houtside
    exact .edge hin hnode hout hfirst

lemma validate_eq_error_iff : validate ⟨nodes, root⟩ = .error e ↔ FirstFault nodes root e := by
  rw [validate]
  split
  · next id hroot =>
    obtain ⟨hroot, hle⟩ := Option.filter_eq_some_iff.mp hroot
    have hle : nodes.size ≤ id := of_decide_eq_true hle
    constructor
    · intro h
      cases h
      exact .root hroot hle
    · intro h
      cases h with
      | root hroot' _ =>
        cases hroot.symm.trans hroot'
        rfl
      | edge hin _ _ _ =>
        have hlt := hin id hroot
        omega
  · next hroot =>
    have hin : ∀ id, root = some id → id < nodes.size := by
      intro id hid
      have hsmall := Option.filter_eq_none_iff.mp hroot id hid
      exact Nat.lt_of_not_le fun hle => hsmall (decide_eq_true hle)
    rw [firstFault_iff hin]
    dsimp only
    split
    · next id target houtside =>
      have houtside : firstOutside nodes = some (id, target) := houtside
      rw [houtside]
      constructor
      · intro h
        cases h
        exact ⟨id, target, rfl, rfl⟩
      · rintro ⟨_, _, h, rfl⟩
        cases h
        rfl
    · next houtside =>
      have houtside : firstOutside nodes = none := houtside
      rw [houtside]
      constructor
      · intro h
        cases h
      · rintro ⟨_, _, h, -⟩
        cases h

lemma ofNodes_eq_error_iff : ofNodes nodes root = .error e ↔ FirstFault nodes root e := by
  rw [← validate_eq_error_iff, ofNodes]
  cases validate ⟨nodes, root⟩ with
  | error e' =>
    constructor
    · intro h
      cases h
      rfl
    · intro h
      cases h
      rfl
  | ok u =>
    constructor
    · intro h
      cases h
    · intro h
      cases h

lemma needs_of_lt (h : ∀ id ∈ ids, id < a.size) : a.needs ids = some () := by
  rw [needs, guard, if_pos h]
  rfl

lemma needs_singleton (h : id < a.size) : a.needs [id] = some () :=
  needs_of_lt (List.forall_mem_singleton.mpr h)

lemma checked_of_closed (h : a.Closed) : a.checked = some a := by
  rw [checked, if_pos (validate_of_closed h)]

lemma redirectAll?_eq (target : Nat) (accept : Bool) (h : ∀ id ∈ ids, id < a.size) :
    a.redirectAll? target accept ids = some (a.redirectAll target accept ids) := by
  unfold redirectAll? redirectAll
  induction ids generalizing a with
  | nil => rfl
  | cons id ids ih =>
    obtain ⟨hid, hids⟩ := List.forall_mem_cons.mp h
    have hrest : ∀ j ∈ ids, j < (redirect target accept a id).size :=
      fun j hj => (hids j hj).trans_le (size_le_redirect a target accept id)
    rw [List.foldlM_cons, redirect?, needs_singleton hid, List.foldl_cons]
    exact ih hrest

lemma append?_eq (ha : a.Closed) (hb : b.Closed) : a.append? b = some (a ++ b) := by
  have hclosed : (append a b).Closed := ha.append hb
  have hids : ∀ id ∈ a.acceptNodes, id < (a.absorb b).size := by
    intro id hid
    have hlt := lt_of_mem_acceptNodes hid
    rw [size_absorb]
    omega
  change a.append? b = some (append a b)
  revert hclosed
  unfold append? append
  cases a.root with
  | none => exact fun _ => rfl
  | some start =>
    cases b.root with
    | none => exact fun _ => rfl
    | some entry =>
      intro hclosed
      dsimp only
      rw [redirectAll?_eq _ _ hids]
      exact checked_of_closed hclosed

lemma optional?_eq (ha : a.Closed) : a.optional? = some a.optional := by
  have hclosed := ha.optional
  revert hclosed
  unfold optional? optional
  cases a.root with
  | none => exact fun _ => rfl
  | some root => exact checked_of_closed

lemma plus?_eq (ha : a.Closed) : a.plus? = some a.plus := by
  have hclosed := ha.plus
  revert hclosed
  unfold plus? plus
  cases a.root with
  | none => exact fun _ => rfl
  | some root =>
    intro hclosed
    dsimp only
    rw [redirectAll?_eq _ _ fun id => lt_of_mem_acceptNodes]
    exact checked_of_closed hclosed

lemma star?_eq (ha : a.Closed) : a.star? = some a.star := by
  rw [star?, plus?_eq ha]
  exact optional?_eq ha.plus

lemma replicate?_eq (ha : a.Closed) (n : Nat) : a.replicate? n = some (a.replicate n) := by
  cases n with
  | zero => rfl
  | succ n =>
    induction n with
    | zero => rfl
    | succ n ih =>
      have hstep : a.replicate? (n + 2) = (a.replicate? (n + 1)).bind (·.append? a) := rfl
      rw [hstep, ih]
      exact append?_eq (ha.replicate (n + 1)) ha

lemma lt_of_bind_alt (ha : a.Closed) (h : a.nodes[id]?.bind (·.alt) = some j) : j < a.size := by
  obtain ⟨node, hn, halt⟩ := Option.bind_eq_some_iff.mp h
  exact ha.alt_lt hn halt

lemma sharedAfter?_eq (ha : a.Closed) (allowed steps : Nat) (next : Option Nat)
    (h : ∀ id, next = some id → id < a.size) :
    a.sharedAfter? allowed steps next = some (a.sharedAfter allowed steps next) := by
  induction steps generalizing allowed next with
  | zero =>
    cases next with
    | none => rfl
    | some id =>
      rw [sharedAfter?, needs_singleton (h id rfl)]
      rfl
  | succ steps ih =>
    cases next with
    | none => rfl
    | some id =>
      have hrest := ih 1 (a.nodes[id]?.bind (·.alt)) fun j => lt_of_bind_alt ha
      rw [sharedAfter?, sharedAfter, needs_singleton (h id rfl)]
      by_cases hmore : allowed < a.inDegree id
      · rw [if_pos hmore, if_pos hmore]
        rfl
      · rw [if_neg hmore, if_neg hmore]
        exact hrest

lemma isShared?_eq (ha : a.Closed) (hid : id < a.size) : a.isShared? id = some (a.isShared id) := by
  have hedges : ∀ j ∈ a.nodes.toList.flatMap Node.edges, j < a.size := by
    intro j hj
    obtain ⟨node, hnode, hj⟩ := List.mem_flatMap.mp hj
    exact ha.edge_lt node (Array.mem_toList_iff.mp hnode) j hj
  rw [isShared?, needs_of_lt hedges]
  refine sharedAfter?_eq ha 0 _ (some id) fun j hj => ?_
  cases hj
  exact hid

/-- A walk along the alternatives finds all its nodes and ends at one. -/
lemma lastAlternative?_eq (ha : a.Closed) (steps : Nat) (hid : id < a.size) :
    a.lastAlternative? steps id = some (a.lastAlternative steps id) ∧
      a.lastAlternative steps id < a.size := by
  induction steps generalizing id with
  | zero => exact ⟨rfl, hid⟩
  | succ steps ih =>
    rw [lastAlternative?, lastAlternative, needs_singleton hid]
    cases halt : a.nodes[id]?.bind (·.alt) with
    | none => exact ⟨rfl, hid⟩
    | some alt => exact ih (lt_of_bind_alt ha halt)

lemma union?_eq (ha : a.Closed) (hb : b.Closed) : a.union? b = some (a ∪ b) := by
  have hclosed : (union a b).Closed := ha.union hb
  change a.union? b = some (union a b)
  revert hclosed
  unfold union? union
  cases hfirst : a.root with
  | none => exact fun _ => rfl
  | some first =>
    cases b.root with
    | none => exact fun _ => rfl
    | some root =>
      have hlt := ha.root_lt first hfirst
      have hjoined : first < (a.absorb b).size := by
        rw [size_absorb]
        omega
      obtain ⟨hlast, hin⟩ := lastAlternative?_eq (ha.absorb hb) ((a.absorb b).size + 1) hjoined
      dsimp only
      rw [isShared?_eq ha hlt, hlast]
      cases a.isShared first with
      | true => exact checked_of_closed
      | false =>
        intro hclosed
        change (do (a.absorb b).needs [_]; checked _) = _
        rw [needs_singleton hin]
        exact checked_of_closed hclosed

lemma edge_of_inPlace (h : j ∈ inPlace node) : j ∈ node.edges := by
  unfold inPlace at h
  rw [mem_edges]
  rcases List.mem_append.mp h with h | h
  · exact .inr (Option.mem_toList.mp h)
  · split at h
    · exact .inl (Option.mem_toList.mp h)
    · cases h

lemma closureFrom?_eq (ha : a.Closed) (steps : Nat) (h : ∀ id ∈ pending, id < a.size) :
    a.closureFrom? steps pending seen = some (a.closureFrom steps pending seen) := by
  induction steps generalizing pending seen with
  | zero => rfl
  | succ steps ih =>
    cases pending with
    | nil => rfl
    | cons id pending =>
      obtain ⟨hid, hpending⟩ := List.forall_mem_cons.mp h
      obtain ⟨node, hn⟩ := exists_node hid
      have hmore : ∀ j ∈ inPlace node ++ pending, j < a.size := by
        intro j hj
        rcases List.mem_append.mp hj with hj | hj
        · exact ha.edge_lt node (Array.mem_of_getElem? hn) j (edge_of_inPlace hj)
        · exact hpending j hj
      rw [closureFrom?, closureFrom, needs_singleton hid, hn]
      dsimp only
      by_cases hseen : seen.contains id = true
      · rw [if_pos hseen, if_pos hseen]
        exact ih hpending
      · rw [if_neg hseen, if_neg hseen]
        exact ih hmore

lemma longestFrom?_eq (ha : a.Closed) (src : Source) (first rounds read : Nat) (best : Option Nat)
    (h : ∀ id ∈ frontier, id < a.size) :
    a.longestFrom? src first rounds read frontier best =
      some (a.longestFrom src first rounds read frontier best) := by
  induction rounds generalizing read frontier best with
  | zero => rfl
  | succ rounds ih =>
    have hreached : ∀ id ∈ a.closure frontier, id < a.size :=
      fun id hid => ((a.closure_gathers frontier).mem_iff.mp hid).1
    have hclosure : a.closure? frontier = some (a.closure frontier) := closureFrom?_eq ha _ h
    rw [longestFrom?, longestFrom]
    simp only [hclosure, needs_of_lt hreached, Option.bind_eq_bind, Option.bind_some]
    cases src.bytes[first + read]? with
    | none => rfl
    | some byte =>
      have hnext : ∀ j ∈ (a.readers (a.closure frontier) byte).filterMap (·.next), j < a.size := by
        intro j hj
        obtain ⟨node, hnode, hj⟩ := List.mem_filterMap.mp hj
        obtain ⟨id, -, hn, -, -⟩ := mem_readers.mp hnode
        exact ha.next_lt hn hj
      dsimp only
      cases hread : (a.readers (a.closure frontier) byte).filterMap (·.next) with
      | nil => rfl
      | cons id ids =>
        rw [hread] at hnext
        exact ih _ _ hnext

lemma longestMatch?_eq (ha : a.Closed) (src : Source) (p : Position) :
    a.longestMatch? src p = some (a.longestMatch src p) := by
  unfold longestMatch? longestMatch
  cases hroot : a.root with
  | none => rfl
  | some root =>
    exact longestFrom?_eq ha src _ _ _ _ (List.forall_mem_singleton.mpr (ha.root_lt root hroot))

/-- A graph is taken if and only if it is closed, and otherwise its first fault is the error. All
automata that can be built are closed; to check this, and that there is a node wherever one is
looked up, changes nothing about what is built from them and what they match. -/
theorem buildable_passes_checks :
    (∀ nodes root,
      (∀ a, ofNodes nodes root = .ok a ↔ a = ⟨nodes, root⟩ ∧ a.Closed) ∧
      ∀ e, ofNodes nodes root = .error e ↔ FirstFault nodes root e) ∧
    ∀ a, Buildable a → a.validate = .ok () ∧
      a.optional? = some a.optional ∧ a.plus? = some a.plus ∧ a.star? = some a.star ∧
      (∀ n, a.replicate? n = some (a.replicate n)) ∧
      (∀ src p, a.longestMatch? src p = some (a.longestMatch src p)) ∧
      ∀ b, Buildable b → a.append? b = some (a ++ b) ∧ a.union? b = some (a ∪ b) := by
  refine ⟨fun nodes root => ⟨fun a => ofNodes_eq_ok_iff, fun e => ofNodes_eq_error_iff⟩,
    fun a ha => ?_⟩
  have ha := ha.closed
  refine ⟨validate_of_closed ha, optional?_eq ha, plus?_eq ha, star?_eq ha, replicate?_eq ha,
    longestMatch?_eq ha, fun b hb => ?_⟩
  exact ⟨append?_eq ha hb.closed, union?_eq ha hb.closed⟩

/-- A graph with three edges that lead out of it, one whose alternatives run in a circle, and one
that was not built, on which the checks fail. -/
theorem buildable_passes_checks_circle :
    let a : Node := ⟨.single 97, true, some 0, some 1⟩
    let b : Node := ⟨.single 98, false, some 1, some 0⟩
    let faulty := #[a, ⟨.single 98, false, some 5, some 4⟩, ⟨.single 99, true, none, some 3⟩]
    let circle : Automaton := ⟨#[a, b], some 0⟩
    let loose : Automaton := ⟨#[⟨.single 97, true, some 0, some 9⟩], some 0⟩
    let src := Source.ofBytes (Text.Utf8.encode "aab").toArray
    ofNodes faulty (some 2) = .error (.danglingEdge 1 5 3) ∧
    FirstFault faulty (some 2) (.danglingEdge 1 5 3) ∧
    (Buildable circle ∧ Buildable (ofString "b")) ∧
    circle.union? (ofString "b") = some (circle ∪ ofString "b") ∧
    circle.plus? = some circle.plus ∧
    circle.longestMatch? src .start = some (circle.longestMatch src .start) ∧
    circle.longestMatch src .start = some 2 ∧
    loose.union? circle = none ∧ loose.plus? = none ∧ loose.longestMatch? src .start = none := by
  intro a b faulty circle loose src
  obtain ⟨hnodes, hbuilt⟩ := buildable_passes_checks
  have hfault : ofNodes faulty (some 2) = .error (.danglingEdge 1 5 3) := by decide
  have hok : ofNodes #[a, b] (some 0) = .ok circle := by decide
  have hcircle : Buildable circle := .ofNodes hok
  obtain ⟨-, -, hplus, -, -, hmatch, hpair⟩ := hbuilt circle hcircle
  refine ⟨hfault, ((hnodes faulty (some 2)).2 _).mp hfault, ⟨hcircle, .ofString "b"⟩,
    (hpair _ (.ofString "b")).2, hplus, hmatch src .start, ?_⟩
  decide

end Automaton

end ByteLexer
