import ByteLexer.Proofs.Alternatives
import Mathlib.Combinatorics.Pigeonhole

/-!
# Walks along the alternatives

Before a graph is put at the end of the alternatives of another, these are walked twice: once to see
whether another edge enters them, and then to find their end. Both walks stop after as many steps as
there are nodes, for the alternatives may go round in a circle. They never come to that. A node met
again has been entered twice, unless it is the first one, which no edge may enter, so the first walk
has stopped where the circle closes; and where it finds nothing there is no circle. Its answer is
then what it should be, and no path comes back to the alternatives once it has left them.
-/

namespace ByteLexer

/-- The two ways a node leads on. -/
inductive Way where
  | next
  | alt
deriving DecidableEq

/-- Where a node leads one way, if it does. -/
def Node.along (n : Node) : Way → Option Nat
  | .next => n.next
  | .alt => n.alt

namespace Automaton

/-- An edge of a graph: the node it comes from, the way it takes and the node it leads to. -/
structure Edge where
  source : Nat
  way : Way
  target : Nat

/-- The graph has the edge. -/
def Edge.In (e : Edge) (a : Automaton) : Prop :=
  ∃ n, a.nodes[e.source]? = some n ∧ n.along e.way = some e.target

/-- The node `k` steps along the alternatives from a node. -/
def alternative? (a : Automaton) (id : Nat) : Nat → Option Nat
  | 0 => some id
  | k + 1 => (a.alternative? id k).bind fun i => a.nodes[i]?.bind (·.alt)

/-- An edge leads to the node, or one leads to a later node on its chain of alternatives that is not
the edge the chain comes along. -/
def Entered (a : Automaton) (id : Nat) : Prop :=
  (∃ e : Edge, e.In a ∧ e.target = id) ∨
    ∃ k i j, a.alternative? id k = some i ∧ Edge.In ⟨i, .alt, j⟩ a ∧
      ∃ e : Edge, e.In a ∧ e.target = j ∧ e ≠ ⟨i, .alt, j⟩

/-- The walk that looks for an entered node, without a limit on its steps: at first it allows for
`allowed` edges to its node, and it comes to its answer after looking at so many nodes. -/
inductive Walks (a : Automaton) : (allowed : Nat) → Option Nat → (looks : Nat) → Bool → Prop where
  | off {allowed : Nat} : Walks a allowed none 0 false
  | entered {allowed id : Nat} (h : allowed < a.inDegree id) : Walks a allowed (some id) 1 true
  | on {allowed id looks : Nat} {answer : Bool} (h : a.inDegree id ≤ allowed)
      (rest : Walks a 1 (a.nodes[id]?.bind (·.alt)) looks answer) :
      Walks a allowed (some id) (looks + 1) answer

/-- Edges that lead one after the other from a node to a node. -/
inductive Path (a : Automaton) (first : Nat) : List Edge → Nat → Prop where
  | nil : Path a first [] first
  | snoc {edges : List Edge} {e : Edge} (h : Path a first edges e.source) (he : e.In a) :
      Path a first (edges ++ [e]) e.target

variable {a : Automaton} {node n : Node} {id i j k x allowed looks steps : Nat} {ids : List Nat}
  {next : Option Nat} {answer : Bool} {e : Edge}

lemma Edge.In.mem_edges (h : e.In a) : ∃ n, a.nodes[e.source]? = some n ∧ e.target ∈ n.edges := by
  obtain ⟨n, hn, hway⟩ := h
  refine ⟨n, hn, Automaton.mem_edges.mpr ?_⟩
  cases hkind : e.way with
  | next =>
    rw [hkind] at hway
    exact .inl hway
  | alt =>
    rw [hkind] at hway
    exact .inr hway

lemma exists_edge (hn : a.nodes[i]? = some n) (hj : j ∈ n.edges) :
    ∃ e : Edge, e.In a ∧ e.source = i ∧ e.target = j := by
  rcases Automaton.mem_edges.mp hj with h | h
  · exact ⟨⟨i, .next, j⟩, ⟨n, hn, h⟩, rfl, rfl⟩
  · exact ⟨⟨i, .alt, j⟩, ⟨n, hn, h⟩, rfl, rfl⟩

lemma inDegree_pos_iff : 0 < a.inDegree j ↔ ∃ e : Edge, e.In a ∧ e.target = j := by
  constructor
  · intro h
    obtain ⟨n, hn, hj⟩ := List.mem_flatMap.mp (List.count_pos_iff.mp h)
    obtain ⟨i, hi⟩ := List.getElem?_of_mem hn
    obtain ⟨e, he, -, htarget⟩ := exists_edge (by simpa using hi) hj
    exact ⟨e, he, htarget⟩
  · rintro ⟨e, he, rfl⟩
    obtain ⟨n, hn, hj⟩ := he.mem_edges
    exact inDegree_pos hn hj

lemma count_flatMap_le_one {l : List Node}
    (h : ∀ k n, l[k]? = some n → n.next ≠ some j ∧ (n.alt = some j → k = i)) :
    (l.flatMap Node.edges).count j ≤ 1 := by
  induction l generalizing i with
  | nil => exact Nat.zero_le 1
  | cons first l ih =>
    obtain ⟨hnext, halt⟩ := h 0 first rfl
    rw [List.flatMap_cons, List.count_append]
    cases i with
    | zero =>
      have hrest : (l.flatMap Node.edges).count j = 0 := by
        rw [List.count_eq_zero]
        intro hmem
        obtain ⟨n, hn, hj⟩ := List.mem_flatMap.mp hmem
        obtain ⟨k, hk⟩ := List.getElem?_of_mem hn
        obtain ⟨hnext, halt⟩ := h (k + 1) n hk
        rcases Automaton.mem_edges.mp hj with hj | hj
        · exact hnext hj
        · exact absurd (halt hj) (Nat.succ_ne_zero k)
      have hfirst : first.edges.count j ≤ 1 := by
        have hnone : first.next.toList.count j = 0 := by
          rw [List.count_eq_zero, Option.mem_toList]
          exact hnext
        have hone : first.alt.toList.length ≤ 1 := by
          cases first.alt <;> simp
        rw [Node.edges, List.count_append, hnone, Nat.zero_add]
        exact List.count_le_length.trans hone
      omega
    | succ i =>
      have hfirst : first.edges.count j = 0 := by
        rw [List.count_eq_zero]
        intro hj
        rcases Automaton.mem_edges.mp hj with hj | hj
        · exact hnext hj
        · exact absurd (halt hj) (Nat.succ_ne_zero i).symm
      have hrest := ih (i := i) fun k n hk => (h (k + 1) n hk).imp_right fun hi hj =>
        Nat.succ.inj (hi hj)
      omega

/-- If more than one edge leads to a node, one of them is not the edge at hand. -/
lemma exists_other_edge (h : 1 < a.inDegree j) (i : Nat) :
    ∃ e : Edge, e.In a ∧ e.target = j ∧ e ≠ ⟨i, .alt, j⟩ := by
  by_contra hnone
  push Not at hnone
  have hle : a.inDegree j ≤ 1 := by
    unfold inDegree
    apply count_flatMap_le_one (i := i)
    intro k n hk
    have hn : a.nodes[k]? = some n := by simpa using hk
    constructor
    · intro hnext
      have heq := hnone ⟨k, .next, j⟩ ⟨n, hn, hnext⟩ rfl
      cases heq
    · intro halt
      have heq := hnone ⟨k, .alt, j⟩ ⟨n, hn, halt⟩ rfl
      cases heq
      rfl
  omega

/-- The only edge to a node that is an alternative of another. -/
lemma Edge.In.eq_of_inDegree_le_one (he : e.In a) (hdeg : a.inDegree e.target ≤ 1)
    (hn : a.nodes[i]? = some node) (halt : node.alt = some e.target) : e = ⟨i, .alt, e.target⟩ := by
  obtain ⟨n, hsource, hway⟩ := he
  obtain ⟨hnext, hsame⟩ := edge_unique hdeg hn halt hsource
  obtain ⟨source, way, target⟩ := e
  cases way with
  | next => exact (hnext hway).elim
  | alt =>
    cases hsame hway
    rfl

lemma alternative?_succ' (a : Automaton) (id k : Nat) :
    a.alternative? id (k + 1) = (a.nodes[id]?.bind (·.alt)).bind fun j => a.alternative? j k := by
  induction k with
  | zero =>
    rw [alternative?, alternative?, Option.bind_some]
    cases a.nodes[id]?.bind (·.alt) <;> rfl
  | succ k ih =>
    rw [alternative?, ih, Option.bind_assoc]
    rfl

lemma alternative?_succ_eq_some : a.alternative? id (k + 1) = some j ↔
    ∃ i n, a.alternative? id k = some i ∧ a.nodes[i]? = some n ∧ n.alt = some j := by
  rw [alternative?, Option.bind_eq_some_iff]
  apply exists_congr
  intro i
  rw [Option.bind_eq_some_iff, exists_and_left]

lemma alternative?_lt (ha : a.Closed) (hid : id < a.size) (h : a.alternative? id k = some j) :
    j < a.size := by
  induction k generalizing j with
  | zero =>
    cases h
    exact hid
  | succ k ih =>
    obtain ⟨i, n, -, hn, hj⟩ := alternative?_succ_eq_some.mp h
    exact ha.alt_lt hn hj

lemma alternative?_ne_none_of_le (h : a.alternative? id j ≠ none) (hij : i ≤ j) :
    a.alternative? id i ≠ none := by
  induction hij with
  | refl => exact h
  | step _ ih =>
    apply ih
    intro hnone
    apply h
    rw [alternative?, hnone, Option.bind_none]

/-- The number of edges a walk allows for at each step, given that at the first one. -/
def allowance (allowed : Nat) : Nat → Nat
  | 0 => allowed
  | _ + 1 => 1

lemma allowance_one (k : Nat) : allowance 1 k = 1 := by
  cases k <;> rfl

/-- A node up to which nothing is entered is not met again. -/
lemma alternative?_ne_of_lt
    (h : ∀ l ≤ i, ∀ y, a.alternative? id l = some y → a.inDegree y ≤ allowance 0 l) (hij : i < j)
    (hi : a.alternative? id i = some x) : a.alternative? id j ≠ some x := by
  intro hj
  induction i generalizing j x with
  | zero =>
    obtain ⟨j, rfl⟩ := Nat.exists_eq_add_one_of_ne_zero (Nat.ne_of_gt hij)
    obtain ⟨p, n, -, hn, halt⟩ := alternative?_succ_eq_some.mp hj
    have hpos := inDegree_pos hn (Automaton.mem_edges.mpr (.inr halt))
    have hle := h 0 le_rfl x hi
    rw [allowance] at hle
    omega
  | succ i ih =>
    -- Both times the node is met it is the alternative of the same node, met one step earlier.
    obtain ⟨j, rfl⟩ := Nat.exists_eq_add_one_of_ne_zero (Nat.ne_zero_of_lt hij)
    obtain ⟨p, n, hp, hn, halt⟩ := alternative?_succ_eq_some.mp hi
    obtain ⟨q, m, hq, hm, halt'⟩ := alternative?_succ_eq_some.mp hj
    obtain rfl := (edge_unique (h (i + 1) le_rfl x hi) hn halt hm).2 halt'
    exact ih (fun l hl => h l (Nat.le_succ_of_le hl)) (Nat.lt_of_succ_lt_succ hij) hp hq

/-- A walk that finds nothing entered has ended after as many steps as there are nodes. -/
lemma alternative?_size_eq_none (ha : a.Closed) (hid : id < a.size)
    (h : ∀ l < a.size, ∀ y, a.alternative? id l = some y → a.inDegree y ≤ allowance 0 l) :
    a.alternative? id a.size = none := by
  by_contra hlast
  have hsome : ∀ k ∈ Finset.range (a.size + 1), ∃ y, a.alternative? id k = some y := by
    intro k hk
    rw [Finset.mem_range] at hk
    exact Option.ne_none_iff_exists'.mp
      (alternative?_ne_none_of_le hlast (Nat.le_of_lt_succ hk))
  have hmaps : ∀ k ∈ Finset.range (a.size + 1),
      (a.alternative? id k).getD 0 ∈ Finset.range a.size := by
    intro k hk
    obtain ⟨y, hy⟩ := hsome k hk
    rw [hy, Finset.mem_range]
    exact alternative?_lt ha hid hy
  -- There are more steps than nodes, so some node is met twice.
  obtain ⟨i, hi, j, hj, hne, heq⟩ :=
    Finset.exists_ne_map_eq_of_card_lt_of_maps_to (by simp) hmaps
  obtain ⟨x, hx⟩ := hsome i hi
  obtain ⟨y, hy⟩ := hsome j hj
  rw [hx, hy, Option.getD_some, Option.getD_some] at heq
  subst heq
  rw [Finset.mem_range] at hi hj
  rcases Nat.lt_or_gt_of_ne hne with hlt | hlt
  · exact alternative?_ne_of_lt (fun l hl => h l (by omega)) hlt hx hy
  · exact alternative?_ne_of_lt (fun l hl => h l (by omega)) hlt hy hx

/-- A walk of enough steps comes to the answer of the walk without a limit. -/
lemma Walks.sharedAfter_eq (h : a.Walks allowed next looks answer) (hsteps : looks ≤ steps) :
    a.sharedAfter allowed steps next = answer := by
  induction h generalizing steps with
  | off => cases steps <;> rfl
  | entered h =>
    obtain ⟨steps, rfl⟩ := Nat.exists_eq_add_one_of_ne_zero (Nat.ne_zero_of_lt hsteps)
    rw [sharedAfter, if_pos h]
  | on h _ ih =>
    obtain ⟨steps, rfl⟩ := Nat.exists_eq_add_one_of_ne_zero (Nat.ne_zero_of_lt hsteps)
    rw [sharedAfter, if_neg (Nat.not_lt.mpr h)]
    exact ih (Nat.le_of_succ_le_succ hsteps)

/-- Within so many looks the walk comes to an answer, or it has found nothing and goes on. -/
lemma walks_or_goes_on (a : Automaton) (allowed id count : Nat) :
    (∃ looks ≤ count, ∃ answer, a.Walks allowed (some id) looks answer) ∨
      a.alternative? id count ≠ none ∧ ∀ l < count, ∀ y, a.alternative? id l = some y →
        a.inDegree y ≤ allowance allowed l := by
  induction count generalizing allowed id with
  | zero => exact .inr ⟨Option.some_ne_none id, fun l hl => absurd hl (Nat.not_lt_zero l)⟩
  | succ count ih =>
    by_cases hdeg : allowed < a.inDegree id
    · exact .inl ⟨1, Nat.succ_le_succ (Nat.zero_le count), true, .entered hdeg⟩
    · rw [Nat.not_lt] at hdeg
      cases halt : a.nodes[id]?.bind (·.alt) with
      | none =>
        have hoff : a.Walks 1 (a.nodes[id]?.bind (·.alt)) 0 false := by
          rw [halt]
          exact .off
        exact .inl ⟨1, Nat.succ_le_succ (Nat.zero_le count), false, .on hdeg hoff⟩
      | some j =>
        have hshift : ∀ l, a.alternative? id (l + 1) = a.alternative? j l := by
          intro l
          rw [alternative?_succ', halt, Option.bind_some]
        rcases ih 1 j with ⟨looks, hlooks, answer, hwalk⟩ | ⟨hsome, hrest⟩
        · rw [← halt] at hwalk
          exact .inl ⟨looks + 1, Nat.succ_le_succ hlooks, answer, .on hdeg hwalk⟩
        · refine .inr ⟨hshift count ▸ hsome, ?_⟩
          intro l hl y hy
          cases l with
          | zero =>
            cases hy
            exact hdeg
          | succ l =>
            rw [hshift] at hy
            exact (hrest l (Nat.lt_of_succ_lt_succ hl) y hy).trans_eq (allowance_one l)

/-- In a closed graph the walk comes to its answer before it has looked at more nodes than there
are, so that the limit on its steps makes no difference. -/
lemma exists_walks (ha : a.Closed) (hid : id < a.size) :
    ∃ looks ≤ a.size, a.Walks 0 (some id) looks (a.isShared id) := by
  rcases a.walks_or_goes_on 0 id a.size with ⟨looks, hlooks, answer, hwalk⟩ | ⟨hsome, hrest⟩
  · have hanswer : a.isShared id = answer := hwalk.sharedAfter_eq (Nat.le_succ_of_le hlooks)
    rw [hanswer]
    exact ⟨looks, hlooks, hwalk⟩
  · exact (hsome (alternative?_size_eq_none ha hid hrest)).elim

lemma Walks.exists_entered (h : a.Walks allowed next looks answer) (hnext : next = some id)
    (hanswer : answer = true) :
    ∃ k x, a.alternative? id k = some x ∧ allowance allowed k < a.inDegree x := by
  induction h generalizing id with
  | off => cases hnext
  | entered h =>
    cases hnext
    exact ⟨0, _, rfl, h⟩
  | @on allowed id' looks answer hdeg rest ih =>
    cases hnext
    cases halt : a.nodes[id']?.bind (·.alt) with
    | none =>
      rw [halt] at rest
      cases rest
      cases hanswer
    | some j =>
      obtain ⟨k, x, hx, hlt⟩ := ih halt hanswer
      refine ⟨k + 1, x, ?_, ?_⟩
      · rw [alternative?_succ', halt, Option.bind_some]
        exact hx
      · rw [allowance_one] at hlt
        exact hlt

lemma entered_of_isShared (ha : a.Closed) (hid : id < a.size) (h : a.isShared id = true) :
    a.Entered id := by
  obtain ⟨looks, -, hwalk⟩ := exists_walks ha hid
  obtain ⟨k, x, hx, hlt⟩ := hwalk.exists_entered rfl h
  cases k with
  | zero =>
    cases hx
    exact .inl (inDegree_pos_iff.mp hlt)
  | succ k =>
    obtain ⟨i, n, hi, hn, halt⟩ := alternative?_succ_eq_some.mp hx
    exact .inr ⟨k, i, x, hi, ⟨n, hn, halt⟩, exists_other_edge hlt i⟩

/-- The alternatives from a node, each once, where no edge enters them but those between them. -/
structure OwnChain (a : Automaton) (id : Nat) (ids : List Nat) : Prop where
  chain : a.AltChain id ids
  first : a.inDegree id = 0
  later : ∀ j ∈ ids.tail, a.inDegree j ≤ 1

lemma exists_ownChain (h : a.isShared id = false) : ∃ ids, a.OwnChain id ids := by
  obtain ⟨ids, hchain, -, hfirst, hlater⟩ := chain_of_sharedAfter h
  exact ⟨ids, hchain, Nat.le_zero.mp hfirst, hlater⟩

lemma AltChain.getElem?_eq (h : a.AltChain id ids) (k : Nat) : ids[k]? = a.alternative? id k := by
  induction h generalizing k with
  | last halt =>
    cases k with
    | zero => rfl
    | succ k =>
      rw [alternative?_succ', halt, Option.bind_none]
      rfl
  | cons halt _ ih =>
    cases k with
    | zero => rfl
    | succ k =>
      rw [alternative?_succ', halt, Option.bind_some, List.getElem?_cons_succ]
      exact ih k

lemma OwnChain.inDegree_le (h : a.OwnChain id ids) (hx : a.alternative? id k = some x) :
    a.inDegree x ≤ allowance 0 k := by
  cases k with
  | zero =>
    cases hx
    exact h.first.le
  | succ k =>
    have hmem : x ∈ ids.tail := by
      apply List.mem_of_getElem? (i := k)
      rw [List.getElem?_tail, h.chain.getElem?_eq]
      exact hx
    exact h.later x hmem

lemma OwnChain.nodup (h : a.OwnChain id ids) : ids.Nodup := by
  rw [List.nodup_iff_getElem?_ne_getElem?]
  intro i j hij hj heq
  have hi := List.getElem?_eq_getElem (hij.trans hj)
  have hi' := h.chain.getElem?_eq i ▸ hi
  have hj' := h.chain.getElem?_eq j ▸ heq ▸ hi
  exact alternative?_ne_of_lt (fun l _ y hy => h.inDegree_le hy) hij hi' hj'

lemma OwnChain.length_le (h : a.OwnChain id ids) (ha : a.Closed) (hid : id < a.size) :
    ids.length ≤ a.size := by
  have hsubset : ids ⊆ List.range a.size := by
    intro x hx
    obtain ⟨k, hk⟩ := List.getElem?_of_mem hx
    rw [h.chain.getElem?_eq] at hk
    exact List.mem_range.mpr (alternative?_lt ha hid hk)
  have hle := (h.nodup.subperm hsubset).length_le
  rwa [List.length_range] at hle

lemma OwnChain.not_entered (h : a.OwnChain id ids) : ¬ a.Entered id := by
  rintro (hfirst | ⟨k, i, j, hi, ⟨n, hn, halt⟩, e, he, rfl, hne⟩)
  · have hpos := inDegree_pos_iff.mpr hfirst
    have hzero := h.first
    omega
  · have hj : a.alternative? id (k + 1) = some e.target :=
      alternative?_succ_eq_some.mpr ⟨i, n, hi, hn, halt⟩
    exact hne (he.eq_of_inDegree_le_one (h.inDegree_le hj) hn halt)

/-- Along the chain a node is followed by its alternative. -/
lemma AltChain.infix (h : a.AltChain id ids) (hi : i ∈ ids) (hn : a.nodes[i]? = some n)
    (halt : n.alt = some j) : [i, j] <:+: ids := by
  have hij : a.nodes[i]?.bind (·.alt) = some j := by
    rw [hn]
    exact halt
  induction h with
  | last hlast =>
    rw [List.mem_singleton.mp hi, hlast] at hij
    cases hij
  | cons hnext rest ih =>
    rcases List.mem_cons.mp hi with rfl | hi
    · obtain rfl := Option.some.inj (hnext.symm.trans hij)
      cases rest with
      | last _ => exact List.infix_rfl
      | cons _ _ => exact (List.prefix_append [_, _] _).isInfix
    · exact List.infix_cons (ih hi)

/-- A path that ends on the chain has come along it: there is no other edge to come to a node of the
chain, and none at all to the first. -/
lemma OwnChain.path_along (h : a.OwnChain id ids) {edges : List Edge} (hpath : a.Path id edges j)
    (hj : j ∈ ids) : ∀ e ∈ edges, e.way = .alt ∧ [e.source, e.target] <:+: ids := by
  induction hpath with
  | nil => simp
  | @snoc edges e hpath he ih =>
    have htail : e.target ∈ ids.tail := by
      rcases h.chain.eq_or_mem_tail hj with hfirst | htail
      · have hpos := inDegree_pos_iff.mpr ⟨e, he, hfirst⟩
        have hzero := h.first
        omega
      · exact htail
    obtain ⟨p, hp, n, hn, halt⟩ := h.chain.exists_pred htail
    have heq := he.eq_of_inDegree_le_one (h.later e.target htail) hn halt
    have hsource : e.source = p := congrArg Edge.source heq
    have hway : e.way = .alt := congrArg Edge.way heq
    intro f hf
    rcases List.mem_append.mp hf with hf | hf
    · exact ih (hsource ▸ hp) f hf
    · rw [List.mem_singleton.mp hf, hsource]
      exact ⟨hway, h.chain.infix hp hn halt⟩

/-- In a closed graph the alternatives from the root are found to be shared just when an edge leads
to the root, or to a later one of them and is not the edge the chain comes along. The limit on the
steps is never what decides that. If they are not shared there are finitely many, each once, the
walk to their end finds the last one, which has no alternative, before it comes to its limit, and a
path from the root that ends on one of them has taken no edges but those from one to the next. -/
theorem alternatives_walked_exactly (hclosed : a.validate = .ok ()) (hroot : a.root = some id) :
    (a.isShared id = true ↔ a.Entered id) ∧
    (∃ looks ≤ a.size, a.Walks 0 (some id) looks (a.isShared id)) ∧
    (a.isShared id = false → ∃ ids, a.AltChain id ids ∧ ids.Nodup ∧ ids.length ≤ a.size ∧
      (∃ last n, ids.getLast? = some last ∧ a.nodes[last]? = some n ∧ n.alt = none ∧
        ∀ steps ≥ a.size, a.lastAlternative steps id = last) ∧
      ∀ edges j, a.Path id edges j → j ∈ ids →
        ∀ e ∈ edges, e.way = .alt ∧ [e.source, e.target] <:+: ids) := by
  have ha := closed_of_validate hclosed
  have hid := ha.root_lt id hroot
  refine ⟨⟨entered_of_isShared ha hid, fun hentered => ?_⟩, exists_walks ha hid, fun h => ?_⟩
  · by_contra h
    rw [Bool.not_eq_true] at h
    obtain ⟨ids, hown⟩ := exists_ownChain h
    exact hown.not_entered hentered
  · obtain ⟨ids, hown⟩ := exists_ownChain h
    have hlen := hown.length_le ha hid
    obtain ⟨last, n, hlast, -, hn, hnone⟩ := hown.chain.exists_last ha hid
    refine ⟨ids, hown.chain, hown.nodup, hlen, ⟨last, n, hlast, hn, hnone, ?_⟩, ?_⟩
    · intro steps hsteps
      have hend := hown.chain.getLast?_eq steps (by omega)
      exact Option.some.inj (hend.symm.trans hlast)
    · intro edges j hpath hj
      exact hown.path_along hpath hj

/-- Three alternatives, of which the last leads to a node that leads back to itself, and the same
with an edge from there to the second of them. -/
theorem alternatives_walked_exactly_loop :
    let own : Automaton := ⟨#[⟨.single 97, false, some 3, some 2⟩, ⟨.single 98, true, none, none⟩,
      ⟨.single 99, false, none, some 1⟩, ⟨.single 100, true, some 3, none⟩], some 0⟩
    let entered : Automaton := ⟨own.nodes.push ⟨.single 101, true, some 2, none⟩, some 0⟩
    (own.validate = .ok () ∧ own.root = some 0 ∧ own.isShared 0 = false ∧
      (∃ ids, own.AltChain 0 ids ∧ ids.Nodup ∧ ids.length ≤ own.size ∧
        (∃ last n, ids.getLast? = some last ∧ own.nodes[last]? = some n ∧ n.alt = none ∧
          ∀ steps ≥ own.size, own.lastAlternative steps 0 = last) ∧
        ∀ edges j, own.Path 0 edges j → j ∈ ids →
          ∀ e ∈ edges, e.way = .alt ∧ [e.source, e.target] <:+: ids)) ∧
    entered.validate = .ok () ∧ entered.root = some 0 ∧ entered.Entered 0 := by
  intro own entered
  have hown : own.validate = .ok () := rfl
  have hentered : entered.validate = .ok () := rfl
  have hshared : own.isShared 0 = false := by decide
  exact ⟨⟨hown, rfl, hshared, (alternatives_walked_exactly hown rfl).2.2 hshared⟩, hentered, rfl,
    (alternatives_walked_exactly hentered rfl).1.mp (by decide)⟩

end Automaton

end ByteLexer
