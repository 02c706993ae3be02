import ByteLexer.Proofs.RegularOperations

/-!
# Alternatives at the root

The union puts the second graph at the end of the alternatives the first one starts from, if no
other edge enters them. Counting the edges that lead to each alternative decides that: then no path
comes back to them once it has left, so the second graph is an alternative at the start only. In all
other cases a new root leads to both graphs. Either way the language is the sum.
-/

namespace ByteLexer.Automaton

open scoped Computability

variable {a b g : Automaton} {node n : Node} {id i j k first last second : Nat} {ids : List Nat}
  {w : List UInt8}

/-- `ids` are the alternatives from `id` on, up to one that has none. -/
inductive AltChain (a : Automaton) : Nat → List Nat → Prop where
  | last {id : Nat} (h : a.nodes[id]?.bind (·.alt) = none) : AltChain a id [id]
  | cons {id j : Nat} {ids : List Nat} (h : a.nodes[id]?.bind (·.alt) = some j)
      (rest : AltChain a j ids) : AltChain a id (id :: ids)

/-- Only the nodes of `ids` lead to nodes of `ids`, and only as alternatives. -/
structure Private (a : Automaton) (ids : List Nat) : Prop where
  next_notMem : ∀ (i : Nat) (n : Node) (j : Nat),
    a.nodes[i]? = some n → n.next = some j → j ∉ ids
  alt_mem : ∀ (i : Nat) (n : Node) (j : Nat),
    a.nodes[i]? = some n → n.alt = some j → j ∈ ids → i ∈ ids

lemma count_le_count_flatMap {l : List Node} (h : node ∈ l) :
    node.edges.count k ≤ (l.flatMap Node.edges).count k := by
  rw [List.flatMap_def]
  exact (List.sublist_flatten_of_mem (List.mem_map_of_mem h)).count_le k

lemma count_add_count_le {l : List Node} (hi : l[i]? = some node) (hj : l[j]? = some n)
    (h : i ≠ j) : node.edges.count k + n.edges.count k ≤ (l.flatMap Node.edges).count k := by
  induction l generalizing i j with
  | nil => simp at hi
  | cons x l ih =>
    rw [List.flatMap_cons, List.count_append]
    cases i with
    | zero =>
      cases j with
      | zero => exact (h rfl).elim
      | succ j =>
        cases hi
        have hmem : n ∈ l := List.mem_of_getElem? (i := j) (by simpa using hj)
        exact Nat.add_le_add_left (count_le_count_flatMap hmem) _
    | succ i =>
      cases j with
      | zero =>
        cases hj
        have hmem : node ∈ l := List.mem_of_getElem? (i := i) (by simpa using hi)
        rw [Nat.add_comm]
        exact Nat.add_le_add_left (count_le_count_flatMap hmem) _
      | succ j => exact (ih hi hj (by omega)).trans (Nat.le_add_left _ _)

lemma count_edges_pos (h : j ∈ node.edges) : 0 < node.edges.count j := List.count_pos_iff.mpr h

lemma inDegree_pos (hn : a.nodes[i]? = some node) (hj : j ∈ node.edges) : 0 < a.inDegree j :=
  (count_edges_pos hj).trans_le
    (count_le_count_flatMap (Array.mem_toList_iff.mpr (Array.mem_of_getElem? hn)))

/-- A node that only one edge leads to is entered along that edge alone. -/
lemma edge_unique (hdeg : a.inDegree j ≤ 1) (hn : a.nodes[i]? = some node) (hj : node.alt = some j)
    (hk : a.nodes[k]? = some n) : n.next ≠ some j ∧ (n.alt = some j → k = i) := by
  have hi : a.nodes.toList[i]? = some node := by simpa using hn
  have hk' : a.nodes.toList[k]? = some n := by simpa using hk
  have hpos := count_edges_pos (mem_edges.mpr (.inr hj))
  have hne : ∀ h : j ∈ n.edges, k = i := by
    intro h
    by_contra hki
    have hle := count_add_count_le (k := j) hi hk' (Ne.symm hki)
    have hpos' := count_edges_pos h
    unfold inDegree at hdeg
    omega
  refine ⟨fun hnext => ?_, fun halt => hne (mem_edges.mpr (.inr halt))⟩
  have hki := hne (mem_edges.mpr (.inl hnext))
  subst hki
  cases hk.symm.trans hn
  have htwo : node.edges.count j = 2 := by simp [Node.edges, hnext, hj]
  have hle := count_le_count_flatMap (k := j) (List.mem_of_getElem? hi)
  unfold inDegree at hdeg
  omega

lemma chain_of_sharedAfter {allowed steps : Nat}
    (h : a.sharedAfter allowed steps (some id) = false) :
    ∃ ids, a.AltChain id ids ∧ ids.length ≤ steps ∧ a.inDegree id ≤ allowed ∧
      ∀ j ∈ ids.tail, a.inDegree j ≤ 1 := by
  induction steps generalizing id allowed with
  | zero => simp [sharedAfter] at h
  | succ steps ih =>
    rw [sharedAfter] at h
    split at h
    · cases h
    · next hdeg =>
      cases halt : a.nodes[id]?.bind (·.alt) with
      | none => exact ⟨[id], .last halt, by simp, by omega, by simp⟩
      | some j =>
        -- The walk goes on with one edge allowed, the one it comes along.
        rw [halt] at h
        obtain ⟨ids, hchain, hlen, hj, htail⟩ := ih h
        refine ⟨id :: ids, .cons halt hchain, by simpa using hlen, by omega, ?_⟩
        cases hchain with
        | last _ => simpa using hj
        | cons _ _ => simpa using ⟨hj, by simpa using htail⟩

lemma AltChain.head_mem (h : a.AltChain id ids) : id ∈ ids := by
  cases h <;> simp

lemma AltChain.exists_pred (h : a.AltChain id ids) (hj : j ∈ ids.tail) :
    ∃ i ∈ ids, ∃ node, a.nodes[i]? = some node ∧ node.alt = some j := by
  induction h with
  | last _ => simp at hj
  | @cons id k ids halt rest ih =>
    rw [List.tail_cons] at hj
    obtain ⟨node, hn, hk⟩ := Option.bind_eq_some_iff.mp halt
    cases rest with
    | last _ =>
      rw [List.mem_singleton.mp hj]
      exact ⟨id, List.mem_cons_self, node, hn, hk⟩
    | cons _ _ =>
      rcases List.mem_cons.mp hj with rfl | hj
      · exact ⟨id, List.mem_cons_self, node, hn, hk⟩
      · obtain ⟨i, hi, hpred⟩ := ih hj
        exact ⟨i, List.mem_cons_of_mem id hi, hpred⟩

lemma AltChain.eq_or_mem_tail (h : a.AltChain id ids) (hj : j ∈ ids) : j = id ∨ j ∈ ids.tail := by
  cases h with
  | last _ => exact .inl (List.mem_singleton.mp hj)
  | cons _ _ => exact List.mem_cons.mp hj

/-- A chain that is not shared can be entered at its first node only, and that before any step. -/
lemma private_of_inDegree (h : a.AltChain id ids) (hid : a.inDegree id = 0)
    (htail : ∀ j ∈ ids.tail, a.inDegree j ≤ 1) : a.Private ids := by
  have hfirst : ∀ (i : Nat) (n : Node), a.nodes[i]? = some n → id ∉ n.edges := by
    intro i n hn hmem
    have := inDegree_pos hn hmem
    omega
  refine ⟨fun i n j hn hnext hj => ?_, fun i n j hn halt hj => ?_⟩
  · rcases h.eq_or_mem_tail hj with rfl | hj
    · exact hfirst i n hn (mem_edges.mpr (.inl hnext))
    · obtain ⟨p, -, node, hp, hpj⟩ := h.exists_pred hj
      exact (edge_unique (htail j hj) hp hpj hn).1 hnext
  · rcases h.eq_or_mem_tail hj with rfl | hj
    · exact (hfirst i n hn (mem_edges.mpr (.inr halt))).elim
    · obtain ⟨p, hmem, node, hp, hpj⟩ := h.exists_pred hj
      rw [(edge_unique (htail j hj) hp hpj hn).2 halt]
      exact hmem

/-- `g` has the nodes of `a`, but the node `last`, which had no alternative, has `second`. -/
structure Splices (a g : Automaton) (last second : Nat) : Prop where
  other : ∀ (i : Nat) (n : Node), a.nodes[i]? = some n → i ≠ last → g.nodes[i]? = some n
  last : ∃ n, a.nodes[last]? = some n ∧ n.alt = none ∧
    g.nodes[last]? = some { n with alt := some second }

lemma Splices.step (h : a.Splices g last second) (hi : a.nodes[i]? = some node) :
    ∃ n, g.nodes[i]? = some n ∧ n.label = node.label ∧ n.accept = node.accept ∧
      n.next = node.next ∧ (∀ j, n.alt = some j → node.alt = some j ∨ i = last ∧ j = second) := by
  by_cases hlast : i = last
  · subst hlast
    obtain ⟨m, hm, -, hg⟩ := h.last
    cases hi.symm.trans hm
    exact ⟨_, hg, rfl, rfl, rfl, fun j hj => .inr ⟨rfl, by cases hj; rfl⟩⟩
  · exact ⟨node, h.other i node hi hlast, rfl, rfl, rfl, fun j => .inl⟩

lemma Splices.ne_last (h : a.Splices g last second) (hi : a.nodes[i]? = some node)
    (hj : node.alt = some j) : i ≠ last := by
  rintro rfl
  obtain ⟨m, hm, hnone, -⟩ := h.last
  cases hi.symm.trans hm
  rw [hnone] at hj
  cases hj

lemma Splices.accepts (h : a.Splices g last second) (hw : a.Accepts i w) : g.Accepts i w := by
  induction hw with
  | @alt id j node w hn hj _ ih => exact .alt (h.other id node hn (h.ne_last hn hj)) hj ih
  | @next id j node u w hn hu hj _ ih =>
    obtain ⟨m, hm, hlabel, -, hnext, -⟩ := h.step hn
    exact .next hm (hu.of_label_eq hlabel.symm) (hnext.trans hj) ih
  | @stop id node u hn hu hacc =>
    obtain ⟨m, hm, hlabel, haccept, -, -⟩ := h.step hn
    exact .stop hm (hu.of_label_eq hlabel.symm) (haccept.trans hacc)

/-- Along the chain every path may go on to the second graph. -/
lemma Splices.accepts_of_chain (h : a.Splices g last second) (hc : a.AltChain id ids)
    (hend : ids.getLast? = some last) (hw : g.Accepts second w) : g.Accepts id w := by
  induction hc with
  | last _ =>
    cases hend
    obtain ⟨n, -, -, hg⟩ := h.last
    exact .alt hg rfl hw
  | @cons id j ids halt rest ih =>
    obtain ⟨node, hn, hj⟩ := Option.bind_eq_some_iff.mp halt
    refine .alt (h.other id node hn (h.ne_last hn hj)) hj (ih ?_)
    rwa [List.getLast?_cons_of_ne_nil (List.ne_nil_of_mem rest.head_mem)] at hend

/-- A path of the new graph is one of the old, or it comes to the second graph along the chain; from
off the chain it cannot come there. -/
lemma Splices.accepts_cases (h : a.Splices g last second) (ha : a.Closed) (hp : a.Private ids)
    (hlast : last ∈ ids) (hw : g.Accepts i w) (hi : i < a.size) :
    a.Accepts i w ∨ i ∈ ids ∧ g.Accepts second w := by
  induction hw with
  | @alt i j n w hn hj hw ih =>
    obtain ⟨node, hnode⟩ := exists_node hi
    obtain ⟨m, hm, -, -, -, halt⟩ := h.step hnode
    cases hn.symm.trans hm
    rcases halt j hj with hj | ⟨rfl, rfl⟩
    · rcases ih (ha.alt_lt hnode hj) with hw | ⟨hmem, hw⟩
      · exact .inl (.alt hnode hj hw)
      · exact .inr ⟨hp.alt_mem i node j hnode hj hmem, hw⟩
    · exact .inr ⟨hlast, hw⟩
  | @next i j n u w hn hu hj _ ih =>
    obtain ⟨node, hnode⟩ := exists_node hi
    obtain ⟨m, hm, hlabel, -, hnext, -⟩ := h.step hnode
    cases hn.symm.trans hm
    rw [hnext] at hj
    have hu' := hu.of_label_eq hlabel
    rcases ih (ha.next_lt hnode hj) with hw | ⟨hmem, -⟩
    · exact .inl (.next hnode hu' hj hw)
    · -- Having read something, the path cannot be back on the chain.
      exact (hp.next_notMem i node j hnode hj hmem).elim
  | @stop i n u hn hu hacc =>
    obtain ⟨node, hnode⟩ := exists_node hi
    obtain ⟨m, hm, hlabel, haccept, -, -⟩ := h.step hnode
    cases hn.symm.trans hm
    exact .inl (.stop hnode (hu.of_label_eq hlabel) (haccept.symm.trans hacc))

lemma AltChain.getLast?_eq (h : a.AltChain id ids) (steps : Nat) (hlen : ids.length ≤ steps + 1) :
    ids.getLast? = some (a.lastAlternative steps id) := by
  induction steps generalizing id ids with
  | zero =>
    cases h with
    | last _ => rfl
    | cons _ rest =>
      have := List.length_pos_of_mem rest.head_mem
      rw [List.length_cons] at hlen
      omega
  | succ steps ih =>
    cases h with
    | last h => simp [lastAlternative, h]
    | cons halt rest =>
      rw [List.getLast?_cons_of_ne_nil (List.ne_nil_of_mem rest.head_mem), lastAlternative, halt]
      exact ih rest (by simpa using hlen)

lemma AltChain.exists_last (h : a.AltChain id ids) (ha : a.Closed) (hid : id < a.size) :
    ∃ last n, ids.getLast? = some last ∧ last ∈ ids ∧ a.nodes[last]? = some n ∧ n.alt = none := by
  induction h with
  | @last id halt =>
    obtain ⟨n, hn⟩ := exists_node hid
    exact ⟨id, n, rfl, List.mem_cons_self, hn, by simpa [hn] using halt⟩
  | @cons id j ids halt rest ih =>
    obtain ⟨node, hn, hj⟩ := Option.bind_eq_some_iff.mp halt
    obtain ⟨last, n, hlast, hmem, hn'⟩ := ih (ha.alt_lt hn hj)
    refine ⟨last, n, ?_, List.mem_cons_of_mem id hmem, hn'⟩
    rwa [List.getLast?_cons_of_ne_nil (List.ne_nil_of_mem rest.head_mem)]

lemma getElem?_absorb_left (b : Automaton) (h : id < a.size) :
    (a.absorb b).nodes[id]? = a.nodes[id]? :=
  Array.getElem?_append_left h

lemma AltChain.absorb (h : a.AltChain id ids) (ha : a.Closed) (hid : id < a.size) :
    (a.absorb b).AltChain id ids := by
  induction h with
  | last halt => exact .last (by rwa [getElem?_absorb_left b hid])
  | cons halt rest ih =>
    obtain ⟨node, hn, hj⟩ := Option.bind_eq_some_iff.mp halt
    exact .cons (by rwa [getElem?_absorb_left b hid]) (ih (ha.alt_lt hn hj))

lemma splices_setAlt (b : Automaton) (hn : a.nodes[last]? = some node) (hnone : node.alt = none)
    (second : Nat) :
    a.Splices ((a.absorb b).setAlt last second) last second := by
  unfold setAlt
  refine ⟨fun i n hi hne => ?_, node, hn, hnone, ?_⟩
  · rw [Array.getElem?_modify, if_neg (Ne.symm hne), getElem?_absorb_left b (lt_of_getElem? hi), hi]
  · rw [Array.getElem?_modify, if_pos rfl, getElem?_absorb_left b (lt_of_getElem? hn), hn]
    rfl

lemma embeds_setAlt_right (hlast : last < a.size) (second : Nat) :
    b.Embeds ((a.absorb b).setAlt last second) a.size := by
  intro id n hn
  unfold setAlt
  have hne : last ≠ id + a.size := by omega
  rw [Array.getElem?_modify, if_neg hne]
  exact embeds_absorb_right a b id n hn

lemma language_dispatch (ha : a.Closed) (hb : b.Closed) (hfirst : a.root = some first)
    (hsecond : b.root = some second) :
    ((a.absorb b).pushRoot ⟨.epsilon, false, some first, some (second + a.size)⟩).language =
      a.language + b.language := by
  ext w
  have hn := getElem?_pushRoot (a.absorb b) ⟨.epsilon, false, some first, some (second + a.size)⟩
  have hkeep := embeds_pushRoot (a.absorb b)
    ⟨.epsilon, false, some first, some (second + a.size)⟩
  have hab := ha.absorb hb
  have hf := ha.root_lt first hfirst
  have hs := hb.root_lt second hsecond
  have hsize := size_absorb a b
  have hw₁ := (hkeep.accepts_iff (w := w) hab (show first < _ by omega)).trans
    ((embeds_absorb_left a b).accepts_iff ha hf)
  have hw₂ := (hkeep.accepts_iff (w := w) hab (show second + a.size < _ by omega)).trans
    ((embeds_absorb_right a b).accepts_iff hb hs)
  rw [mem_language rfl, accepts_epsilon_iff hn rfl, Language.mem_add, mem_language hfirst,
    mem_language hsecond, ← hw₁, ← hw₂]
  simp [or_comm]

lemma language_splice (ha : a.Closed) (hb : b.Closed) (hfirst : a.root = some first)
    (hsecond : b.root = some second) (h : a.isShared first = false) :
    ((a.absorb b).setAlt ((a.absorb b).lastAlternative ((a.absorb b).size + 1) first)
      (second + a.size)).language = a.language + b.language := by
  have hf := ha.root_lt first hfirst
  obtain ⟨ids, hchain, hlen, hdeg, htail⟩ := chain_of_sharedAfter h
  obtain ⟨last, n, hend, hmem, hn, hnone⟩ := hchain.exists_last ha hf
  have hlast : (a.absorb b).lastAlternative ((a.absorb b).size + 1) first = last := by
    have hsteps : ids.length ≤ (a.absorb b).size + 1 + 1 := by
      rw [size_absorb]
      omega
    have hjoined : (a.absorb b).AltChain first ids := hchain.absorb ha hf
    have heq := hjoined.getLast?_eq ((a.absorb b).size + 1) hsteps
    exact Option.some.inj (heq.symm.trans hend)
  have hp := private_of_inDegree hchain (by omega) htail
  have hsplice := splices_setAlt b hn hnone (second + a.size)
  have hsecond_iff := fun w => (embeds_setAlt_right (b := b) (lt_of_getElem? hn)
    (second + a.size)).accepts_iff (w := w) hb (hb.root_lt second hsecond)
  have hroot : ((a.absorb b).setAlt last (second + a.size)).root = some first := hfirst
  rw [hlast]
  ext w
  rw [mem_language hroot, Language.mem_add, mem_language hfirst, mem_language hsecond,
    ← hsecond_iff]
  constructor
  · intro hw
    exact (hsplice.accepts_cases ha hp hmem hw hf).imp_right And.right
  · rintro (hw | hw)
    · exact hsplice.accepts hw
    · exact hsplice.accepts_of_chain hchain hend hw

theorem language_union (ha : a.Closed) (hb : b.Closed) :
    (a ∪ b).language = a.language + b.language := by
  change (union a b).language = _
  unfold union
  split
  · next hfirst => rw [language_eq_zero hfirst, zero_add]
  · next hsecond => rw [language_eq_zero hsecond, add_zero]
  · next first second hfirst hsecond =>
    dsimp only
    split
    · exact language_dispatch ha hb hfirst hsecond
    · next h => exact language_splice ha hb hfirst hsecond (by simpa using h)

/-- The union of automata that can be built accepts what one of them accepts and nothing else; in
particular the repetition of the first does not come to the second. -/
theorem language_union_of_buildable (ha : Buildable a) (hb : Buildable b) :
    (a ∪ b).language = a.language + b.language ∧
    (a.plus ∪ b).language = a.language * a.language∗ + b.language := by
  refine ⟨language_union ha.closed hb.closed, ?_⟩
  rw [language_union ha.plus.closed hb.closed, language_plus ha.closed]

/-- Two nodes that are alternatives of one another, so that the chain from the root is a cycle. -/
theorem language_union_of_buildable_cycle :
    let cycle : Automaton :=
      ⟨#[⟨.single 97, true, none, some 1⟩, ⟨.single 98, true, none, some 0⟩], some 0⟩
    ofNodes cycle.nodes cycle.root = .ok cycle ∧ cycle.isShared 0 = true ∧
    (cycle ∪ ofString "c").language = cycle.language + (ofString "c").language ∧
    (cycle.plus ∪ ofString "c").language =
      cycle.language * cycle.language∗ + (ofString "c").language := by
  intro cycle
  have htaken : ofNodes cycle.nodes cycle.root = .ok cycle := rfl
  have hcycle := Buildable.ofNodes htaken
  exact ⟨htaken, rfl, language_union_of_buildable hcycle (.ofString "c")⟩

end ByteLexer.Automaton
