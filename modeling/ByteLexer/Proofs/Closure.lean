import ByteLexer.Proofs.Paths

/-!
# Closed graphs

A graph is taken by `ofNodes` just when no edge and no root leads out of it. All constructions of
automata keep that: nodes are only added, and the edges that are set lead to nodes that are there.
-/

namespace ByteLexer.Automaton

variable {a b : Automaton} {nodes : Array Node} {node : Node} {root : Option Nat}
  {id j target : Nat} {accept : Bool}

lemma validate_of_closed (h : a.Closed) : a.validate = .ok () := by
  rw [validate]
  split
  · next root hroot =>
    obtain ⟨hroot, hle⟩ := Option.filter_eq_some_iff.mp hroot
    have hlt := h.root_lt root hroot
    simp only [decide_eq_true_eq] at hle
    omega
  · dsimp only
    split
    · next id target houtside =>
      obtain ⟨x, hx, hfound⟩ := List.exists_of_findSome?_eq_some houtside
      obtain ⟨j, hj, -⟩ := Option.map_eq_some_iff.mp hfound
      have hle : a.size ≤ j := by simpa using List.find?_some hj
      have hnode : x.1 ∈ a.nodes := Array.mem_toList_iff.mp (List.fst_mem_of_mem_zipIdx hx)
      have hlt := h.edge_lt x.1 hnode j (List.mem_of_find?_eq_some hj)
      omega
    · rfl

lemma closed_of_validate (h : a.validate = .ok ()) : a.Closed := by
  rw [validate] at h
  split at h
  · cases h
  · next hroot =>
    dsimp only at h
    split at h
    · cases h
    · next hedges =>
      refine ⟨fun node hnode j hj => ?_, fun root hr => ?_⟩
      · obtain ⟨id, hid, rfl⟩ := Array.getElem_of_mem hnode
        have hmem : (a.nodes[id], id) ∈ a.nodes.toList.zipIdx :=
          List.mk_mem_zipIdx_iff_getElem?.mpr (by simp [hid])
        have hnone := List.findSome?_eq_none_iff.mp hedges _ hmem
        have hall := List.find?_eq_none.mp (Option.map_eq_none_iff.mp hnone) j hj
        simpa using hall
      · have hsmall := Option.filter_eq_none_iff.mp hroot root hr
        simpa using hsmall

lemma closed_iff_validate : a.Closed ↔ a.validate = .ok () :=
  ⟨validate_of_closed, closed_of_validate⟩

lemma ofNodes_eq_ok_iff : ofNodes nodes root = .ok a ↔ a = ⟨nodes, root⟩ ∧ a.Closed := by
  rw [closed_iff_validate, ofNodes]
  constructor
  · intro h
    cases hv : validate ⟨nodes, root⟩ with
    | error e => simp [hv, Except.map] at h
    | ok u =>
      rw [hv] at h
      cases h
      exact ⟨rfl, hv⟩
  · rintro ⟨rfl, h⟩
    rw [h]
    rfl

lemma mem_edges : j ∈ node.edges ↔ node.next = some j ∨ node.alt = some j := by
  simp [Node.edges]

lemma mem_edges_shift {k : Nat} : j ∈ (node.shift k).edges ↔ ∃ i ∈ node.edges, i + k = j := by
  simp [Node.edges, Node.shift, or_and_right, exists_or]

lemma closed_empty : empty.Closed := ⟨by simp [empty], by simp [empty]⟩

lemma closed_ofClass (c : ByteClass) : (ofClass c).Closed :=
  ⟨by simp [ofClass, Node.edges], by simp [ofClass, size]⟩

lemma closed_ofBytes (bytes : List UInt8) : (ofBytes bytes).Closed := by
  unfold ofBytes
  split
  · exact closed_ofClass .epsilon
  · next hne =>
    have hpos : 0 < bytes.length := List.length_pos_iff.mpr (by simpa using hne)
    refine ⟨?_, ?_⟩
    · intro node hnode j hj
      simp only [chainNodes, List.mem_toArray, List.mem_map] at hnode
      obtain ⟨⟨byte, id⟩, hmem, rfl⟩ := hnode
      have hid : id < bytes.length := by simpa using List.snd_lt_of_mem_zipIdx hmem
      rw [mem_edges] at hj
      split at hj
      · simp at hj
      · have hj' : id - 1 = j := by simpa using hj
        simp only [size, chainNodes, List.size_toArray, List.length_map, List.length_zipIdx,
          List.length_reverse]
        omega
    · rintro root hroot
      cases hroot
      simp only [size, chainNodes, List.size_toArray, List.length_map, List.length_zipIdx,
        List.length_reverse]
      omega

lemma size_absorb (a b : Automaton) : (a.absorb b).size = a.size + b.size := by
  simp [absorb, size]

lemma Closed.absorb (ha : a.Closed) (hb : b.Closed) : (a.absorb b).Closed := by
  refine ⟨fun node hnode j hj => ?_, fun root hroot => ?_⟩
  · rw [size_absorb]
    rcases Array.mem_append.mp hnode with hnode | hnode
    · have := ha.edge_lt node hnode j hj
      omega
    · obtain ⟨node, hnode', rfl⟩ := Array.mem_map.mp hnode
      obtain ⟨i, hi, rfl⟩ := mem_edges_shift.mp hj
      have := hb.edge_lt node hnode' i hi
      omega
  · have := ha.root_lt root hroot
    rw [size_absorb]
    omega

lemma size_pushRoot (a : Automaton) (node : Node) : (a.pushRoot node).size = a.size + 1 := by
  simp [pushRoot, size]

lemma Closed.pushRoot (ha : a.Closed) (h : ∀ j ∈ node.edges, j < a.size) :
    (a.pushRoot node).Closed := by
  refine ⟨fun node' hnode j hj => ?_, fun root hroot => ?_⟩
  · rw [size_pushRoot]
    rcases Array.mem_push.mp hnode with hnode | rfl
    · have := ha.edge_lt node' hnode j hj
      omega
    · have := h j hj
      omega
  · cases hroot
    rw [size_pushRoot]
    omega

lemma size_le_redirect (a : Automaton) (target : Nat) (accept : Bool) (id : Nat) :
    a.size ≤ (redirect target accept a id).size := by
  unfold redirect
  split
  · exact le_rfl
  · dsimp only
    split <;> simp [size]

lemma edge_of_redirect {x : Node} (hx : x ∈ (redirect target accept a id).nodes)
    (hj : j ∈ x.edges) :
    (∃ node ∈ a.nodes, j ∈ node.edges) ∨ j = target ∨
      (j = a.size ∧ a.size < (redirect target accept a id).size) := by
  unfold redirect at hx ⊢
  split at hx
  · exact .inl ⟨x, hx, hj⟩
  · next node hn =>
    have hnode : node ∈ a.nodes := Array.mem_of_getElem? hn
    dsimp only at hx ⊢
    split at hx
    · rcases Array.mem_or_eq_of_mem_setIfInBounds hx with hx | rfl
      · exact .inl ⟨x, hx, hj⟩
      · rcases mem_edges.mp hj with hj | hj
        · cases hj
          exact .inr (.inl rfl)
        · exact .inl ⟨node, hnode, mem_edges.mpr (.inr hj)⟩
    · rcases Array.mem_push.mp hx with hx | rfl
      · rcases Array.mem_or_eq_of_mem_setIfInBounds hx with hx | rfl
        · exact .inl ⟨x, hx, hj⟩
        · rcases mem_edges.mp hj with hj | hj
          · exact .inl ⟨node, hnode, mem_edges.mpr (.inl hj)⟩
          · cases hj
            exact .inr (.inr ⟨rfl, by simp [size, *]⟩)
      · rcases mem_edges.mp hj with hj | hj
        · cases hj
          exact .inr (.inl rfl)
        · exact .inl ⟨node, hnode, mem_edges.mpr (.inr hj)⟩

lemma root_redirect (a : Automaton) (target : Nat) (accept : Bool) (id : Nat) :
    (redirect target accept a id).root = a.root := by
  unfold redirect
  split
  · rfl
  · dsimp only
    split <;> rfl

lemma Closed.redirect (ha : a.Closed) (ht : target < a.size) :
    (redirect target accept a id).Closed := by
  have hsize := size_le_redirect a target accept id
  refine ⟨fun x hx j hj => ?_, fun root hroot => ?_⟩
  · rcases edge_of_redirect hx hj with ⟨node, hnode, hj⟩ | rfl | ⟨rfl, hlt⟩
    · exact (ha.edge_lt node hnode j hj).trans_le hsize
    · exact ht.trans_le hsize
    · exact hlt
  · rw [root_redirect] at hroot
    exact (ha.root_lt root hroot).trans_le hsize

lemma Closed.redirectAll (ha : a.Closed) (ht : target < a.size) (ids : List Nat) :
    (a.redirectAll target accept ids).Closed := by
  unfold Automaton.redirectAll
  induction ids generalizing a with
  | nil => exact ha
  | cons id ids ih => exact ih (ha.redirect ht) (ht.trans_le (size_le_redirect ..))

lemma Closed.append (ha : a.Closed) (hb : b.Closed) : (a ++ b).Closed := by
  change (Automaton.append a b).Closed
  unfold Automaton.append
  split
  · next entry _ hentry =>
    refine (ha.absorb hb).redirectAll ?_ _
    have := hb.root_lt _ hentry
    rw [size_absorb]
    omega
  · exact closed_empty

lemma Closed.optional (ha : a.Closed) : a.optional.Closed := by
  unfold Automaton.optional
  split
  · next root hroot =>
    refine ha.pushRoot fun j hj => ?_
    simp only [Node.edges, Option.toList_some, Option.toList_none, List.append_nil,
      List.mem_singleton] at hj
    exact hj ▸ ha.root_lt root hroot
  · exact closed_ofClass .epsilon

lemma Closed.plus (ha : a.Closed) : a.plus.Closed := by
  unfold Automaton.plus
  split
  · next root hroot => exact ha.redirectAll (ha.root_lt root hroot) _
  · exact closed_empty

lemma Closed.star (ha : a.Closed) : a.star.Closed := ha.plus.optional

lemma Closed.replicate (ha : a.Closed) (n : Nat) : (a.replicate n).Closed := by
  cases n with
  | zero => exact closed_ofClass .epsilon
  | succ n =>
    change (Nat.repeat (· ++ a) n a).Closed
    induction n with
    | zero => exact ha
    | succ n ih => exact ih.append ha

/-- Sets the alternative of a node. -/
def setAlt (a : Automaton) (id j : Nat) : Automaton :=
  ⟨a.nodes.modify id ({ · with alt := some j }), a.root⟩

lemma Closed.setAlt (ha : a.Closed) (hj : j < a.size) : (a.setAlt id j).Closed := by
  unfold Automaton.setAlt
  refine ⟨fun x hx k hk => ?_, fun root hroot => ?_⟩
  · simp only [size, Array.size_modify]
    obtain ⟨i, hi, rfl⟩ := Array.getElem_of_mem hx
    rw [Array.size_modify] at hi
    rw [Array.getElem_modify] at hk
    have hmem : a.nodes[i] ∈ a.nodes := Array.getElem_mem hi
    split at hk
    · rcases mem_edges.mp hk with hk | hk
      · exact ha.edge_lt _ hmem k (mem_edges.mpr (.inl hk))
      · cases hk
        exact hj
    · exact ha.edge_lt _ hmem k hk
  · simpa [size] using ha.root_lt root hroot

lemma Closed.union (ha : a.Closed) (hb : b.Closed) : (a ∪ b).Closed := by
  change (Automaton.union a b).Closed
  unfold Automaton.union
  split
  · exact hb
  · exact ha
  · next first root hfirst hroot =>
    have hab := ha.absorb hb
    have hf := ha.root_lt first hfirst
    have hr := hb.root_lt root hroot
    dsimp only
    split
    · refine hab.pushRoot fun j hj => ?_
      rw [size_absorb]
      simp only [Node.edges, Option.toList_some, List.cons_append, List.nil_append, List.mem_cons,
        List.not_mem_nil, or_false] at hj
      omega
    · refine hab.setAlt ?_
      rw [size_absorb]
      omega

/-- The automata that can be built: any closed graph, and what the constructions make of them. -/
inductive Buildable : Automaton → Prop where
  | ofNodes {nodes : Array Node} {root : Option Nat} {a : Automaton}
      (h : ofNodes nodes root = .ok a) : Buildable a
  | empty : Buildable empty
  | epsilon : Buildable epsilon
  | ofClass (c : ByteClass) : Buildable (ofClass c)
  | ofString (s : String) : Buildable (ofString s)
  | append {a b : Automaton} (ha : Buildable a) (hb : Buildable b) : Buildable (a ++ b)
  | union {a b : Automaton} (ha : Buildable a) (hb : Buildable b) : Buildable (a ∪ b)
  | optional {a : Automaton} (ha : Buildable a) : Buildable a.optional
  | plus {a : Automaton} (ha : Buildable a) : Buildable a.plus
  | star {a : Automaton} (ha : Buildable a) : Buildable a.star
  | replicate {a : Automaton} (ha : Buildable a) (n : Nat) : Buildable (a.replicate n)

lemma Buildable.closed (h : Buildable a) : a.Closed := by
  induction h with
  | ofNodes h => exact (ofNodes_eq_ok_iff.mp h).2
  | empty => exact closed_empty
  | epsilon => exact closed_ofClass .epsilon
  | ofClass c => exact closed_ofClass c
  | ofString s => exact closed_ofBytes _
  | append _ _ iha ihb => exact iha.append ihb
  | union _ _ iha ihb => exact iha.union ihb
  | optional _ ih => exact ih.optional
  | plus _ ih => exact ih.plus
  | star _ ih => exact ih.star
  | replicate _ n ih => exact ih.replicate n

end ByteLexer.Automaton
