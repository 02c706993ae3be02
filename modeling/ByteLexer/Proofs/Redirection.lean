import ByteLexer.Proofs.Closure

/-!
# Sending accepting nodes on

When the accepting nodes of a graph are sent on to a target, the paths that used to end now go on
there. A node that already leads somewhere keeps its edge and gets a copy of itself as its
alternative, which takes the new way; so every node has itself and perhaps a copy to stand for it,
and a path in the new graph is followed in the old one by what its nodes stand for.
-/

namespace ByteLexer.Automaton

/-- The node that takes the way to `target` in place of an accepting one. -/
def detour (node : Node) (target : Nat) : Node := { node with next := some target, accept := false }

/-- The node `id`, which was `node`, also leads on to `target`, by itself or by a copy at `bound` or
beyond. -/
def SentOn (g : Automaton) (bound target : Nat) (accept : Bool) (id : Nat) (node : Node) : Prop :=
  g.nodes[id]? = some { node with next := some target, accept := accept } ∧ node.next = none ∨
    ∃ copy, bound ≤ copy ∧ g.nodes[id]? = some { node with accept := accept, alt := some copy } ∧
      g.nodes[copy]? = some (detour node target)

/-- In `g` the nodes of `a` listed in `ids` also lead on to `target`, and its other nodes are as
they were. -/
def Redirected (a g : Automaton) (target : Nat) (accept : Bool) (ids : List Nat) : Prop :=
  ∀ id node, a.nodes[id]? = some node →
    (id ∈ ids → g.SentOn a.size target accept id node) ∧ (id ∉ ids → g.nodes[id]? = some node)

variable {a b g : Automaton} {node n : Node} {id i j k target bound : Nat} {accept : Bool}
  {ids : List Nat} {u v w : List UInt8} {K : Language UInt8}

lemma getElem?_redirect_of_ne (h : g.nodes[j]? = some n) (hne : j ≠ id) :
    (redirect target accept g id).nodes[j]? = some n := by
  have hj : j ≠ g.nodes.size := (lt_of_getElem? h).ne
  unfold redirect
  split
  · exact h
  · dsimp only
    split
    · rw [Array.getElem?_setIfInBounds_ne hne.symm, h]
    · rw [Array.getElem?_push, Array.size_setIfInBounds, if_neg hj,
        Array.getElem?_setIfInBounds_ne hne.symm, h]

lemma sentOn_redirect (h : g.nodes[id]? = some node) (hbound : bound ≤ g.size) :
    (redirect target accept g id).SentOn bound target accept id node := by
  have hid : id < g.nodes.size := lt_of_getElem? h
  unfold redirect
  rw [h]
  dsimp only
  split
  · next hn =>
    exact .inl ⟨Array.getElem?_setIfInBounds_self_of_lt hid, Option.isNone_iff_eq_none.mp hn⟩
  · refine .inr ⟨g.size, hbound, ?_, ?_⟩
    · rw [Array.getElem?_push, Array.size_setIfInBounds, if_neg hid.ne,
        Array.getElem?_setIfInBounds_self_of_lt hid]
    · rw [Array.getElem?_push, Array.size_setIfInBounds]
      exact if_pos rfl

lemma SentOn.redirect_of_ne (h : g.SentOn bound target accept i node) (hi : i ≠ id)
    (hid : id < bound) : (redirect target accept g id).SentOn bound target accept i node := by
  rcases h with ⟨h, hn⟩ | ⟨copy, hcopy, h, hc⟩
  · exact .inl ⟨getElem?_redirect_of_ne h hi, hn⟩
  · exact .inr ⟨copy, hcopy, getElem?_redirect_of_ne h hi, getElem?_redirect_of_ne hc (by omega)⟩

lemma getElem?_redirectAll (ids : List Nat) (h : g.nodes[j]? = some n) (hj : j ∉ ids) :
    (g.redirectAll target accept ids).nodes[j]? = some n := by
  unfold redirectAll
  induction ids generalizing g with
  | nil => exact h
  | cons id ids ih =>
    rw [List.mem_cons, not_or] at hj
    exact ih (getElem?_redirect_of_ne h hj.1) hj.2

lemma size_le_redirectAll (g : Automaton) (target : Nat) (accept : Bool) (ids : List Nat) :
    g.size ≤ (g.redirectAll target accept ids).size := by
  unfold redirectAll
  induction ids generalizing g with
  | nil => exact le_rfl
  | cons id ids ih => exact (size_le_redirect g target accept id).trans (ih _)

/-- Sending nodes on one after the other sends on each of them, and those before it stay so. -/
lemma redirected_redirectAll (hg : a.Embeds g 0) (hle : a.size ≤ g.size) (ids : List Nat)
    (hids : ∀ id ∈ ids, id < a.size) (hnodup : ids.Nodup) :
    Redirected a (g.redirectAll target accept ids) target accept ids := by
  induction ids using List.reverseRecOn with
  | nil => exact fun id node hn => ⟨fun hid => (by cases hid), fun _ => hg.getElem? hn⟩
  | append_singleton ids last ih =>
    have hlast : last < a.size := hids last (by simp)
    have hnot : last ∉ ids := by
      intro hmem
      exact (List.nodup_append.mp hnodup).2.2 last hmem last (by simp) rfl
    have ih := ih (fun id hid => hids id (by simp [hid])) (List.nodup_append.mp hnodup).1
    have hstep : g.redirectAll target accept (ids ++ [last]) =
        redirect target accept (g.redirectAll target accept ids) last := by
      simp [redirectAll]
    have hsize := hle.trans (size_le_redirectAll g target accept ids)
    rw [hstep]
    intro id node hn
    obtain ⟨hsent, hkept⟩ := ih id node hn
    by_cases hid : id = last
    · subst hid
      exact ⟨fun _ => sentOn_redirect (hkept hnot) hsize, fun h => (h (by simp)).elim⟩
    · refine ⟨fun hmem => ?_, fun hmem => getElem?_redirect_of_ne (hkept ?_) hid⟩
      · refine (hsent ?_).redirect_of_ne hid hlast
        simpa [hid] using hmem
      · exact fun h => hmem (by simp [h])

/-- In `g` exactly the accepting nodes of `a` also lead on to `target`. -/
def Rerouted (a g : Automaton) (target : Nat) (accept : Bool) : Prop :=
  ∀ id node, a.nodes[id]? = some node →
    if node.accept then g.SentOn a.size target accept id node else g.nodes[id]? = some node

lemma mem_acceptNodes :
    id ∈ a.acceptNodes ↔ ∃ node, a.nodes[id]? = some node ∧ node.accept = true := by
  simp only [acceptNodes, List.mem_filter, List.mem_range, Option.any_eq_true]
  constructor
  · rintro ⟨-, node, hn, ha⟩
    exact ⟨node, hn, ha⟩
  · rintro ⟨node, hn, ha⟩
    exact ⟨lt_of_getElem? hn, node, hn, ha⟩

lemma lt_of_mem_acceptNodes (h : id ∈ a.acceptNodes) : id < a.size := by
  obtain ⟨node, hn, -⟩ := mem_acceptNodes.mp h
  exact lt_of_getElem? hn

lemma rerouted_redirectAll (hg : a.Embeds g 0) (hle : a.size ≤ g.size) :
    Rerouted a (g.redirectAll target accept a.acceptNodes) target accept := by
  have h : Redirected a (g.redirectAll target accept a.acceptNodes) target accept a.acceptNodes :=
    redirected_redirectAll hg hle a.acceptNodes (fun _ => lt_of_mem_acceptNodes)
      (List.nodup_range.filter _)
  intro id node hn
  obtain ⟨hsent, hkept⟩ := h id node hn
  split
  · next ha => exact hsent (mem_acceptNodes.mpr ⟨node, hn, ha⟩)
  · next ha =>
    refine hkept fun hmem => ha ?_
    obtain ⟨node', hn', ha'⟩ := mem_acceptNodes.mp hmem
    cases hn.symm.trans hn'
    exact ha'

/-- `id` stands for the node `i` of the old graph, which is `node`: it is that node or the copy that
takes the new way in its place. -/
def StandsFor (g : Automaton) (target id i : Nat) (node : Node) : Prop :=
  id = i ∨ node.accept = true ∧ g.nodes[id]? = some (detour node target)

/-- What a path can do from a node that stands for an old one. -/
lemma Rerouted.step (h : Rerouted a g target accept) (hi : a.nodes[i]? = some node)
    (hs : StandsFor g target id i node) (hn : g.nodes[id]? = some n) :
    n.label = node.label ∧
      (∀ j, n.alt = some j → node.alt = some j ∨ StandsFor g target j i node) ∧
      (∀ j, n.next = some j → node.next = some j ∨ node.accept = true ∧ j = target) ∧
      (n.accept = true → node.accept = true ∧ accept = true) := by
  have hnode := h i node hi
  rcases hs with rfl | ⟨ha, hcopy⟩
  · split at hnode
    · next ha =>
      rcases hnode with ⟨hg, -⟩ | ⟨copy, -, hg, hc⟩
      · cases hn.symm.trans hg
        exact ⟨rfl, fun _ => .inl, fun j hj => .inr ⟨ha, by cases hj; rfl⟩, fun hacc => ⟨ha, hacc⟩⟩
      · cases hn.symm.trans hg
        refine ⟨rfl, fun j hj => ?_, fun _ => .inl, fun hacc => ⟨ha, hacc⟩⟩
        cases hj
        exact .inr (.inr ⟨ha, hc⟩)
    · next ha =>
      cases hn.symm.trans hnode
      exact ⟨rfl, fun _ => .inl, fun _ => .inl, fun hacc => (ha hacc).elim⟩
  · cases hn.symm.trans hcopy
    exact ⟨rfl, fun _ => .inl, fun j hj => .inr ⟨ha, by cases hj; rfl⟩, fun hacc => (by cases hacc)⟩

/-- The texts read on the accepting paths from a node. -/
def languageFrom (a : Automaton) (id : Nat) : Language UInt8 := {w | a.Accepts id w}

/-- A path in the new graph is one of the old graph up to where it first goes the new way. The
language `K` is that of what may follow: it has the empty text if a path may still end at an
accepting node, and what is read from the target on, when that is known to split like this too. -/
lemma Rerouted.split (h : Rerouted a g target accept) (ha : a.Closed)
    (hstop : accept = true → [] ∈ K)
    (htarget : ∀ v, g.Accepts target v →
      (∀ node, a.nodes[target]? = some node → v ∈ a.languageFrom target * K) → v ∈ K)
    (hw : g.Accepts id w) (hi : a.nodes[i]? = some node) (hs : StandsFor g target id i node) :
    w ∈ a.languageFrom i * K := by
  induction hw generalizing i node with
  | alt hn hj _ ih =>
    obtain ⟨-, halt, -, -⟩ := h.step hi hs hn
    rcases halt _ hj with hj | hs
    · obtain ⟨next, hnext⟩ := exists_node (ha.alt_lt hi hj)
      obtain ⟨u, hu, v, hv, rfl⟩ := Language.mem_mul.mp (ih hnext (.inl rfl))
      exact Language.append_mem_mul (Accepts.alt hi hj hu) hv
    · exact ih hi hs
  | @next id j n r w hn hr hj hw ih =>
    obtain ⟨hlabel, -, hnext, -⟩ := h.step hi hs hn
    have hr' := hr.of_label_eq hlabel
    rcases hnext _ hj with hj | ⟨hacc, rfl⟩
    · obtain ⟨next, hnode⟩ := exists_node (ha.next_lt hi hj)
      obtain ⟨u, hu, v, hv, rfl⟩ := Language.mem_mul.mp (ih hnode (.inl rfl))
      rw [← List.append_assoc]
      exact Language.append_mem_mul (Accepts.next hi hr' hj hu) hv
    · -- Here the path leaves for the target, which may be a node of the old graph itself.
      exact Language.append_mem_mul (Accepts.stop hi hr' hacc)
        (htarget w hw fun next hnode => ih hnode (.inl rfl))
  | @stop id n r hn hr hacc =>
    obtain ⟨hlabel, -, -, hend⟩ := h.step hi hs hn
    obtain ⟨hacc, hkeep⟩ := hend hacc
    have hr' := hr.of_label_eq hlabel
    rw [← List.append_nil r]
    exact Language.append_mem_mul (Accepts.stop hi hr' hacc) (hstop hkeep)

/-- A path of the old graph is one of the new, which at its end may go on from the target. -/
lemma Rerouted.join (h : Rerouted a g target accept) (hu : a.Accepts id u)
    (hv : accept = true ∧ v = [] ∨ g.Accepts target v) : g.Accepts id (u ++ v) := by
  induction hu with
  | @alt id j node w hn hj _ ih =>
    have hnode := h id node hn
    split at hnode
    · rcases hnode with ⟨hg, -⟩ | ⟨copy, -, hg, hc⟩
      · exact .alt hg hj ih
      · exact .alt hg rfl (.alt hc hj ih)
    · exact .alt hnode hj ih
  | @next id j node r w hn hr hj _ ih =>
    have hnode := h id node hn
    rw [List.append_assoc]
    split at hnode
    · rcases hnode with ⟨-, hnone⟩ | ⟨copy, -, hg, -⟩
      · rw [hnone] at hj
        cases hj
      · exact .next hg hr hj ih
    · exact .next hnode hr hj ih
  | @stop id node r hn hr hacc =>
    have hnode := h id node hn
    rw [if_pos hacc] at hnode
    rcases hv with ⟨hkeep, rfl⟩ | hv
    · rw [List.append_nil]
      rcases hnode with ⟨hg, -⟩ | ⟨copy, -, hg, -⟩
      · exact .stop hg hr hkeep
      · exact .stop hg hr hkeep
    · rcases hnode with ⟨hg, -⟩ | ⟨copy, -, hg, hc⟩
      · exact .next hg hr rfl hv
      · exact .alt hg rfl (.next hc hr rfl hv)

end ByteLexer.Automaton
