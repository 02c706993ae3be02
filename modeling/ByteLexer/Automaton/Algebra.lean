import ByteLexer.Automaton.Basic

/-!
# Automata from automata

Two graphs are joined by putting the nodes of one after those of the other; what is matched next is
then attached by sending the accepting nodes on. A node that already goes on somewhere keeps doing
so: a copy of it, on its own chain of alternatives, takes the new way.
-/

namespace ByteLexer.Automaton

/-- Adds a node and starts from it. -/
def pushRoot (a : Automaton) (node : Node) : Automaton := ⟨a.nodes.push node, some a.size⟩

/-- The nodes of `b` after those of `a`, still starting from the root of `a`. -/
def absorb (a b : Automaton) : Automaton :=
  { a with nodes := a.nodes ++ b.nodes.map (·.shift a.size) }

/-- The accepting nodes. -/
def acceptNodes (a : Automaton) : List Nat :=
  (List.range a.size).filter fun id => a.nodes[id]?.any (·.accept)

/-- Sends the node `id` on to `target`; whether a match may still end there is up to `accept`. -/
def redirect (target : Nat) (accept : Bool) (a : Automaton) (id : Nat) : Automaton :=
  match a.nodes[id]? with
  | none => a
  | some node =>
    if node.next.isNone then
      let node := { node with next := some target, accept := accept }
      { a with nodes := a.nodes.setIfInBounds id node }
    else
      let detour := { node with next := some target, accept := false }
      let node := { node with accept := accept, alt := some a.size }
      { a with nodes := (a.nodes.setIfInBounds id node).push detour }

/-- Sends all of `ids` on to `target`. -/
def redirectAll (a : Automaton) (target : Nat) (accept : Bool) (ids : List Nat) : Automaton :=
  ids.foldl (redirect target accept) a

/-- Matches what `a` matches, followed by what `b` matches. -/
def append (a b : Automaton) : Automaton :=
  match a.root, b.root with
  | some _, some entry => (a.absorb b).redirectAll (entry + a.size) false a.acceptNodes
  | _, _ => empty

instance : Append Automaton := ⟨append⟩

/-- Matches what `a` matches, or the empty text. -/
def optional (a : Automaton) : Automaton :=
  match a.root with
  | some root => a.pushRoot ⟨.epsilon, true, some root, none⟩
  | none => epsilon

/-- Matches one or more texts that `a` matches. -/
def plus (a : Automaton) : Automaton :=
  match a.root with
  | some root => a.redirectAll root true a.acceptNodes
  | none => empty

/-- Matches any number of texts that `a` matches. -/
def star (a : Automaton) : Automaton := a.plus.optional

/-- Matches exactly `n` texts that `a` matches. -/
def replicate (a : Automaton) : Nat → Automaton
  | 0 => epsilon
  | n + 1 => Nat.repeat (· ++ a) n a

/-- The number of edges that lead to a node. -/
def inDegree (a : Automaton) (id : Nat) : Nat := (a.nodes.toList.flatMap Node.edges).count id

/-- Walks the alternatives from a node and says whether one of them is also reached by another edge:
the first node by any edge at all, a later one by more than the edge the walk came along. A walk
longer than `steps` is taken to be caught in a cycle. -/
def sharedAfter (a : Automaton) (allowed : Nat) : Nat → Option Nat → Bool
  | _, none => false
  | 0, some _ => true
  | steps + 1, some id =>
    if allowed < a.inDegree id then true
    else sharedAfter a 1 steps (a.nodes[id]?.bind (·.alt))

/-- Whether some node on the chain of alternatives from `id` can be reached but along the chain. -/
def isShared (a : Automaton) (id : Nat) : Bool := a.sharedAfter 0 (a.size + 1) (some id)

/-- The last alternative from `id`, after at most `steps` of them. -/
def lastAlternative (a : Automaton) : Nat → Nat → Nat
  | 0, id => id
  | steps + 1, id =>
    match a.nodes[id]?.bind (·.alt) with
    | some alt => a.lastAlternative steps alt
    | none => id

/-- Matches what `a` or `b` matches. The root of `b` goes to the end of the chain of alternatives
that `a` starts from, unless the chain is shared: whatever else enters it must not come to `b`, so
a new root leads to both. -/
def union (a b : Automaton) : Automaton :=
  match a.root, b.root with
  | none, _ => b
  | some _, none => a
  | some first, some root =>
    let joined := a.absorb b
    let second := root + a.size
    if a.isShared first then joined.pushRoot ⟨.epsilon, false, some first, some second⟩
    else
      let last := joined.lastAlternative (joined.size + 1) first
      { joined with nodes := joined.nodes.modify last ({ · with alt := some second }) }

instance : Union Automaton := ⟨union⟩

end ByteLexer.Automaton
