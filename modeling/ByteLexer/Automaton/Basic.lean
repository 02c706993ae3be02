import ByteLexer.ByteClass

/-!
# Automata

An automaton is a graph of nodes. A node reads one byte of its class and goes on to `next`; `alt` is
another node to try at the same place. A node whose class stands for reading nothing goes on to both
in place. Nodes name one another by their index, and `ofNodes` takes a graph only if all its indices
are those of its own nodes.
-/

namespace ByteLexer

structure Node where
  label : ByteClass
  /-- Whether a match may end after the node. -/
  accept : Bool
  /-- Where to go on after reading. -/
  next : Option Nat := none
  /-- What else to try at the same place. -/
  alt : Option Nat := none
deriving DecidableEq

namespace Node

def edges (n : Node) : List Nat := n.next.toList ++ n.alt.toList

/-- The node with its edges moved up by `offset`. -/
def shift (offset : Nat) (n : Node) : Node :=
  { n with next := n.next.map (· + offset), alt := n.alt.map (· + offset) }

end Node

/-- What is wrong with a graph that leads out of its own nodes. -/
inductive GraphError where
  | danglingEdge (node target size : Nat)
  | danglingRoot (root size : Nat)
deriving DecidableEq

namespace GraphError

def message : GraphError → String
  | danglingEdge node target size =>
    s!"node {node} has an edge to {target}, outside the {size} owned nodes"
  | danglingRoot root size => s!"root {root} is outside the {size} owned nodes"

end GraphError

/-- A graph of nodes and the node matching starts from. Without a root nothing is matched. -/
structure Automaton where
  nodes : Array Node
  root : Option Nat
deriving DecidableEq

namespace Automaton

def size (a : Automaton) : Nat := a.nodes.size

/-- Whether there is no node to start from. -/
def isEmpty (a : Automaton) : Bool := a.root.isNone

/-- Says what leads out of the graph: the root before any edge, and edges in the order of their
nodes, `next` before `alt`. -/
def validate (a : Automaton) : Except GraphError Unit :=
  match a.root.filter (a.size ≤ ·) with
  | some root => .error (.danglingRoot root a.size)
  | none =>
    let outside := a.nodes.toList.zipIdx.findSome? fun (node, id) =>
      (node.edges.find? (a.size ≤ ·)).map fun target => (id, target)
    match outside with
    | some (node, target) => .error (.danglingEdge node target a.size)
    | none => .ok ()

/-- The automaton of a graph that does not lead out of itself. -/
def ofNodes (nodes : Array Node) (root : Option Nat) : Except GraphError Automaton :=
  (validate ⟨nodes, root⟩).map fun _ => ⟨nodes, root⟩

/-- Matches nothing, not even the empty text. -/
def empty : Automaton := ⟨#[], none⟩

/-- One node that is also where matching starts and ends. -/
def ofClass (c : ByteClass) : Automaton := ⟨#[⟨c, true, none, none⟩], some 0⟩

def epsilon : Automaton := ofClass .epsilon

/-- The nodes that read `bytes` one after the other, the last byte first; each goes on to the node
before it, and the node of the last byte ends the match. -/
def chainNodes (bytes : List UInt8) : List Node :=
  bytes.reverse.zipIdx.map fun (byte, id) =>
    ⟨.single byte, id == 0, if id = 0 then none else some (id - 1), none⟩

def ofBytes (bytes : List UInt8) : Automaton :=
  if bytes.isEmpty then epsilon else ⟨(chainNodes bytes).toArray, some (bytes.length - 1)⟩

def ofString (s : String) : Automaton := ofBytes (Text.Utf8.encode s)

end Automaton

end ByteLexer
