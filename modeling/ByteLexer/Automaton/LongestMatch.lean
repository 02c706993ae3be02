import ByteLexer.Automaton.Basic
import ByteLexer.Input.Source

/-!
# Longest match

All paths through an automaton are followed at once, byte by byte: `closure` gathers what can be
reached from the current nodes without reading, `readers` the nodes among them that read the next
byte, and the last place where a match could end is the answer.
-/

namespace ByteLexer.Automaton

/-- The nodes a node leads to without reading. -/
def inPlace (node : Node) : List Nat :=
  node.alt.toList ++ if node.label.isEpsilon then node.next.toList else []

/-- Adds to `seen` what is reached in place from `pending`, in at most `steps` steps. -/
def closureFrom (a : Automaton) : Nat → List Nat → List Nat → List Nat
  | 0, _, seen => seen
  | _ + 1, [], seen => seen
  | steps + 1, id :: pending, seen =>
    match a.nodes[id]? with
    | none => a.closureFrom steps pending seen
    | some node =>
      if seen.contains id then a.closureFrom steps pending seen
      else a.closureFrom steps (inPlace node ++ pending) (id :: seen)

/-- The nodes reached in place from `ids`, those included. A node is expanded once and leads to at
most two others, so there are enough steps for all of them. -/
def closure (a : Automaton) (ids : List Nat) : List Nat :=
  a.closureFrom (ids.length + 2 * a.size) ids []

/-- Whether a match may end in place at one of the nodes. -/
def endsInPlace (a : Automaton) (ids : List Nat) : Bool :=
  ids.any fun id => a.nodes[id]?.any fun node => node.accept && node.label.isEpsilon

/-- The nodes among `ids` that read `byte`. -/
def readers (a : Automaton) (ids : List Nat) (byte : UInt8) : List Node :=
  ids.filterMap fun id => a.nodes[id]?.filter fun node =>
    !node.label.isEpsilon && node.label.contains byte

/-- Follows all paths on from `frontier`, where `read` bytes after the offset `first` have been read
and the longest match so far is `best`. -/
def longestFrom (a : Automaton) (src : Source) (first : Nat) :
    (rounds read : Nat) → (frontier : List Nat) → (best : Option Nat) → Option Nat
  | 0, _, _, best => best
  | rounds + 1, read, frontier, best =>
    let reached := a.closure frontier
    let best := if a.endsInPlace reached then some read else best
    match src.bytes[first + read]? with
    | none => best
    | some byte =>
      let reading := a.readers reached byte
      let best := if reading.any (·.accept) then some (read + 1) else best
      match reading.filterMap (·.next) with
      | [] => best
      | frontier => a.longestFrom src first rounds (read + 1) frontier best

/-- The length of the longest match at a place, if there is any. Each round reads a byte and the
last one finds none, so there is one more of them than bytes. -/
def longestMatch (a : Automaton) (src : Source) (p : Position) : Option Nat :=
  a.root.bind fun root =>
    a.longestFrom src p.offset (src.bytes.size - p.offset + 1) 0 [root] none

end ByteLexer.Automaton
