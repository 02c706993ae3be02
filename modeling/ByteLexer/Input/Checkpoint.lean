import ByteLexer.Input.Position

/-!
# Checkpoints

A checkpoint remembers how far a scan had come, so that a failed attempt can be taken back.
-/

namespace ByteLexer

/-- How far a scan had come: its place and the number of bytes it had kept. -/
structure Checkpoint where
  position : Position
  consumed : Nat
deriving DecidableEq

namespace Checkpoint

/-- The byte offset of the remembered place. -/
def offset (c : Checkpoint) : Nat := c.position.offset

/-- Whether `p` is another place than the remembered one, in line and column as well as offset. -/
def moved (c : Checkpoint) (p : Position) : Bool := decide (c.position ≠ p)

theorem moved_iff (c : Checkpoint) (p : Position) : c.moved p = true ↔ c.position ≠ p := by
  simp [moved]

end Checkpoint

end ByteLexer
