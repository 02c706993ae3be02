import ByteLexer.Input.Source

/-!
# Cursors

A cursor is a source together with the place it is read at. All cursors made from one another share
their text, so a place one of them reached can be given to any other.
-/

namespace ByteLexer

/-- A source and the place it is being read at. -/
structure Cursor where
  source : Source
  position : Position

namespace Cursor

def ofSource (src : Source) : Cursor := ⟨src, .start⟩

def ofBytes (bytes : Array UInt8) : Cursor := ofSource (.ofBytes bytes)

def peek (c : Cursor) : Option UInt8 := c.source.peek c.position

def advance (c : Cursor) : Cursor := { c with position := c.source.advance c.position }

def seek (c : Cursor) (p : Position) : Cursor := { c with position := c.source.seek p }

def reset (c : Cursor) : Cursor := { c with position := .start }

def atEnd (c : Cursor) : Bool := c.source.atEnd c.position

def offset (c : Cursor) : Nat := c.position.offset

def remaining (c : Cursor) : List UInt8 := c.source.remaining c.position

/-- Reads up to `n` bytes. -/
def skip (c : Cursor) : Nat → Cursor
  | 0 => c
  | n + 1 => if c.atEnd then c else c.advance.skip n

end Cursor

end ByteLexer
