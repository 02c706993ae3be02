import ByteLexer.Input.Position

/-!
# Sources

Named texts, read at a place. Nothing here changes a source: reading gives the next place. `peek` at
a place is the head of what remains there, so two sources agree on everything ahead of two places as
soon as their remainders agree.
-/

namespace ByteLexer

/-- A text to be read, under the name that reports give it. -/
structure Source where
  name : String
  bytes : Array UInt8

namespace Source

def unnamed : String := "<input>"

def ofBytes (bytes : Array UInt8) : Source := ⟨unnamed, bytes⟩

/-- The next byte at a place, if any is left. -/
def peek (src : Source) (p : Position) : Option UInt8 := src.bytes[p.offset]?

/-- The place after the next byte; the end of the text is not left. -/
def advance (src : Source) (p : Position) : Position :=
  match src.peek p with
  | some byte => p.advance byte
  | none => p

def atEnd (src : Source) (p : Position) : Bool := (src.peek p).isNone

/-- The bytes from a place to the end of the text. -/
def remaining (src : Source) (p : Position) : List UInt8 := src.bytes.toList.drop p.offset

/-- The bytes between two offsets, as far as the text has them. -/
def slice (src : Source) (first last : Nat) : Array UInt8 := src.bytes.extract first last

def endPosition (src : Source) : Position := Position.start.advanceOver src.bytes.toList

/-- The place to go to when `p` is asked for: the end of the text stands in for every place past
it. -/
def seek (src : Source) (p : Position) : Position :=
  if src.bytes.size < p.offset then src.endPosition else p

theorem peek_eq_head? (src : Source) (p : Position) : src.peek p = (src.remaining p).head? := by
  simp [peek, remaining]

theorem length_remaining (src : Source) (p : Position) :
    (src.remaining p).length = src.bytes.size - p.offset := by
  simp [remaining]

@[simp] theorem offset_endPosition (src : Source) : src.endPosition.offset = src.bytes.size := by
  simp [endPosition, Position.start]

theorem offset_seek_le (src : Source) (p : Position) : (src.seek p).offset ≤ src.bytes.size := by
  unfold seek
  split
  · simp
  · omega

theorem seek_of_le {src : Source} {p : Position} (h : p.offset ≤ src.bytes.size) :
    src.seek p = p :=
  if_neg (by omega)

/-- Reading one byte takes it off the front of what remains. -/
theorem remaining_advance (src : Source) (p : Position) :
    src.remaining (src.advance p) = (src.remaining p).tail := by
  unfold advance
  split
  · simp [remaining, List.tail_drop]
  · next h =>
    rw [peek_eq_head?, List.head?_eq_none_iff] at h
    simp [h]

/-- Where a byte is left, reading it moves the place, and that is inside the text. -/
theorem offset_advance_of_peek {src : Source} {p : Position} {byte : UInt8}
    (h : src.peek p = some byte) :
    (src.advance p).offset = p.offset + 1 ∧ p.offset < src.bytes.size := by
  constructor
  · rw [advance, h]
    exact Position.offset_advance p byte
  · exact (Array.getElem?_eq_some_iff.mp h).1

end Source

end ByteLexer
