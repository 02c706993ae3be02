/-!
# Positions

Places in a text. Reading a byte moves a place, and only the byte `\n` begins a new line. The place
reached over several bytes is the place reached over the first of them and then over the rest.
-/

namespace ByteLexer

/-- A place in a text: line and column counted from one, the byte offset from zero. -/
structure Position where
  line : Nat
  column : Nat
  offset : Nat
deriving DecidableEq

namespace Position

/-- The place before the first byte of a text. -/
def start : Position := ⟨1, 1, 0⟩

/-- The place after reading `byte`. -/
def advance (p : Position) (byte : UInt8) : Position :=
  if byte = 10 then ⟨p.line + 1, 1, p.offset + 1⟩ else ⟨p.line, p.column + 1, p.offset + 1⟩

/-- The place after reading all of `bytes`. -/
def advanceOver (p : Position) (bytes : List UInt8) : Position :=
  bytes.foldl advance p

/-- Neither the line nor the column is further on than the offset, which starts one behind them. -/
structure Measured (p : Position) : Prop where
  line : p.line ≤ p.offset + 1
  column : p.column ≤ p.offset + 1

/-- Line, column and offset are numbers of sixty-four bits. -/
structure FitsWords (p : Position) : Prop where
  line : p.line ≤ 0xFFFFFFFFFFFFFFFF
  column : p.column ≤ 0xFFFFFFFFFFFFFFFF
  offset : p.offset ≤ 0xFFFFFFFFFFFFFFFF

/-- The written form `line:column`. -/
protected def toString (p : Position) : String :=
  toString p.line ++ ":" ++ toString p.column

instance : ToString Position := ⟨Position.toString⟩

@[simp] theorem offset_advance (p : Position) (byte : UInt8) :
    (p.advance byte).offset = p.offset + 1 := by
  unfold advance
  split <;> rfl

@[simp] theorem advanceOver_nil (p : Position) : p.advanceOver [] = p := rfl

@[simp] theorem advanceOver_cons (p : Position) (byte : UInt8) (bytes : List UInt8) :
    p.advanceOver (byte :: bytes) = (p.advance byte).advanceOver bytes := rfl

theorem advanceOver_append (p : Position) (xs ys : List UInt8) :
    p.advanceOver (xs ++ ys) = (p.advanceOver xs).advanceOver ys :=
  List.foldl_append

@[simp] theorem offset_advanceOver (p : Position) (bytes : List UInt8) :
    (p.advanceOver bytes).offset = p.offset + bytes.length := by
  induction bytes generalizing p with
  | nil => rfl
  | cons byte bytes ih => simp [ih]; omega

theorem measured_start : start.Measured := ⟨Nat.le_refl 1, Nat.le_refl 1⟩

theorem Measured.advance {p : Position} (h : p.Measured) (byte : UInt8) :
    (p.advance byte).Measured := by
  have hline := h.line
  have hcolumn := h.column
  unfold Position.advance
  split
  · exact ⟨Nat.succ_le_succ hline, Nat.succ_le_succ (Nat.zero_le _)⟩
  · exact ⟨Nat.le_succ_of_le hline, Nat.succ_le_succ hcolumn⟩

/-- A byte adds one to the offset, and to a line or a column no more than that. -/
theorem Measured.advanceOver {p : Position} (h : p.Measured) (bytes : List UInt8) :
    (p.advanceOver bytes).Measured := by
  induction bytes generalizing p with
  | nil => exact h
  | cons byte bytes ih => exact ih (h.advance byte)

end Position

end ByteLexer
