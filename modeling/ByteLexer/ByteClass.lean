import ByteLexer.Text.Escape
import ByteLexer.Text.Utf8

/-!
# Byte classes

A class is a set of byte values, one bit for each, with a flag that tells the empty class that means
"nothing is read here" from the empty class that means "no byte will do". The lemmas say for each
way of making a class which bytes belong to the result.
-/

namespace ByteLexer

/-- A set of byte values; `isEpsilon` marks the class that stands for reading nothing. -/
structure ByteClass where
  bits : BitVec 256
  isEpsilon : Bool
deriving DecidableEq

/-- All byte values in ascending order. -/
def allBytes : List UInt8 := (List.range 256).map UInt8.ofNat

namespace ByteClass

def empty : ByteClass := ⟨0#256, false⟩

def any : ByteClass := ⟨BitVec.allOnes 256, false⟩

/-- The class that stands for reading nothing. -/
def epsilon : ByteClass := ⟨0#256, true⟩

def contains (c : ByteClass) (byte : UInt8) : Bool := c.bits.getLsbD byte.toNat

def insert (c : ByteClass) (byte : UInt8) : ByteClass :=
  { c with bits := c.bits ||| BitVec.twoPow 256 byte.toNat }

def ofList (bytes : List UInt8) : ByteClass := bytes.foldl insert empty

def single (byte : UInt8) : ByteClass := ofList [byte]

def ofPred (test : UInt8 → Bool) : ByteClass := ofList (allBytes.filter test)

def range (first last : UInt8) : ByteClass := ofPred fun byte => first ≤ byte && byte ≤ last

def ofString (s : String) : ByteClass := ofList (Text.Utf8.encode s)

/-- The byte a character is encoded by, for the characters that have only one. -/
def char (c : Char) : ByteClass := single c.toUInt8

/-- The union stands for reading nothing only if both sides do. -/
def union (c d : ByteClass) : ByteClass := ⟨c.bits ||| d.bits, c.isEpsilon && d.isEpsilon⟩

/-- The difference stands for reading nothing if the left side does. -/
def sdiff (c d : ByteClass) : ByteClass := ⟨c.bits &&& ~~~d.bits, c.isEpsilon⟩

instance : EmptyCollection ByteClass := ⟨empty⟩

instance : Union ByteClass := ⟨union⟩

instance : SDiff ByteClass := ⟨sdiff⟩

/-- The members in ascending order. -/
def toList (c : ByteClass) : List UInt8 := allBytes.filter c.contains

def size (c : ByteClass) : Nat := c.toList.length

def isEmpty (c : ByteClass) : Bool := c.bits = 0#256

/-- A class is shown by its members, and the class that stands for reading nothing by an epsilon. -/
protected def toString (c : ByteClass) : String :=
  if c.isEpsilon then "Atom(ε)" else "Atom[" ++ String.join (c.toList.map Text.escapeByte) ++ "]"

instance : ToString ByteClass := ⟨ByteClass.toString⟩

/-- The number a byte stands for as a digit: the decimal digits, then the letters in either case. -/
def digitValue? (byte : UInt8) : Option Nat :=
  if 48 ≤ byte ∧ byte ≤ 57 then some (byte.toNat - 48)
  else if 97 ≤ byte ∧ byte ≤ 122 then some (byte.toNat - 87)
  else if 65 ≤ byte ∧ byte ≤ 90 then some (byte.toNat - 55)
  else none

/-- The digits of a base. A base below two has none; there are no more than thirty-six of them. -/
def digit (base : Nat) : ByteClass :=
  if base < 2 then ∅ else ofPred fun byte => (digitValue? byte).any (· < base)

def sign : ByteClass := ofString "+-"

def small : ByteClass := range 97 122

def large : ByteClass := range 65 90

def alpha : ByteClass := small ∪ large

def alnum : ByteClass := alpha ∪ digit 10

def space : ByteClass := ofString " \t\r\n"

def newline : ByteClass := ofString "\r\n"

def escape : ByteClass := char '\\'

def notEscape : ByteClass := any \ escape

/-- The bytes an identifier goes on with. -/
def word : ByteClass := alnum ∪ char '_'

@[simp] theorem contains_empty (b : UInt8) : (∅ : ByteClass).contains b = false := by
  simp [contains, EmptyCollection.emptyCollection, empty]

@[simp] theorem contains_epsilon (b : UInt8) : epsilon.contains b = false := by
  simp [contains, epsilon]

@[simp] theorem contains_any (b : UInt8) : any.contains b = true := by
  exact BitVec.getLsbD_allOnes.trans (decide_eq_true (UInt8.toNat_lt b))

@[simp] theorem contains_insert (c : ByteClass) (byte b : UInt8) :
    (c.insert byte).contains b = (decide (b = byte) || c.contains b) := by
  have h : b.toNat = byte.toNat ↔ b = byte := UInt8.toNat_inj
  simp [contains, insert, UInt8.toNat_lt b, h, Bool.or_comm]

theorem contains_foldl_insert (bytes : List UInt8) (c : ByteClass) (b : UInt8) :
    (bytes.foldl insert c).contains b = (bytes.contains b || c.contains b) := by
  induction bytes generalizing c with
  | nil => simp
  | cons byte bytes ih => simp [ih, Bool.or_assoc, Bool.or_left_comm]

@[simp] theorem contains_ofList (bytes : List UInt8) (b : UInt8) :
    (ofList bytes).contains b = bytes.contains b := by
  rw [ofList, contains_foldl_insert]
  simp [contains, empty]

@[simp] theorem isEpsilon_ofList (bytes : List UInt8) : (ofList bytes).isEpsilon = false := by
  have hfold : ∀ c : ByteClass, (bytes.foldl insert c).isEpsilon = c.isEpsilon := by
    induction bytes with
    | nil => exact fun c => rfl
    | cons byte bytes ih => exact fun c => ih (c.insert byte)
  exact hfold empty

theorem mem_allBytes (b : UInt8) : b ∈ allBytes :=
  List.mem_map.2 ⟨b.toNat, List.mem_range.2 (UInt8.toNat_lt b), UInt8.ofNat_toNat⟩

@[simp] theorem contains_ofPred (test : UInt8 → Bool) (b : UInt8) :
    (ofPred test).contains b = test b := by
  simp [ofPred, mem_allBytes]

@[simp] theorem contains_single (byte b : UInt8) :
    (single byte).contains b = decide (b = byte) := by
  simp [single]

@[simp] theorem contains_range (first last b : UInt8) :
    (range first last).contains b = (first ≤ b && b ≤ last) := by
  simp [range]

@[simp] theorem contains_union (c d : ByteClass) (b : UInt8) :
    (c ∪ d).contains b = (c.contains b || d.contains b) := by
  simp [contains, Union.union, union]

@[simp] theorem contains_sdiff (c d : ByteClass) (b : UInt8) :
    (c \ d).contains b = (c.contains b && !d.contains b) := by
  simp [contains, SDiff.sdiff, sdiff, UInt8.toNat_lt b]

@[simp] theorem mem_toList (c : ByteClass) (b : UInt8) : b ∈ c.toList ↔ c.contains b = true := by
  simp [toList, mem_allBytes]

end ByteClass

end ByteLexer
