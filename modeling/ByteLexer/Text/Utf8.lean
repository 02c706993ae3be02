/-!
# UTF-8

UTF-8 read one byte at a time. `State.step` is the one machine behind both readers: `isValid` asks
whether it gets from between two characters to between two characters, and `decodeLossy` also says
what comes out when it does not: each longest run of bytes that begins a character without
finishing it becomes one replacement character.
-/

namespace ByteLexer.Text.Utf8

/-- The bytes of a string. -/
def encode (s : String) : List UInt8 := s.toUTF8.data.toList

/-- Where a reader of UTF-8 stands. -/
inductive State where
  /-- Between two characters. -/
  | ready
  /-- One continuation byte is owed. -/
  | owesOne
  /-- Two continuation bytes are owed. -/
  | owesTwo
  /-- Three continuation bytes are owed. -/
  | owesThree
  /-- After `E0`: two are owed, the first at least `A0`. -/
  | afterE0
  /-- After `ED`: two are owed, the first at most `9F`. -/
  | afterED
  /-- After `F0`: three are owed, the first at least `90`. -/
  | afterF0
  /-- After `F4`: three are owed, the first at most `8F`. -/
  | afterF4
deriving DecidableEq

namespace State

/-- The state after the first byte of a character. -/
def lead (byte : UInt8) : Option State :=
  if byte < 0x80 then some ready
  else if byte < 0xC2 then none
  else if byte < 0xE0 then some owesOne
  else if byte = 0xE0 then some afterE0
  else if byte = 0xED then some afterED
  else if byte < 0xF0 then some owesTwo
  else if byte = 0xF0 then some afterF0
  else if byte < 0xF4 then some owesThree
  else if byte = 0xF4 then some afterF4
  else none

/-- The state after one more byte, if a character can go on with it. -/
def step (q : State) (byte : UInt8) : Option State :=
  match q with
  | ready => lead byte
  | owesOne => if 0x80 ≤ byte ∧ byte < 0xC0 then some ready else none
  | owesTwo => if 0x80 ≤ byte ∧ byte < 0xC0 then some owesOne else none
  | owesThree => if 0x80 ≤ byte ∧ byte < 0xC0 then some owesTwo else none
  | afterE0 => if 0xA0 ≤ byte ∧ byte < 0xC0 then some owesOne else none
  | afterED => if 0x80 ≤ byte ∧ byte < 0xA0 then some owesOne else none
  | afterF0 => if 0x90 ≤ byte ∧ byte < 0xC0 then some owesTwo else none
  | afterF4 => if 0x80 ≤ byte ∧ byte < 0x90 then some owesTwo else none

/-- The state after all of `bytes`, if they can be read. -/
def run (q : State) : List UInt8 → Option State
  | [] => some q
  | byte :: rest => (q.step byte).bind (run · rest)

/-- What the first byte of a character adds to its number, given the state it leads to. -/
def leadValue (q : State) (byte : UInt8) : Nat :=
  match q with
  | ready => byte.toNat
  | owesOne => byte.toNat % 32
  | owesTwo | afterE0 | afterED => byte.toNat % 16
  | owesThree | afterF0 | afterF4 => byte.toNat % 8

theorem run_append (q : State) (xs ys : List UInt8) :
    q.run (xs ++ ys) = (q.run xs).bind (run · ys) := by
  induction xs generalizing q with
  | nil => rfl
  | cons byte rest ih => cases h : q.step byte <;> simp [run, h, ih]

end State

/-- Whether the bytes are the UTF-8 of some text. -/
def isValid (bytes : List UInt8) : Bool := State.ready.run bytes = some .ready

/-- The character that stands for bytes that are no text. -/
def replacement : Char := '\uFFFD'

/-- What `byte` gives at the beginning of a character: what is then finished, and where the reader
stands with which value. -/
def beginChar (byte : UInt8) : List Char × State × Nat :=
  match State.lead byte with
  | some .ready => ([Char.ofUInt8 byte], .ready, 0)
  | some q => ([], q, q.leadValue byte)
  | none => ([replacement], .ready, 0)

/-- What `byte` gives inside a character of which `value` has been read. A byte that cannot go on
with it cuts it short and begins the next one. -/
def continueChar (q : State) (value : Nat) (byte : UInt8) : List Char × State × Nat :=
  match q.step byte with
  | some .ready => ([Char.ofNat (value * 64 + byte.toNat % 64)], .ready, 0)
  | some q' => ([], q', value * 64 + byte.toNat % 64)
  | none => (replacement :: (beginChar byte).1, (beginChar byte).2)

/-- Reads on from a state in which the character being read has the value `value` so far. -/
def decodeFrom (q : State) (value : Nat) : List UInt8 → List Char
  | [] => if q = .ready then [] else [replacement]
  | byte :: rest =>
    let (done, q', value') := if q = .ready then beginChar byte else continueChar q value byte
    done ++ decodeFrom q' value' rest

/-- The text of the bytes, with a replacement character for each part that is no text. -/
def decodeLossy (bytes : List UInt8) : String := String.ofList (decodeFrom .ready 0 bytes)

end ByteLexer.Text.Utf8
