/-!
# Written forms of bytes

Written forms of single bytes and small numbers: printable ASCII stands for itself, everything else
is escaped, and numbers are written in lower-case hexadecimal.
-/

namespace ByteLexer.Text

/-- A number in hexadecimal, without leading zeros. -/
def hex (n : Nat) : String := String.ofList (Nat.toDigits 16 n)

/-- A byte as two hexadecimal digits. -/
def hexByte (byte : UInt8) : String :=
  String.ofList [Nat.digitChar (byte.toNat / 16), Nat.digitChar (byte.toNat % 16)]

/-- A byte as it is written inside quotes: tab, line ends, quotes and the backslash have short
escapes, and what is not printable ASCII is written by its number. -/
def escapeByte (byte : UInt8) : String :=
  if byte = 9 then "\\t"
  else if byte = 10 then "\\n"
  else if byte = 13 then "\\r"
  else if byte = 34 then "\\\""
  else if byte = 39 then "\\'"
  else if byte = 92 then "\\\\"
  else if 32 ≤ byte ∧ byte < 127 then String.singleton (Char.ofUInt8 byte)
  else "\\x" ++ hexByte byte

end ByteLexer.Text
