import ByteLexer.Input.Position
import ByteLexer.Text.Utf8
import ByteLexer.Token.Kind

/-!
# Tokens

A token is a piece of a text with what it is and where it begins.
-/

namespace ByteLexer

/-- A piece of a text: its kind, the place of its first byte, and what is written there. -/
structure Token where
  kind : TokenKind
  position : Position
  lexeme : String
deriving DecidableEq

namespace Token

/-- The token of some bytes; what is no text among them is replaced. -/
def ofBytes (kind : TokenKind) (position : Position) (bytes : List UInt8) : Token :=
  ⟨kind, position, Text.Utf8.decodeLossy bytes⟩

/-- The length of the lexeme in bytes. -/
def size (t : Token) : Nat := t.lexeme.utf8ByteSize

def isEmpty (t : Token) : Bool := t.size == 0

/-- The kind and the lexeme, with a colon between them. -/
protected def toString (t : Token) : String := toString t.kind ++ ":" ++ t.lexeme

instance : ToString Token := ⟨Token.toString⟩

end Token

end ByteLexer
