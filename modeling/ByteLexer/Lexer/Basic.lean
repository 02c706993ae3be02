import ByteLexer.Input.Cursor
import ByteLexer.Lexer.DefaultRules

/-!
# The lexer

A lexer skips blanks and comments, lets its rules read a token from there, and goes on until there
is none. The stream of tokens ends at the first place where no rule reads anything; under the
strict policy it is an error if input is left there.
-/

namespace ByteLexer

/-- Input that no rule reads, and where it is. -/
structure Unmatched where
  sourceName : String
  position : Position
  byte : UInt8
deriving DecidableEq

def Unmatched.message (e : Unmatched) : String :=
  e.sourceName ++ ":" ++ toString e.position ++ ": no rule matches byte 0x" ++ Text.hexByte e.byte

/-- Rules at work on a source. -/
structure Lexer where
  cursor : Cursor
  rules : List Rule
  settings : Settings

namespace Lexer

/-- A lexer that tries `rules` by falling priority. -/
def ofRules (cursor : Cursor) (rules : List Rule) (settings : Settings) : Lexer :=
  ⟨cursor, Rule.byPriority rules, settings⟩

/-- A lexer with the default rules. -/
def ofCursor (cursor : Cursor) (settings : Settings) : Lexer :=
  ofRules cursor (Rule.defaults settings) settings

/-- A lexer with the default rules before the first byte of a text, named as the settings say. -/
def ofBytes (bytes : Array UInt8) (settings : Settings) : Lexer :=
  ofCursor (.ofSource ⟨settings.sourceName, bytes⟩) settings

/-- The lexer at another place of its source. -/
def moveTo (l : Lexer) (p : Position) : Lexer := { l with cursor.position := p }

/-- What is skipped before a token. -/
def skipped (settings : Settings) : Pattern :=
  if settings.keepComments then Lexeme.spaces else Lexeme.trivia

/-- Goes to where the next token may begin. -/
def skipTrivia (l : Lexer) : Lexer :=
  l.moveTo ((skipped l.settings).recognize l.cursor.source l.cursor.position).2

/-- Lets the rules read a token right here. -/
def readToken (l : Lexer) : Option Token × Lexer :=
  let (token, stop) := Rule.firstMatch l.cursor.source l.cursor.position l.rules
  (token, l.moveTo stop)

/-- The next token that a rule reads, even an empty one. -/
def nextToken (l : Lexer) : Option Token × Lexer := l.skipTrivia.readToken

/-- The next token of the stream. A token that ends where it begins ends the stream. -/
def next (l : Lexer) : Option Token × Lexer :=
  let l := l.skipTrivia
  let (token, l') := l.readToken
  (if l'.cursor.offset = l.cursor.offset then none else token, l')

/-- The tokens of the stream, at most `rounds` of them. -/
def collect : Nat → Lexer → List Token × Lexer
  | 0, l => ([], l)
  | rounds + 1, l =>
    match l.next with
    | (some token, l) =>
      let (tokens, l) := collect rounds l
      (token :: tokens, l)
    | (none, l) => ([], l)

/-- All tokens of the stream and where it ends. Every token has a byte, so there are no more tokens
than bytes left. -/
def tokens (l : Lexer) : List Token × Lexer :=
  l.collect (l.cursor.source.bytes.size - l.cursor.offset + 1)

/-- All tokens of the stream, or the input it ended before if that is an error. -/
def tokenize (l : Lexer) : Except Unmatched (List Token) × Lexer :=
  let (tokens, l) := l.tokens
  match l.cursor.peek, l.settings.unmatched with
  | some byte, .error => (.error ⟨l.cursor.source.name, l.cursor.position, byte⟩, l)
  | _, _ => (.ok tokens, l)

end Lexer

/-- The tokens of a text under the default rules and settings. -/
def tokenize (bytes : Array UInt8) : List Token := (Lexer.ofBytes bytes {}).tokens.1

end ByteLexer
