import ByteLexer.Automaton.Algebra
import ByteLexer.Lexer.Rule
import ByteLexer.Lexer.Settings

/-!
# The default rules

The rules of the default tokens with their priorities: comments before operators, keywords before
identifiers, real numbers before whole ones.
-/

namespace ByteLexer.Rule

open ByteClass (alpha char digit sign word)

/-- A table of words as bytes. -/
def spellings (table : List (String × TokenKind)) : List (List UInt8 × TokenKind) :=
  table.map fun (text, kind) => (Text.Utf8.encode text, kind)

def comment : Rule := ofPattern .comment Lexeme.comment 90 (char '/')

def keywords : Rule := ofTable (spellings TokenKind.keywords) true 80

def operators : Rule := ofTable (spellings TokenKind.operators) false 70

def real : Rule := ofPattern .real Lexeme.real 60 (some (digit 10 ∪ sign))

def booleans : Rule := ofTable (spellings TokenKind.booleans) true 50

def integer : Rule := ofPattern .integer Lexeme.integer 40 (some (digit 10 ∪ sign))

def text : Rule := ofPattern .text Lexeme.text 30 (char '"')

def character : Rule := ofPattern .character Lexeme.character 20 (char '\'')

/-- A letter or an underscore and the word bytes after it. -/
def identifierAutomaton : Automaton := .ofClass (alpha ∪ char '_') ++ (Automaton.ofClass word).star

def identifier : Rule := ofAutomaton .identifier identifierAutomaton 10

/-- The default rules, with the rule for comments if they are to be tokens. -/
def defaults (settings : Settings) : List Rule :=
  [keywords, operators, real, booleans, integer, text, character, identifier] ++
    if settings.keepComments then [comment] else []

end ByteLexer.Rule
