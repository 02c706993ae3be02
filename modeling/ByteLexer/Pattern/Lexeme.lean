import ByteLexer.Pattern.Basic

/-!
# Patterns of lexemes

The patterns of numbers, texts, characters, comments and blanks. Numbers are built over a base: the
digits of the base named by a prefix such as `0x`, or decimal digits without one.
-/

namespace ByteLexer.Lexeme

open Pattern
open ByteClass hiding char ofString

/-- The prefixes that name a base, with the base. -/
def basePrefixes : List (String × Nat) := [("0b", 2), ("0q", 4), ("0o", 8), ("0d", 10), ("0x", 16)]

/-- The base that the letter of a prefix names. -/
def baseOfLetter? (letter : UInt8) : Option Nat :=
  (basePrefixes.find? fun (word, _) => (Text.Utf8.encode word)[1]? == some letter).map (·.2)

/-- Digits of a base in groups: `1_000_000`. Underscores that no digit follows are left unread. -/
def digits (base : Nat) : Pattern :=
  oneOrMore (digit base) >> zeroOrMore (attempt (oneOrMore (char '_') >> oneOrMore (digit base)))

/-- What `body` reads in a base, behind the prefix of the base; without a prefix in base ten. -/
def withBase (body : Nat → Pattern) : Pattern :=
  basePrefixes.foldr (fun (word, base) others => attempt (ofString word >> body base) <|> others)
    (body 10)

def optionalSign : Pattern := optional sign

/-- A whole number with an optional sign: `-0x1f`. -/
def integer : Pattern := optionalSign >> withBase digits

def fraction (base : Nat) : Pattern := digits base >> char '.' >> digits base

/-- A number with a point and an optional sign: `+1.5`. -/
def mantissa : Pattern := optionalSign >> withBase fraction

/-- A decimal exponent: `e-9`. -/
def exponent : Pattern := ofClass (.ofString "eE") >> optionalSign >> digits 10

/-- A fraction with an optional exponent, or digits with an exponent. -/
def realDigits (base : Nat) : Pattern :=
  attempt (fraction base) >> optional (attempt exponent) <|> digits base >> exponent

/-- A real number with an optional sign: `1.5`, `6.02e23`, `1e10`. -/
def real : Pattern := optionalSign >> withBase realDigits

/-- One byte, or a backslash with the byte it escapes. -/
def escapedChar : Pattern := notEscape <|> char '\\' >> any

/-- A text between three double quotes, or between one. -/
def text : Pattern :=
  attempt (bracket (ofString "\"\"\"") escapedChar (attempt (ofString "\"\"\""))) <|>
    bracket (char '"') escapedChar (char '"')

def character : Pattern := char '\'' >> escapedChar >> char '\''

/-- Two slashes and what follows, with the line end if there is one. -/
def lineComment : Pattern := bracket (ofString "//") any (newline <|> eof)

/-- What stands between `/*` and the next `*/`. -/
def blockComment : Pattern := bracket (ofString "/*") any (attempt (ofString "*/"))

def comment : Pattern := attempt lineComment <|> attempt blockComment

def identifier : Pattern := ofClass (alpha ∪ .char '_') >> zeroOrMore word

def spaces : Pattern := oneOrMore space

def trivia : Pattern := zeroOrMore (spaces <|> comment)

end ByteLexer.Lexeme
