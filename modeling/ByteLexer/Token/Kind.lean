import ByteLexer.Text.Escape

/-!
# Kinds of tokens

Every kind has a code; kinds that belong together share a block of codes, and kinds are ordered by
them. Kinds that are always written the same way are listed in a table with their spelling.
-/

namespace ByteLexer

/-- What a token is. -/
inductive TokenKind where
  -- Literals and names.
  | boolean | integer | real | text | character | identifier
  -- Assignment.
  | assign | bind
  -- Arithmetic.
  | add | sub | mul | div | mod | addAssign | subAssign | mulAssign | divAssign | modAssign
  -- Comparison.
  | eq | ne | gt | ge | lt | le
  -- Bits and shifts.
  | bitNot | bitAnd | bitOr | bitXor | shr | shl | bitAndAssign | bitOrAssign | bitXorAssign
  | shrAssign | shlAssign
  -- Logic.
  | not | and | or | xor | andAssign | orAssign | xorAssign
  -- Member access.
  | member | arrow | atSign
  -- Choice.
  | question
  -- Brackets and separators.
  | parenOpen | parenClose | braceOpen | braceClose | bracketOpen | bracketClose | semicolon
  | comma | colon
  -- Names of types.
  | typeBool | typeInt | typeUint | typeChar | typeStr | typeFunc
  -- Control flow.
  | keyReturn | keyIf | keyElse | keyWhile | keyFor | keyBreak | keyContinue
  -- Comments.
  | comment
deriving DecidableEq

/-- What a kind of token is used for. -/
inductive Category where
  | keyword | identifier | literal | operator | punctuation | comment
deriving DecidableEq

namespace TokenKind

/-- The number of a kind. -/
def code : TokenKind → Nat
  | boolean => 0x10
  | integer => 0x11
  | real => 0x12
  | text => 0x13
  | character => 0x14
  | identifier => 0x15
  | assign => 0x20
  | bind => 0x21
  | add => 0x30
  | sub => 0x31
  | mul => 0x32
  | div => 0x33
  | mod => 0x34
  | addAssign => 0x35
  | subAssign => 0x36
  | mulAssign => 0x37
  | divAssign => 0x38
  | modAssign => 0x39
  | eq => 0x40
  | ne => 0x41
  | gt => 0x42
  | ge => 0x43
  | lt => 0x44
  | le => 0x45
  | bitNot => 0x50
  | bitAnd => 0x51
  | bitOr => 0x52
  | bitXor => 0x53
  | shr => 0x54
  | shl => 0x55
  | bitAndAssign => 0x56
  | bitOrAssign => 0x57
  | bitXorAssign => 0x58
  | shrAssign => 0x59
  | shlAssign => 0x5A
  | not => 0x60
  | and => 0x61
  | or => 0x62
  | xor => 0x63
  | andAssign => 0x64
  | orAssign => 0x65
  | xorAssign => 0x66
  | member => 0x70
  | arrow => 0x71
  | atSign => 0x72
  | question => 0x80
  | parenOpen => 0xA0
  | parenClose => 0xA1
  | braceOpen => 0xA3
  | braceClose => 0xA4
  | bracketOpen => 0xA5
  | bracketClose => 0xA6
  | semicolon => 0xA7
  | comma => 0xA8
  | colon => 0xA9
  | typeBool => 0x100
  | typeInt => 0x101
  | typeUint => 0x102
  | typeChar => 0x103
  | typeStr => 0x104
  | typeFunc => 0x105
  | keyReturn => 0x110
  | keyIf => 0x111
  | keyElse => 0x112
  | keyWhile => 0x113
  | keyFor => 0x114
  | keyBreak => 0x115
  | keyContinue => 0x116
  | comment => 0x200

/-- Kinds are compared by their codes. -/
def cmp (k l : TokenKind) : Ordering := compare k.code l.code

def category : TokenKind → Category
  | identifier => .identifier
  | boolean | integer | real | text | character => .literal
  | parenOpen | parenClose | braceOpen | braceClose | bracketOpen | bracketClose | semicolon
  | comma | colon => .punctuation
  | typeBool | typeInt | typeUint | typeChar | typeStr | typeFunc | keyReturn | keyIf | keyElse
  | keyWhile | keyFor | keyBreak | keyContinue => .keyword
  | comment => .comment
  | _ => .operator

def isKeyword (k : TokenKind) : Bool := k.category = .keyword

/-- Operators and punctuation. -/
def operators : List (String × TokenKind) := [
  ("=", .assign), (":=", .bind), ("+", .add), ("-", .sub), ("*", .mul), ("/", .div), ("%", .mod),
  ("+=", .addAssign), ("-=", .subAssign), ("*=", .mulAssign), ("/=", .divAssign),
  ("%=", .modAssign), ("==", .eq), ("!=", .ne), (">", .gt), (">=", .ge), ("<", .lt), ("<=", .le),
  ("~", .bitNot), ("&", .bitAnd), ("|", .bitOr), ("^", .bitXor), (">>", .shr), ("<<", .shl),
  ("&=", .bitAndAssign), ("|=", .bitOrAssign), ("^=", .bitXorAssign), (">>=", .shrAssign),
  ("<<=", .shlAssign), ("!", .not), ("&&", .and), ("||", .or), ("^^", .xor), ("&&=", .andAssign),
  ("||=", .orAssign), ("^^=", .xorAssign), (".", .member), ("->", .arrow), ("@", .atSign),
  ("?", .question), ("(", .parenOpen), (")", .parenClose), ("\x7b", .braceOpen),
  ("\x7d", .braceClose), ("[", .bracketOpen), ("]", .bracketClose), (";", .semicolon),
  (",", .comma), (":", .colon)]

/-- Names of types and words of control flow. -/
def keywords : List (String × TokenKind) := [
  ("bool", .typeBool), ("int", .typeInt), ("uint", .typeUint), ("char", .typeChar),
  ("str", .typeStr), ("func", .typeFunc), ("return", .keyReturn), ("if", .keyIf),
  ("else", .keyElse), ("while", .keyWhile), ("for", .keyFor), ("break", .keyBreak),
  ("continue", .keyContinue)]

def booleans : List (String × TokenKind) := [("true", .boolean), ("false", .boolean)]

/-- The spelling of a kind that has only one. -/
def symbol? (k : TokenKind) : Option String :=
  ((operators ++ keywords).find? fun (_, kind) => kind = k).map (·.1)

/-- The name a kind is listed under when it has no spelling of its own, or the group of those that
have. -/
def label (k : TokenKind) : String :=
  match k.category with
  | .operator => "op"
  | .punctuation => "punct"
  | .keyword => if k.code < keyReturn.code then "type" else "keyword"
  | .identifier => "identifier"
  | .comment => "comment"
  | .literal =>
    match k with
    | boolean => "boolean"
    | integer => "integer"
    | real => "real"
    | text => "text"
    | _ => "character"

/-- The label, the spelling in brackets if there is one, and the code in hexadecimal. -/
protected def toString (k : TokenKind) : String :=
  let symbol := match k.symbol? with
    | some symbol => "[" ++ symbol ++ "]"
    | none => ""
  k.label ++ symbol ++ "(" ++ Text.hex k.code ++ ")"

instance : ToString TokenKind := ⟨TokenKind.toString⟩

end TokenKind

end ByteLexer
