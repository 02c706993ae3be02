import ByteLexer.Pattern.Lexeme
import ByteLexer.Token.Basic

/-!
# Rules

A rule tries to read one token at a place. It may be asked first whether the next byte alone rules
it out, and wherever it stops when it has no token is of no concern: the lexer goes back. Rules are
tried by falling priority, those of equal priority in the order they were given.
-/

namespace ByteLexer

/-- A way to read a token. -/
structure Rule where
  priority : Int := 0
  /-- Whether the rule can match before this byte; nothing is known when there is no answer. -/
  quickCheck : Option UInt8 → Option Bool := fun _ => none
  /-- The token at a place, if there is one, and where the rule stopped. -/
  tryMatch : Source → Position → Option Token × Position

namespace Rule

/-- Answers by the class of bytes a match can begin with. -/
def startsWith (first : ByteClass) (next : Option UInt8) : Option Bool := next.map first.contains

/-- Makes what a pattern keeps a token of one kind. -/
def tokenOf (kind : TokenKind) (p : Pattern) (src : Source) (pos : Position) :
    Option Token × Position :=
  match p.recognize src pos with
  | (some bytes, stop) => (some (.ofBytes kind pos bytes.toList), stop)
  | (none, stop) => (none, stop)

/-- The longest of some words, as a token of the kind listed with it. With `wholeWords` a word that
goes straight on with a word byte is not taken. -/
def ofTable (words : List (List UInt8 × TokenKind)) (wholeWords : Bool) (priority : Int) : Rule :=
  let table := KeywordTable.ofList words
  let first := ByteClass.ofList (words.filterMap (·.1.head?))
  { priority
    quickCheck := startsWith first
    tryMatch := fun src pos =>
      match table.find src (.fresh pos) with
      | (some kind, s) =>
        if wholeWords && (src.peek s.position).any ByteClass.word.contains then (none, src.seek pos)
        else (some (.ofBytes kind pos s.kept.toList), s.position)
      | (none, s) => (none, s.position) }

/-- What a pattern reads, going back if it fails. -/
def ofPattern (kind : TokenKind) (p : Pattern) (priority : Int) (first : Option ByteClass := none) :
    Rule :=
  { priority
    quickCheck := fun next => first.bind (startsWith · next)
    tryMatch := tokenOf kind p.attempt }

/-- The longest match of an automaton, unless it is empty. -/
def ofAutomaton (kind : TokenKind) (a : Automaton) (priority : Int) : Rule :=
  { priority
    tryMatch := fun src pos =>
      match (Pattern.automaton a).recognize src pos with
      | (some bytes, stop) =>
        (if bytes.isEmpty then none else some (.ofBytes kind pos bytes.toList), stop)
      | (none, stop) => (none, stop) }

/-- What a pattern reads, stopping wherever it fails. -/
def unguarded (kind : TokenKind) (p : Pattern) : Rule := { tryMatch := tokenOf kind p }

/-- Puts a rule before all that have no higher priority. -/
def insertByPriority (r : Rule) : List Rule → List Rule
  | [] => [r]
  | q :: rest => if q.priority ≤ r.priority then r :: q :: rest else q :: insertByPriority r rest

/-- The rules by falling priority; those of equal priority stay in their order. -/
def byPriority (rules : List Rule) : List Rule := rules.foldr insertByPriority []

/-- The token of the first rule that is not ruled out by the next byte and has one, with the place
after it; without a token the place is the one the search began at. -/
def firstMatch (src : Source) (pos : Position) : List Rule → Option Token × Position
  | [] => (none, pos)
  | r :: rest =>
    if r.quickCheck (src.peek pos) = some false then firstMatch src pos rest
    else
      match r.tryMatch src pos with
      | (some token, stop) => (some token, stop)
      | (none, _) => firstMatch src pos rest

end Rule

end ByteLexer
