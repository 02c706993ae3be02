import ByteLexer.CommandLine.Options
import ByteLexer.Lexer.Basic

/-!
# What the command line prints

An expression or a file is tokenized as a whole, standard input line by line with each line a text
of its own. Tokens are printed one to a line, and the first failure ends the output.
-/

namespace ByteLexer.CommandLine

/-- What is printed, and the failure that ended it, if one did. -/
structure Report where
  output : String
  failure : Option String := none
deriving DecidableEq

namespace Report

def after (text : String) (r : Report) : Report := { r with output := text ++ r.output }

/-- Zero unless something failed. -/
def exitCode (r : Report) : Nat := if r.failure.isSome then 1 else 0

end Report

/-- The exit code for arguments that are not in order. -/
def usageExitCode : Nat := 2

/-- The lines of a text, of which `current` holds in reverse what has been read of the first one. A
line ends before its line feed, and before a carriage return ahead of that. -/
def linesFrom (current : List UInt8) : List UInt8 → List (List UInt8)
  | [] => if current.isEmpty then [] else [current.reverse]
  | byte :: rest =>
    if byte = 10 then
      (if current.head? = some 13 then current.tail else current).reverse :: linesFrom [] rest
    else linesFrom (byte :: current) rest

def lines (text : List UInt8) : List (List UInt8) := linesFrom [] text

/-- The lexer settings the options ask for. -/
def Options.settings (o : Options) (sourceName : String) : Settings :=
  { unmatched := if o.strict then .error else .stop
    keepComments := o.comments
    sourceName }

/-- Prints the tokens of a text, or nothing if it cannot be tokenized. -/
def printTokens (settings : Settings) (text : List UInt8) : Report :=
  match (Lexer.ofBytes text.toArray settings).tokenize.1 with
  | .ok tokens => { output := String.join (tokens.map fun t => toString t ++ "\n") }
  | .error e => { output := "", failure := some e.message }

/-- Prints the tokens of one line after the other, the first of them being line `number`. -/
def printLines (o : Options) : (number : Nat) → List (List UInt8) → Report
  | _, [] => { output := "" }
  | number, line :: rest =>
    if Text.Utf8.isValid line then
      let first := printTokens (o.settings ("<stdin>:" ++ toString number)) line
      if first.failure.isSome then first else (printLines o (number + 1) rest).after first.output
    else { output := "", failure := some "failed to read stdin" }

/-- Prints the tokens of a file, which has to be text. -/
def printFile (o : Options) (path : List UInt8) (contents : Option (List UInt8)) : Report :=
  let name := Text.Utf8.decodeLossy path
  match contents.filter Text.Utf8.isValid with
  | some text => printTokens (o.settings name) text
  | none => { output := "", failure := some ("failed to read " ++ name) }

/-- Does what the options ask for, given the files there are and the standard input. -/
def report (o : Options) (contentsOf : List UInt8 → Option (List UInt8)) (stdin : List UInt8) :
    Report :=
  match o.expr, o.file with
  | some text, _ => printTokens (o.settings "<expr>") text
  | none, some path => printFile o path (contentsOf path)
  | none, none => printLines o 1 (lines stdin)

end ByteLexer.CommandLine
