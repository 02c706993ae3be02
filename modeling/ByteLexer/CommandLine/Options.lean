import ByteLexer.Text.Utf8

/-!
# Options of the command line

Arguments are bytes. One that begins with a dash is an option, unless the dash is all of it or a
lone `--` came before; any other is the file to read. Nothing may be given twice, and an expression
and a file exclude one another.
-/

namespace ByteLexer.CommandLine

open Text.Utf8 (encode isValid)

/-- What the command line asks for. -/
structure Options where
  file : Option (List UInt8) := none
  expr : Option (List UInt8) := none
  strict : Bool := false
  comments : Bool := false
  verbose : Bool := false
deriving DecidableEq

/-- What one argument is. -/
inductive Argument where
  /-- The end of the options. -/
  | separator
  | strict
  | comments
  | verbose
  /-- The expression is the next argument. -/
  | exprFollows
  | expr (value : List UInt8)
  | file (path : List UInt8)
  | unknown
deriving DecidableEq

/-- Whether an argument has the form of an option. -/
def isOption (arg : List UInt8) : Bool := (encode "-").isPrefixOf arg && arg.length != 1

/-- What follows `start` in an argument that begins with it. -/
def after? (start : String) (arg : List UInt8) : Option (List UInt8) :=
  if (encode start).isPrefixOf arg then some (arg.drop (encode start).length) else none

/-- The value of an expression written in one argument with its option. -/
def attachedExpr? (arg : List UInt8) : Option (List UInt8) :=
  (after? "--expr=" arg).or ((after? "-e=" arg).or (after? "-e" arg))

def Argument.ofBytes (arg : List UInt8) : Argument :=
  if arg = encode "--" then separator
  else if arg = encode "--strict" then strict
  else if arg = encode "--comments" then comments
  else if arg = encode "--verbose" then verbose
  else if arg = encode "--expr" ∨ arg = encode "-e" then exprFollows
  else if isOption arg then (attachedExpr? arg).elim unknown expr
  else file arg

namespace Options

def withExpr (o : Options) (value : List UInt8) : Option Options :=
  if o.expr.isSome || !isValid value then none else some { o with expr := some value }

def withFile (o : Options) (path : List UInt8) : Option Options :=
  if o.file.isSome || path.isEmpty then none else some { o with file := some path }

/-- Adds files only, as after the end of the options. -/
def parseFiles (o : Options) (args : List (List UInt8)) : Option Options := args.foldlM withFile o

/-- Adds what the arguments ask for; `awaiting` says that the expression comes next. -/
def parseFrom (o : Options) (awaiting : Bool) : List (List UInt8) → Option Options
  | [] => if awaiting then none else some o
  | arg :: rest =>
    if awaiting then
      if isOption arg then none else (o.withExpr arg).bind (·.parseFrom false rest)
    else
      match Argument.ofBytes arg with
      | .separator => o.parseFiles rest
      | .strict => if o.strict then none else { o with strict := true }.parseFrom false rest
      | .comments => if o.comments then none else { o with comments := true }.parseFrom false rest
      | .verbose => if o.verbose then none else { o with verbose := true }.parseFrom false rest
      | .exprFollows => o.parseFrom true rest
      | .expr value => (o.withExpr value).bind (·.parseFrom false rest)
      | .file path => (o.withFile path).bind (·.parseFrom false rest)
      | .unknown => none

/-- The options the arguments ask for, if they are in order. -/
def parse (args : List (List UInt8)) : Option Options :=
  (parseFrom {} false args).filter fun o => !(o.expr.isSome && o.file.isSome)

end Options

end ByteLexer.CommandLine
