import ByteLexer.Input.Source

/-!
# Settings of a lexer

What a lexer does with comments and with input that no rule reads, and the name its input goes by.
-/

namespace ByteLexer

/-- What becomes of input that no rule reads. -/
inductive UnmatchedInput where
  /-- The tokens end before it. -/
  | stop
  /-- It is an error. -/
  | error
deriving DecidableEq

/-- The settings of a lexer. -/
structure Settings where
  unmatched : UnmatchedInput := .stop
  /-- Whether comments are tokens; otherwise they are skipped like blanks. -/
  keepComments : Bool := false
  sourceName : String := Source.unnamed
deriving DecidableEq

/-- The settings under which input that no rule reads is an error. -/
def Settings.strict : Settings := { unmatched := .error }

end ByteLexer
