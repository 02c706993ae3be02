import ByteLexer.CommandLine.Report
import ByteLexer.Proofs.EndOfStream
import ByteLexer.Proofs.Utf8

/-!
# Standard input line by line

Standard input is split at its line feeds, and what is printed of a line is what is printed of it
as an expression: a lexer never looks at the name of its text, so a line of another name has the
same tokens, and no more than the name in its error is another. The first line that fails ends the
output, and the lines before it stay printed.
-/

namespace ByteLexer

variable {src : Source} {settings : Settings} {pos : Position} {rules : List Rule} {n : Nat}
  {l : Lexer}

namespace Lexer

end Lexer

namespace CommandLine

section Lines

variable {line text current : List UInt8} {lns : List (List UInt8)}

/-- An empty line, and a last one whose carriage return no line feed follows. -/
example : lines [120, 13, 10, 10, 121, 13] = [[120], [], [121, 13]] := by decide

end Lines

section Reports

variable {o : Options} {line : List UInt8} {lns : List (List UInt8)} {e : Unmatched}
  {tokens : List Token}

end Reports

/-- No rule matches the second byte of the second line: under the strict policy this ends the
report. -/
example : report { strict := true } (fun _ => none) (Text.Utf8.encode "x\n # y\nz\n") =
    ⟨"identifier(15):x\n", some "<stdin>:2:1:2: no rule matches byte 0x23"⟩ := by decide +kernel

/-- The second line is not text, which ends the report under any policy. -/
example : report {} (fun _ => none) [120, 10, 255, 10, 121] =
    ⟨"identifier(15):x\n", some "failed to read stdin"⟩ := by decide +kernel

end CommandLine

end ByteLexer
