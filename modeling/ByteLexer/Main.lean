import ByteLexer.CommandLine.Report

/-!
# The command line

Reads the arguments and the input they name, prints the report, and exits with its code.
-/

namespace ByteLexer.CommandLine

/-- Everything a stream still holds. -/
partial def readAll (stream : IO.FS.Stream) (read : ByteArray) : IO ByteArray := do
  let chunk ← stream.read 65536
  if chunk.isEmpty then return read
  readAll stream (read ++ chunk)

/-- The bytes of a file, if it can be read. -/
def readFile? (path : String) : IO (Option (List UInt8)) := do
  try
    let contents ← IO.FS.readBinFile path
    return some contents.data.toList
  catch _ => return none

end ByteLexer.CommandLine

open ByteLexer CommandLine in
def main (args : List String) : IO UInt32 := do
  match Options.parse (args.map Text.Utf8.encode) with
  | none =>
    IO.eprintln "usage: [FILE] [-e|--expr EXPR] [--strict] [--comments] [--verbose]"
    return usageExitCode.toUInt32
  | some options =>
    let contents ← match options.file with
      | some path => readFile? (Text.Utf8.decodeLossy path)
      | none => pure none
    let stdin ←
      if options.file.isNone && options.expr.isNone then readAll (← IO.getStdin) .empty
      else pure .empty
    let result := report options (fun _ => contents) stdin.data.toList
    IO.print result.output
    if let some failure := result.failure then IO.eprintln ("Error: " ++ failure)
    return result.exitCode.toUInt32
