/-
The program itself: takes the arguments and standard input, and prints the answer.
-/
import FieldQuery.CommandLine.Program

namespace FieldQuery.CommandLine

/-- The bytes of a stream up to its end, after those already read. -/
partial def readAll (stream : IO.FS.Stream) (bytes : ByteArray) : IO ByteArray := do
  let chunk ← stream.read 65536
  if chunk.isEmpty then return bytes else readAll stream (bytes ++ chunk)

/-- The bytes of standard input, if a command needs them and it is no terminal. -/
def standardInput (arguments : List String) : IO (Option ByteArray) := do
  let stdin ← IO.getStdin
  let needed := ((Command.ofArguments? arguments).map Command.readsStandardInput).getD false
  if needed && !(← stdin.isTty) then return some (← readAll stdin ByteArray.empty)
  return none

end FieldQuery.CommandLine

open FieldQuery.CommandLine in
def main (arguments : List String) : IO UInt32 := do
  let answer := run arguments (← standardInput arguments)
  IO.print answer.output
  IO.eprint answer.errors
  return answer.code.toUInt32
