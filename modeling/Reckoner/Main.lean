import Reckoner.CommandLine.Program

/-!
# Entry point

Hands the arguments and standard input to the program and writes out its transcript.
-/
namespace Reckoner

partial def readAll (stream : IO.FS.Stream) (read : ByteArray) : IO ByteArray := do
  let chunk ← stream.read 65536
  if chunk.isEmpty then return read else readAll stream (read ++ chunk)

end Reckoner

def main (arguments : List String) : IO UInt32 := do
  let invocation := Reckoner.CommandLine.Invocation.ofArguments arguments
  let input ←
    if invocation.readsInput then Reckoner.readAll (← IO.getStdin) .empty else pure .empty
  let transcript := invocation.run input.toList
  (← IO.getStdout).putStr transcript.stdout
  (← IO.getStderr).putStr transcript.stderr
  return transcript.code.toUInt32
