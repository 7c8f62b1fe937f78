import TubePreamp.FrontEnds

/-!
The program: standard input and output around the command.
-/

partial def readToEnd (stream : IO.FS.Stream) (bytes : ByteArray) : IO ByteArray := do
  let chunk ← stream.read 65536
  if chunk.isEmpty then return bytes
  readToEnd stream (bytes ++ chunk)

def main (args : List String) : IO UInt32 := do
  let input ← readToEnd (← IO.getStdin) .empty
  let report := TubePreamp.CommandLine.run args input.toList
  let output ← IO.getStdout
  output.write ⟨report.output.toArray⟩
  output.flush
  match report.verdict.errorText with
  | some text => IO.eprintln text
  | none => pure ()
  return report.verdict.exitCode.toUInt32
