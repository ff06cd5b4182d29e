import SeqPattern.Cli.MatchTool
import SeqPattern.Cli.RpnTool
import SeqPattern.Cli.PredictTool
/-!
# Command line

`seqpattern TOOL ARGS...` runs one of the three tools, `match`, `predict` or
`postfix`, on the real machine: it gathers what the tool may look at (the
environment variables it reads, standard input when the tool reads it, and the
candidate store files that can be read, with the directories their paths pass
through), runs the tool, and writes its output.
-/

section CommandLine

open SeqPattern SeqPattern.Cli

/-- Reads a stream to its end. -/
partial def readAll (s : IO.FS.Stream) (acc : ByteArray) : IO ByteArray := do
  let chunk ← s.read 65536
  if chunk.isEmpty then return acc else readAll s (acc ++ chunk)

/-- The contents of a file, if it can be read as one. -/
def tryRead (path : String) : IO (Option ByteArray) := do
  try return some (← IO.FS.readBinFile path) catch _ => return none

/-- The machine as the tool `tool` with arguments `args` may see it. -/
def gatherHost (tool : String) (args : List String) : IO Host := do
  let cwd := toString (← IO.currentDir)
  let mut env : List (String × String) := []
  for name in ["HOME", "SEQNFA_STORE_PATH", "SEQNFA_MAX_STEPS"] do
    if let some v ← IO.getEnv name then env := env ++ [(name, v)]
  let readsStdin := (tool == "match" && matchReadsStdin args) || (tool == "postfix" && rpnReadsStdin args)
  let stdin ← if readsStdin then readAll (← IO.getStdin) ByteArray.empty else pure ByteArray.empty
  let bare : Host := ⟨cwd, env, [], stdin, []⟩
  let mut files : List (String × ByteArray) := []
  let mut dirs : List String := []
  if tool == "predict" then
    for p in storePathsFor bare args do
      if let some bytes ← tryRead (joinPath cwd p) then
        files := files ++ [(absolutePath cwd p, bytes)]
        dirs := dirs ++ passedDirs cwd p
  return { bare with files, dirs }

def main (argv : List String) : IO UInt32 := do
  match argv with
  | tool :: args =>
    let h ← gatherHost tool args
    let run : Option Exit := match tool with
      | "match" => some (runMatch h args)
      | "predict" => some (runPredict h args)
      | "postfix" => some (runRpn h args)
      | _ => none
    match run with
    | some e =>
      IO.print e.stdout
      IO.eprint e.stderr
      return e.status.toUInt32
    | none =>
      IO.eprintln "usage: seqpattern (match | predict | postfix) ARGS..."
      return 2
  | [] =>
    IO.eprintln "usage: seqpattern (match | predict | postfix) ARGS..."
    return 2

end CommandLine
