import SeqPattern.Cli.Args
import SeqPattern.Cli.Host
import SeqPattern.Automaton.Compile
import SeqPattern.Automaton.Dump
/-!
# The reverse Polish tool

Shows how patterns are read: one line per pattern with its reverse Polish form, or
its error; with `--nfa`, a second line with the compiled automaton's state count
and dump, or the compile error. The patterns are the arguments or, without any, the
lines on standard input. The run fails when any pattern failed, after every line is
written.
-/

namespace SeqPattern.Cli

/-- The help text of the reverse Polish tool. -/
def rpnHelp : String :=
  "seqnfa-postfix: Show how a pattern is parsed and compiled.\n\n" ++
  "Usage: seqnfa-postfix [-i] [--nfa] [PATTERN...]\n\n" ++
  "If PATTERN arguments are given, shows each one.\n" ++
  "Otherwise reads patterns from stdin (one per line).\n\n" ++
  "Options:\n" ++
  "  -i, --items   Treat patterns as comma-joined atom lists\n" ++
  "      --nfa     Also dump the compiled automaton\n" ++
  "  -h, --help    Print this help\n"

/-- The lines shown for one pattern, and whether it failed. -/
def showPattern (items showNfa : Bool) (pattern : String) : String × Bool :=
  match Pattern.rpnOf (toInput pattern items) with
  | .error e => (pattern ++ ": error: " ++ e.message ++ "\n", true)
  | .ok ts =>
    let first := pattern ++ ": " ++ Token.renderStream ts ++ "\n"
    if showNfa then
      match Nfa.compile ts with
      | .ok a => (first ++ "  " ++ toString a.stateCount ++ " states: " ++ a.dump ++ "\n", false)
      | .error e => (first ++ "  error: " ++ e.message ++ "\n", true)
    else (first, false)

/-- Runs the reverse Polish tool. -/
def runRpn (h : Host) (args : List String) : Exit :=
  if wantsHelp args then ⟨0, rpnHelp, ""⟩
  else
    let (items, args) := takeFlag args ["-i", "--items"]
    let (showNfa, args) := takeFlag args ["--nfa"]
    let patterns := if args.isEmpty then h.stdinLines else args
    let shown := patterns.map (showPattern items showNfa)
    ⟨if shown.any (·.2) then 1 else 0, String.join (shown.map (·.1)), ""⟩

/-- Whether the reverse Polish tool reads standard input with these arguments. -/
def rpnReadsStdin (args : List String) : Bool :=
  !wantsHelp args && ((takeFlag (takeFlag args ["-i", "--items"]).2 ["--nfa"]).2).isEmpty

end SeqPattern.Cli
