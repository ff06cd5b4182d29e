import SeqPattern.Cli.Args
import SeqPattern.Cli.Host
import SeqPattern.Automaton.Compile
import SeqPattern.Automaton.Closure
/-!
# The match tool

Compiles a pattern once and tests sequences against it, one output line per
sequence: `M: ` and the sequence when the whole sequence is accepted, `N: ` and the
sequence otherwise. The sequences are the arguments after the pattern or, without
any, the lines on standard input.
-/

namespace SeqPattern.Cli

/-- The help text of the match tool. -/
def matchHelp : String :=
  "seqnfa-match: Test sequences against a pattern.\n\n" ++
  "Usage: seqnfa-match [-i] PATTERN [SEQUENCE...]\n\n" ++
  "If SEQUENCE arguments are given, tests each one.\n" ++
  "Otherwise reads sequences from stdin (one per line).\n\n" ++
  "Options:\n" ++
  "  -i, --items   Treat input as comma-joined atom lists (1,|,3)\n" ++
  "  -h, --help    Print this help\n"

/-- Runs the match tool. -/
def runMatch (h : Host) (args : List String) : Exit :=
  if wantsHelp args then ⟨0, matchHelp, ""⟩
  else
    let (items, args) := takeFlag args ["-i", "--items"]
    match args with
    | [] => Exit.fatal "" "missing PATTERN (see --help)"
    | pattern :: seqs =>
      match Nfa.ofPattern (toInput pattern items) with
      | .error e => Exit.fatal "" ("invalid pattern " ++ Text.quote pattern ++ ": " ++ e.message)
      | .ok a =>
        let lines := if seqs.isEmpty then h.stdinLines else seqs
        let out := String.join (lines.map fun l =>
          (if a.acceptsInput (toInput l items) then "M: " else "N: ") ++ l ++ "\n")
        ⟨0, out, ""⟩

/-- Whether the match tool reads standard input with these arguments. -/
def matchReadsStdin (args : List String) : Bool :=
  !wantsHelp args && (takeFlag args ["-i", "--items"]).2.length == 1

end SeqPattern.Cli
