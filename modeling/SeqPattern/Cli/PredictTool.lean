import SeqPattern.Cli.Args
import SeqPattern.Cli.Host
import SeqPattern.Automaton.Compile
import SeqPattern.Search.Oracles
import SeqPattern.Text.JsonText
/-!
# The search tool

Finds the stored sequences a pattern accepts, by a predictive search over a store
file. The store is the first regular file among: the `--store` path, the path in
`SEQNFA_STORE_PATH` and the file `store.txt` under it, `.seqnfa/store.txt` under
`HOME`, and `store.txt` in the working directory. The round budget is the
`--max-steps` count, else the `SEQNFA_MAX_STEPS` count, else 10.

Found sequences are printed one per line, or as JSON with `--json`. A search that
finds nothing says so on standard error and still succeeds.
-/

namespace SeqPattern.Cli

/-- The help text of the search tool. -/
def predictHelp : String :=
  "seqnfa-predict: Find stored sequences accepted by a pattern.\n\n" ++
  "Usage: seqnfa-predict [-s STORE] [OPTIONS] PATTERN\n\n" ++
  "Options:\n" ++
  "  -s, --store PATH     Store file (default: $SEQNFA_STORE_PATH)\n" ++
  "  -i, --items          Treat pattern and head as comma-joined atom lists\n" ++
  "      --head SEQ       Fixed prefix context for the first query\n" ++
  "      --limit N        Keep at most N candidate prefixes per round\n" ++
  "      --max-steps N    Round budget (default: $SEQNFA_MAX_STEPS or 10)\n" ++
  "      --json           Print the outcome as JSON\n" ++
  "  -h, --help           Print this help\n"

/-- The store file name looked for in each directory. -/
def storeFile : String := "store.txt"

/-- The candidate store paths, in the order they are tried. -/
def storePaths (h : Host) (given : Option String) : List String :=
  given.toList ++
  (match h.getEnv "SEQNFA_STORE_PATH" with
    | some p => [p, joinPath p storeFile]
    | none => []) ++
  (match h.getEnv "HOME" with
    | some home => [joinPath (joinPath home ".seqnfa") storeFile]
    | none => []) ++
  [joinPath h.cwd storeFile]

/-- The candidate store paths for these arguments. -/
def storePathsFor (h : Host) (args : List String) : List String :=
  match takeOption args "--store" (some "-s") with
  | .ok (given, _) => storePaths h given
  | .error _ => []

/-- Loads the store from the first candidate path that names a regular file. -/
def loadStore (h : Host) (given : Option String) : Except String Store :=
  let paths := storePaths h given
  match paths.findSome? fun p => (h.readFile p).map (p, ·) with
  | some (p, bytes) =>
    match Store.read bytes with
    | .ok st => .ok st
    | .error e => .error ("failed to load " ++ p ++ ": " ++ e.message)
  | none =>
    .error ("could not find a sequence store in any of the search paths:\n" ++
      "\n".intercalate (paths.map ("  - " ++ ·)))

/-- The JSON text of an atom. -/
def itemJson : Item → String
  | .int n => toString n
  | .str s => Text.jsonString s

/-- The JSON text of a search outcome: its kind, then the found sequences as atom lists. -/
def outcomeJson (o : Outcome) : String :=
  let kind := match o with
    | .found _ => "found"
    | .exhausted => "exhausted"
    | .stepLimit => "step_limit"
  Text.jsonObject [("outcome", Text.jsonString kind),
    ("sequences", Text.jsonArray (o.sequences.map fun s => Text.jsonArray (s.map (itemJson ∘ Item.ofSymbol))))]

/-- The search tool after its arguments are read. -/
def predictWith (h : Host) (args : List String) : Except String Exit := do
  let (storePath, args) ← takeOption args "--store" (some "-s")
  let (head, args) ← takeOption args "--head" none
  let (limit, args) ← takeOption args "--limit" none
  let (maxSteps, args) ← takeOption args "--max-steps" none
  let (json, args) := takeFlag args ["--json"]
  let (items, args) := takeFlag args ["-i", "--items"]
  let pattern ← match args with
    | [p] => pure p
    | [] => throw "missing PATTERN (see --help)"
    | _ => throw "expected exactly one PATTERN (see --help)"
  let headSyms := head.map fun t => (toInput t items).toSymbols
  let limitN ← match limit with
    | some v => some <$> parseCount "--limit" v
    | none => pure none
  let steps ← match maxSteps.orElse fun _ => h.getEnv "SEQNFA_MAX_STEPS" with
    | some v => parseCount "--max-steps" v
    | none => pure 10
  let cfg : SearchConfig := ⟨headSyms, limitN, steps, .stop⟩
  let store ← loadStore h storePath
  let a ← match Nfa.ofPattern (toInput pattern items) with
    | .ok a => pure a
    | .error e => throw ("invalid pattern " ++ Text.quote pattern ++ ": pattern error: " ++ e.message)
  let o := match (a.predict (Store.oracle (ε := Empty) store) cfg).result with
    | .ok o => o
    | .error e => nomatch e
  if json then return ⟨0, outcomeJson o ++ "\n", ""⟩
  match o with
  | .found _ => return ⟨0, String.join (o.sequences.map fun s => Symbol.renderSeq s ++ "\n"), ""⟩
  | .exhausted => return ⟨0, "", "no stored sequence matches\n"⟩
  | .stepLimit => return ⟨0, "", "gave up after " ++ toString steps ++ " rounds (raise --max-steps)\n"⟩

/-- Runs the search tool. -/
def runPredict (h : Host) (args : List String) : Exit :=
  if wantsHelp args then ⟨0, predictHelp, ""⟩
  else
    match predictWith h args with
    | .ok e => e
    | .error msg => Exit.fatal "" msg

end SeqPattern.Cli
