import SeqPattern.Text.Lines
/-!
# What a tool sees of its machine

A tool run is a function of its arguments and of what it sees of the machine: the
working directory, the environment, the files, and the bytes on standard input.
Its effect is its exit status and the text it writes on standard output and
standard error.

Paths are plain text. A relative path is taken from the working directory; `.`
parts and repeated separators are ignored and `..` goes one directory up, from a
place that must be a directory. The directories are the working directory and those
above it, the directories known to exist, and every directory holding a file. A path
names a regular file only when it leads to one of the files; a path that ends with a
separator names a directory.
-/

namespace SeqPattern.Cli

/-- What a tool run sees of the machine. -/
structure Host where
  /-- The working directory, an absolute path. -/
  cwd : String
  /-- The environment variables that are set. -/
  env : List (String × String)
  /-- The regular files, by absolute path without `.` or `..` parts. -/
  files : List (String × ByteArray)
  /-- The bytes on standard input. -/
  stdin : ByteArray
  /-- Directories known to exist, by absolute path without `.` or `..` parts; the
  directories above them exist too. -/
  dirs : List String

/-- How a tool run ends. -/
structure Exit where
  status : Nat
  stdout : String
  stderr : String
deriving Repr, Inhabited, DecidableEq

/-- A run that stops at once with an error message and status 1. -/
def Exit.fatal (out msg : String) : Exit := ⟨1, out, "error: " ++ msg ++ "\n"⟩

/-- Joins a path to a base the way a path list grows: an absolute part replaces the
base, and a separator goes between them unless the base is empty or ends with one. -/
def joinPath (base part : String) : String :=
  if part.startsWith "/" then part
  else if base.isEmpty || base.endsWith "/" then base ++ part
  else base ++ "/" ++ part

/-- The parts of an absolute path after `.` parts and empty parts are dropped and each
`..` removes the part before it. -/
def resolveParts (parts : List String) : List String :=
  (parts.foldl (fun acc p => if p == "" || p == "." then acc
    else if p == ".." then acc.drop 1 else p :: acc) []).reverse

/-- The absolute form of a path, from the working directory `cwd`. -/
def absolutePath (cwd path : String) : String :=
  "/" ++ "/".intercalate (resolveParts ((joinPath cwd path).splitOn "/"))

/-- The places a path stands in on its way from `cwd`, before each of its parts, by
absolute path. A path can only lead to a file when each of them is a directory. -/
def passedDirs (cwd path : String) : List String :=
  let parts := (joinPath cwd path).splitOn "/"
  (List.range parts.length).map fun i => "/" ++ "/".intercalate (resolveParts (parts.take i))

namespace Host

/-- The value of an environment variable, if it is set. -/
def getEnv (h : Host) (name : String) : Option String := (h.env.find? (·.1 == name)).map (·.2)

/-- Whether an absolute path, given by its parts, is a directory: the root, the
working directory, the known directories and those above them, and every directory
holding a file. -/
def isDir (h : Host) (parts : List String) : Bool :=
  (parts.isPrefixOf (resolveParts (h.cwd.splitOn "/"))) ||
  h.dirs.any (fun d => parts.isPrefixOf (resolveParts (d.splitOn "/"))) ||
  h.files.any fun (f, _) => parts.length < (resolveParts (f.splitOn "/")).length &&
    parts.isPrefixOf (resolveParts (f.splitOn "/"))

/-- Walks the parts of a path from the directory `dir`, given by its parts, last first:
`.` and `..` need the place they stand in to be a directory. -/
def walk (h : Host) : List String → List String → Option (List String)
  | [], dir => some dir.reverse
  | p :: ps, dir =>
    if p == "" then h.walk ps dir
    else if p == "." || p == ".." then
      if h.isDir dir.reverse then h.walk ps (if p == ".." then dir.drop 1 else dir) else none
    else h.walk ps (p :: dir)

/-- The contents of the regular file a path names, if it names one. A path that ends
with a separator, `.` or `..` names a directory. -/
def readFile (h : Host) (path : String) : Option ByteArray := do
  let parts := (joinPath h.cwd path).splitOn "/"
  if path.isEmpty || ["", ".", ".."].contains (parts.getLastD "") then none
  let abs ← h.walk parts []
  let key := "/" ++ "/".intercalate abs
  (h.files.find? (·.1 == key)).map (·.2)

/-- Whether a path names a regular file. -/
def isFile (h : Host) (path : String) : Bool := (h.readFile path).isSome

/-- The lines on standard input up to the first that is not valid UTF-8, each without
its trailing carriage returns. -/
def stdinLines (h : Host) : List String :=
  (Text.readLines h.stdin).1.map fun l =>
    String.ofList ((l.toList.reverse.dropWhile (· == '\r')).reverse)

end Host

end SeqPattern.Cli
