import ShiftReduce.Source.Load
import ShiftReduce.Table.Dump

/-!
# The command line

The program reads a grammar from a file, prints the dump of its table, and then reports what is
wrong with the grammar and the table. It succeeds if there is nothing to report.
-/

namespace ShiftReduce.CommandLine

/-! ## Arguments -/

structure Options where
  config : Config
  path : String
  deriving DecidableEq, Repr

/-- The arguments read so far. Each may be given once. -/
structure Request where
  method? : Option Method
  endOfInput? : Option String
  path? : Option String
  deriving DecidableEq, Repr

inductive Switch where
  | method
  | endOfInput
  deriving DecidableEq, Repr

def methodOfName? (name : String) : Option Method :=
  if name = "lr0" then some .lr0
  else if name = "lr1" then some .lr1
  else if name = "lalr1" then some .lalr1
  else none

namespace Request

def empty : Request := ⟨none, none, none⟩

def set (r : Request) (s : Switch) (value : String) : Option Request :=
  match s with
  | .method =>
    if r.method?.isSome then none
    else (methodOfName? value).map fun m => { r with method? := some m }
  | .endOfInput =>
    if r.endOfInput?.isSome then none else some { r with endOfInput? := some value }

def setPath (r : Request) (path : String) : Option Request :=
  if r.path?.isSome || path = "" then none else some { r with path? := some path }

/-- The options of a complete request. -/
def options? (r : Request) : Option Options :=
  r.path?.map fun path =>
    ⟨⟨r.method?.getD Config.default.method, r.endOfInput?.getD Config.default.endOfInput⟩, path⟩

end Request

/-- Whether an argument can stand for a value or a path: one that begins with a hyphen is taken
for a switch, a single hyphen apart. -/
def isValue (arg : String) : Bool := arg = "-" || arg.toList.head? ≠ some '-'

/-- The rest of `arg` behind `start`. -/
def behind? (start arg : String) : Option String :=
  if start.toList.isPrefixOf arg.toList then some (.ofList (arg.toList.drop start.length))
  else none

/-- A switch, with its value if this is written in the same argument. -/
def switch? (arg : String) : Option (Switch × Option String) :=
  if arg = "--class" then some (.method, none)
  else if arg = "--eoi" then some (.endOfInput, none)
  else match behind? "--class=" arg with
    | some value => some (.method, some value)
    | none => (behind? "--eoi=" arg).map fun value => (.endOfInput, some value)

/-- Reads arguments one after the other. Behind `--` all of them are paths. -/
def readArgs (r : Request) : List String → Option Request
  | [] => some r
  | arg :: rest =>
    if arg = "--" then rest.foldlM Request.setPath r
    else match switch? arg with
      | some (s, some value) => (r.set s value).bind fun r => readArgs r rest
      | some (s, none) =>
        match rest with
        | [] => none
        | value :: rest =>
          if isValue value then (r.set s value).bind fun r => readArgs r rest else none
      | none => if isValue arg then (r.setPath arg).bind fun r => readArgs r rest else none

/-- What the arguments ask for, unless they are misused. -/
def parseArgs (args : List String) : Option Options := do
  (← readArgs .empty args).options?

/-! ## Files -/

/-- Why a file could not be read as a text. -/
inductive ReadFailure where
  | notFound
  | notADirectory
  | isADirectory
  | permissionDenied
  | nameTooLong
  | notText
  | other (reason : String)
  deriving DecidableEq, Repr

namespace ReadFailure

def message : ReadFailure → String
  | notFound => "No such file or directory (os error 2)"
  | notADirectory => "Not a directory (os error 20)"
  | isADirectory => "Is a directory (os error 21)"
  | permissionDenied => "Permission denied (os error 13)"
  | nameTooLong => "File name too long (os error 36)"
  | notText => "stream did not contain valid UTF-8"
  | other reason => reason

end ReadFailure

/-- The text that the bytes of a file encode. -/
def textOfBytes (bytes : ByteArray) : Except ReadFailure String :=
  match String.fromUTF8? bytes with
  | some text => .ok text
  | none => .error .notText

/-! ## Processing -/

structure Outcome where
  exit : Nat
  stdout : String
  stderr : String
  deriving DecidableEq, Repr

/-- The exit status of a misused command line. -/
def usageExit : Nat := 2

/-- The exit status after a fault. -/
def faultExit : Nat := 101

def causeLines : List String → List String
  | [cause] => ["    " ++ cause]
  | causes => causes.mapIdx fun i cause => "    " ++ toString i ++ ": " ++ cause

/-- The message about a failure with its causes, the immediate one first. -/
def failureText (path : String) (causes : List String) : String :=
  Text.lines <|
    ("Error: errored during processing " ++ path) :: "" :: "Caused by:" :: causeLines causes

/-- An outcome with causes for which the path could not be processed. -/
def failed (path stdout reports : String) (causes : List String) : Outcome :=
  ⟨1, stdout, reports ++ failureText path causes⟩

/-- An outcome without a result, because a limit of the program was passed. -/
def aborted (f : Fault) : Outcome := ⟨faultExit, "", f.message ++ "\n"⟩

/-- Prints a table and the diagnostics of its grammar and of its states. -/
def present (path : String) (t : Table) : Outcome :=
  let diagnostics := t.grammar.check ++ t.check
  let stdout := t.dump ++ "\n"
  if diagnostics = [] then ⟨0, stdout, ""⟩
  else
    failed path stdout (Diagnostic.report diagnostics)
      ["found " ++ toString diagnostics.length ++ " error(s) in the grammar"]

/-- What the program does with the content of the file. -/
def process (o : Options) (content : Except ReadFailure String) : Outcome :=
  match content with
  | .error e => failed o.path "" "" ["failed to read the grammar file", e.message]
  | .ok source =>
    match Grammar.load .unicode source with
    | .error (.source e) => failed o.path "" "" [e.message]
    | .error (.fault f) => aborted f
    | .ok g =>
      match Table.build g o.config with
      | .error (.fault f) => aborted f
      | .error e => failed o.path "" "" [e.message]
      | .ok t => present o.path t

end ShiftReduce.CommandLine
