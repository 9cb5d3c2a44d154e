import ObjectHeap.Mixing
import ObjectHeap.Workload

/-! # The command line

Reads the arguments of the program, runs the workload that they ask for, and words the
report. Options are read from left to right; each may be given once.
-/

namespace ObjectHeap.CommandLine

/-- An option that takes a number. -/
inductive NumberOption where
  | heapSize
  | markStack
  | iterations
  | keepEvery
  | retain
deriving DecidableEq

namespace NumberOption

def ofName? : String → Option NumberOption
  | "--heap-size" => some .heapSize
  | "--mark-stack" => some .markStack
  | "--iterations" => some .iterations
  | "--keep-every" => some .keepEvery
  | "--retain" => some .retain
  | _ => none

/-- A workload with an option set. -/
def apply (option : NumberOption) (n : Nat) (w : Workload) : Workload :=
  match option with
  | .heapSize => { w with heapSize := n }
  | .markStack => { w with markStack := n }
  | .iterations => { w with iterations := n }
  | .keepEvery => { w with keepEvery := n }
  | .retain => { w with retain := n }

end NumberOption

/-- What the arguments ask for. -/
inductive Request where
  | run (w : Workload)
  | help
  | version
  | misuse

def digits? (cs : List Char) : Option Nat :=
  if cs.isEmpty || !cs.all Char.isDigit then none
  else some (cs.foldl (fun n c => 10 * n + (c.toNat - 48)) 0)

/-- A decimal number of 64 bits, which may have a plus sign. -/
def number? (text : String) : Option Nat := do
  let n ← match text.toList with
    | '+' :: cs => digits? cs
    | cs => digits? cs
  if n < span64 then some n else none

/-- The name of a long option, and the value after its equals sign if it has one. -/
def splitOption (arg : String) : String × Option String :=
  let cs := arg.toList
  let name := String.ofList (cs.takeWhile (· != '='))
  match cs.dropWhile (· != '=') with
  | [] => (name, none)
  | _ :: value => (name, some (String.ofList value))

/-- What has been read so far. -/
structure Progress where
  workload : Workload := {}
  given : List NumberOption := []

/-- Sets an option that was not given before to a number in a text. -/
def Progress.set? (p : Progress) (option : NumberOption) (text : String) : Option Progress := do
  if option ∈ p.given then none
  else
    let n ← number? text
    some ⟨option.apply n p.workload, option :: p.given⟩

/-- Reads the arguments that are left. -/
def parseFrom (p : Progress) : List String → Request
  | [] => .run p.workload
  | arg :: rest =>
    if arg = "--" then
      if rest.isEmpty then .run p.workload else .misuse
    else if arg = "--help" then .help
    else if arg = "--version" then .version
    else if arg = "--by-type" then
      if p.workload.byType then .misuse
      else parseFrom { p with workload := { p.workload with byType := true } } rest
    else
      match arg.toList with
      | '-' :: 'h' :: _ => .help
      | '-' :: 'V' :: _ => .version
      | _ =>
        match splitOption arg with
        | (name, some value) =>
          match (NumberOption.ofName? name).bind (p.set? · value) with
          | some p => parseFrom p rest
          | none => .misuse
        | (name, none) =>
          match NumberOption.ofName? name, rest with
          | some option, value :: rest =>
            match p.set? option value with
            | some p => parseFrom p rest
            | none => .misuse
          | _, _ => .misuse

def parse (args : List String) : Request := parseFrom {} args

/-- What the program leaves behind. -/
structure Reply where
  exitCode : UInt32
  out : String := ""
  err : String := ""

def versionText : String := "ember 0.1.0\n"

def helpText : String :=
  "Usage: ember [OPTIONS]\n\nOptions:\n" ++
  "      --heap-size <HEAP_SIZE>    Arena size in bytes [default: 65536]\n" ++
  "      --mark-stack <MARK_STACK>  Entries of the collector's mark stack [default: 64]\n" ++
  "      --iterations <ITERATIONS>  Number of workload iterations [default: 10000]\n" ++
  "      --keep-every <KEEP_EVERY>  Keep every n-th record alive; the rest becomes garbage " ++
  "[default: 8]\n" ++
  "      --retain <RETAIN>          Maximum number of records kept alive at once " ++
  "[default: 64]\n" ++
  "      --by-type                  Print per-type object counts at the end\n" ++
  "  -h, --help                     Print help\n" ++
  "  -V, --version                  Print version\n"

/-- A text filled up to twelve characters. -/
def padded (text : String) : String :=
  text ++ String.ofList (List.replicate (12 - text.length) ' ')

def report (w : Workload) (result : Workload.Result) : String :=
  let heap := result.heap
  let lines := [
    s!"iterations:        {w.iterations}",
    s!"collections:       {heap.collections}",
    s!"live objects:      {heap.liveObjects} (before final gc: {result.liveBefore})",
    s!"used bytes:        {heap.usedBytes} / {w.heapSize}",
    s!"largest free:      {heap.arena.largest}",
    s!"free fragments:    {heap.arena.fragments}"]
  let counts := heap.census.map fun (name, count) => "  " ++ padded name ++ s!" {count}"
  String.join ((lines ++ if w.byType then counts else []).map (· ++ "\n"))

/-- Runs the program. A refusal is reported and ends it with code 1, a fault with code 101,
and arguments that cannot be read with code 2. -/
def run (args : List String) : Reply :=
  match parse args with
  | .help => { exitCode := 0, out := helpText }
  | .version => { exitCode := 0, out := versionText }
  | .misuse => { exitCode := 2 }
  | .run w =>
    match w.run with
    | .ok result => { exitCode := 0, out := report w result }
    | .error (.refused refusal) =>
      { exitCode := 1
        err := "error: " ++ refusal.message ++ " (" ++ refusal.exception.name ++ ")\n" }
    | .error (.fault _) => { exitCode := 101 }

end ObjectHeap.CommandLine
