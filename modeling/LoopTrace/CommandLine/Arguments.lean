/-!
# Command line arguments

A command line names a command and gives its flags and files. Flags stand in any order, and each at most
once; `--verbose` may stand before the command as well as after it. After `--` only files follow. The
value of an option stands in the next argument, which must not look like a flag, or in the same one.
-/

namespace LoopTrace.CommandLine

/-- What is asked for. -/
inductive Command where
  /-- Lower the trace in a file. -/
  | lower (input : String) (reuse verify dot : Bool)
  /-- Write the sample trace, to a file if one is named. -/
  | sample (output : Option String)
  /-- Show the version. -/
  | version
  deriving DecidableEq, Repr, Inhabited

/-- A command and whether to talk about it. -/
structure Invocation where
  command : Command
  verbose : Bool
  deriving DecidableEq, Repr, Inhabited

/-- The names of commands. -/
inductive Verb where
  | lower
  | sample
  | version
  deriving DecidableEq, Repr

namespace Verb

/-- The command with a name. -/
def ofName? : String → Option Verb
  | "lower" => some .lower
  | "sample" => some .sample
  | "version" => some .version
  | _ => none

/-- The long flags of a command. -/
def flags : Verb → List String
  | .lower => ["verbose", "no-slot-reuse", "no-verify", "dot"]
  | .sample | .version => ["verbose"]

/-- The long options of a command that take a value. -/
def options : Verb → List String
  | .sample => ["output"]
  | .lower | .version => []

/-- How many files a command takes. -/
def files : Verb → Nat
  | .lower => 1
  | .sample | .version => 0

/-- The long name of a short flag or option. -/
def long? : Char → Option String
  | 'v' => some "verbose"
  | 'o' => some "output"
  | _ => none

end Verb

/-- The arguments of a command, sorted. -/
structure Given where
  flags : List String := []
  options : List (String × String) := []
  files : List String := []
  deriving DecidableEq, Repr

namespace Given

/-- With one more flag, which the command must know. -/
def flag (verb : Verb) (name : String) (g : Given) : Option Given :=
  if name ∈ verb.flags ∧ name ∉ g.flags then some { g with flags := name :: g.flags } else none

/-- With one more option, which the command must know. Its value is a file name and not empty. -/
def option (verb : Verb) (name value : String) (g : Given) : Option Given :=
  if name ∈ verb.options ∧ (g.options.lookup name).isNone ∧ value ≠ "" then
    some { g with options := (name, value) :: g.options }
  else none

/-- With one more file, if the command takes it. -/
def file (verb : Verb) (name : String) (g : Given) : Option Given :=
  if g.files.length < verb.files ∧ name ≠ "" then some { g with files := g.files ++ [name] } else none

end Given

/-- An argument, by its form. -/
inductive Argument where
  /-- Two dashes: only files follow. -/
  | separator
  /-- A long flag, with the value after its equals sign if there is one. -/
  | long (name : String) (value : Option String)
  /-- Short flags after one dash. -/
  | short (letters : List Char)
  /-- Anything else; a single dash too. -/
  | plain (text : String)
  deriving DecidableEq, Repr

/-- The form of an argument. -/
def Argument.ofString (s : String) : Argument :=
  match s.toList with
  | ['-', '-'] => .separator
  | '-' :: '-' :: rest =>
    let name := rest.takeWhile (· ≠ '=')
    match rest.dropWhile (· ≠ '=') with
    | _ :: value => .long (String.ofList name) (some (String.ofList value))
    | [] => .long (String.ofList name) none
  | '-' :: c :: rest => .short (c :: rest)
  | _ => .plain s

/-- What reading an argument leads to. -/
inductive Progress where
  | ready (g : Given)
  /-- The value of an option is to come. -/
  | awaits (option : String) (g : Given)

/-- Takes short flags. The rest of the letters after an option is its value, an equals sign in front
left out. -/
def takeShort (verb : Verb) : List Char → Given → Option Progress
  | [], g => some (.ready g)
  | c :: rest, g => do
    let name ← Verb.long? c
    if name ∈ verb.options then
      match rest with
      | [] => return .awaits name g
      | '=' :: value => return .ready (← g.option verb name (String.ofList value))
      | value => return .ready (← g.option verb name (String.ofList value))
    else takeShort verb rest (← g.flag verb name)

/-- Takes a long flag or option. -/
def takeLong (verb : Verb) (name : String) (value : Option String) (g : Given) : Option Progress := do
  if name ∈ verb.options then
    match value with
    | some value => return .ready (← g.option verb name value)
    | none => return .awaits name g
  else if value.isNone then return .ready (← g.flag verb name)
  else none

/-- Takes the arguments after a command's name. -/
def takeAll (verb : Verb) : List String → Progress → Option Given
  | [], .ready g => some g
  | [], .awaits .. => none
  | s :: rest, .awaits name g =>
    match Argument.ofString s with
    | .plain value => (g.option verb name value).bind fun g => takeAll verb rest (.ready g)
    | _ => none
  | s :: rest, .ready g =>
    match Argument.ofString s with
    | .separator => rest.foldlM (fun g name => g.file verb name) g
    | .long name value => (takeLong verb name value g).bind (takeAll verb rest)
    | .short letters => (takeShort verb letters g).bind (takeAll verb rest)
    | .plain name => (g.file verb name).bind fun g => takeAll verb rest (.ready g)

/-- The command that sorted arguments ask for. -/
def Given.command? (g : Given) : Verb → Option Command
  | .lower =>
    match g.files with
    | [input] => some (.lower input ("no-slot-reuse" ∉ g.flags) ("no-verify" ∉ g.flags) ("dot" ∈ g.flags))
    | _ => none
  | .sample => some (.sample (g.options.lookup "output"))
  | .version => some .version

/-- Reads a command line, the flags before the command in `verbose`. -/
def takeVerb (verbose : Bool) : List String → Option Invocation
  | [] => none
  | s :: rest =>
    match Argument.ofString s with
    | .long "verbose" none | .short ['v'] => if verbose then none else takeVerb true rest
    | .plain name => do
      let verb ← Verb.ofName? name
      let given ← takeAll verb rest (.ready {})
      return ⟨← given.command? verb, verbose || "verbose" ∈ given.flags⟩
    | _ => none

/-- What a command line asks for, if it is one. -/
def invocation? (arguments : List String) : Option Invocation := takeVerb false arguments

end LoopTrace.CommandLine
