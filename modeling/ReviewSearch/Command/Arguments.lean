/-
ReviewSearch.Command.Arguments — what a command line asks for.

The program has five commands. Each takes options behind its name, and
some take the text of a query. An option with a value is written
`--name value` or `--name=value`; a lone `--` says that only texts
follow. `-v` may stand anywhere and counts; where it stands behind the
command, only those there count.

Arguments are read from left to right, and the first that is out of place
decides how the command line is refused. The value of an option is read
when the next argument has been understood: an unknown argument is
refused before a malformed value in front of it.
-/
import ReviewSearch.Query.Dialect
import ReviewSearch.Search.Settings

namespace ReviewSearch.Command

/-- Where an index comes from. -/
structure IndexFiles where
  config? : Option String := none
  schema? : Option String := none
  docs? : Option String := none
  deriving DecidableEq, Repr

/-- What the program does when it is run. -/
inductive Action where
  /-- Prints a query in its normal form. -/
  | parse (query : String)
  /-- Shows the plan of a query. -/
  | explain (files : IndexFiles) (settings : Settings) (query : String)
  /-- Runs one query. -/
  | query (files : IndexFiles) (settings : Settings) (query : String)
  /-- Serves the queries of the input. -/
  | start (files : IndexFiles)
  /-- Tells which records are stale. -/
  | stale (docs refs : String)
  deriving DecidableEq, Repr

/-- What to do, and how often `-v` was given. -/
structure Invocation where
  verbose : Nat
  action : Action
  deriving DecidableEq, Repr

/-- Why a command line is not a command. -/
inductive Misuse where
  /-- Nothing is given. -/
  | nothing
  | helpWanted
  | versionWanted
  | noCommand
  | unknownCommand
  | unknownArgument
  /-- A required argument is left out. -/
  | missingArgument
  /-- An option is left without its value. -/
  | emptyValue
  | badValue
  /-- A value is given to an option that takes none. -/
  | needlessValue
  | repeatedOption
  deriving DecidableEq, Repr

/-! ## What commands take -/

inductive Verb where
  | parse
  | explain
  | query
  | start
  | stale
  deriving DecidableEq, Repr

inductive Setting where
  | config
  | schema
  | docs
  | refs
  | start
  | limit
  | fields
  deriving DecidableEq, Repr

namespace Setting

def name : Setting → String
  | config => "config"
  | schema => "schema"
  | docs => "docs"
  | refs => "refs"
  | start => "start"
  | limit => "limit"
  | fields => "fields"

end Setting

namespace Verb

def all : List Verb := [parse, explain, query, start, stale]

def name : Verb → String
  | parse => "parse"
  | explain => "explain"
  | query => "query"
  | start => "start"
  | stale => "stale"

def ofName? (name : String) : Option Verb :=
  all.find? fun v => v.name == name

/-- The options with a value that a command takes. -/
def settings : Verb → List Setting
  | parse => []
  | explain | query => [.config, .schema, .docs, .start, .limit, .fields]
  | start => [.config, .schema, .docs]
  | stale => [.docs, .refs]

def setting? (v : Verb) (name : String) : Option Setting :=
  v.settings.find? fun s => s.name == name

/-- Whether a command takes `--no-limit`. -/
def takesNoLimit : Verb → Bool
  | explain | query => true
  | _ => false

def takesQuery : Verb → Bool
  | parse | explain | query => true
  | _ => false

end Verb

/-! ## Values -/

/-- What has been given. -/
structure Given where
  verbose : Nat := 0
  query? : Option String := none
  config? : Option String := none
  schema? : Option String := none
  docs? : Option String := none
  refs? : Option String := none
  start? : Option Int := none
  limit? : Option Nat := none
  noLimit : Bool := false
  fields : List String := []
  deriving DecidableEq, Repr

/-- The greatest count of `-v`. -/
def maxVerbose : Nat := 255

/-- A signed count as typed, with at most one sign before its digits. -/
def signed? (text : String) : Option Int :=
  let n := match text.toList with
    | '-' :: cs => if cs.head? = some '+' then none
      else (Dialect.count? (String.ofList cs)).map fun n => -(n : Int)
    | _ => (Dialect.count? text).map Int.ofNat
  n.filter inSignedRange

/-- Sets an option that may be given once. -/
def once {α : Type} (old : Option α) (value : Except Misuse α) : Except Misuse (Option α) :=
  if old.isSome then .error .repeatedOption else value.map some

/-- A path is not empty. -/
def path (text : String) : Except Misuse String :=
  if text.isEmpty then .error .emptyValue else .ok text

def orBad {α : Type} (value : Option α) : Except Misuse α :=
  match value with
  | some a => .ok a
  | none => .error .badValue

namespace Given

/-- Gives an option its value. Fields are separated by commas and add
up. -/
def set (g : Given) (text : String) : Setting → Except Misuse Given
  | .config => do return { g with config? := ← once g.config? (path text) }
  | .schema => do return { g with schema? := ← once g.schema? (path text) }
  | .docs => do return { g with docs? := ← once g.docs? (path text) }
  | .refs => do return { g with refs? := ← once g.refs? (path text) }
  | .start => do return { g with start? := ← once g.start? (orBad (signed? text)) }
  | .limit => do return { g with limit? := ← once g.limit? (orBad (Dialect.count? text)) }
  | .fields => .ok
      { g with fields := g.fields ++ (Text.splitAt ',' text.toList).map String.ofList }

def countVerbose (g : Given) : Given :=
  { g with verbose := min (g.verbose + 1) maxVerbose }

def setNoLimit (g : Given) : Except Misuse Given :=
  if g.noLimit then .error .repeatedOption else .ok { g with noLimit := true }

end Given

/-! ## Reading arguments -/

/-- An argument by its form. -/
inductive Form where
  /-- The lone `--`. -/
  | rest
  /-- `--name` or `--name=value`. -/
  | long (name : String) (value? : Option String)
  /-- Letters behind a single dash. -/
  | short (letters : List Char)
  | text

def formOf (arg : String) : Form :=
  match arg.toList with
  | ['-', '-'] => .rest
  | '-' :: '-' :: cs =>
    .long (String.ofList (cs.takeWhile (· != '=')))
      (match cs.dropWhile (· != '=') with
        | _ :: value => some (String.ofList value)
        | [] => none)
  | '-' :: c :: cs => .short (c :: cs)
  | _ => .text

/-- Letters that may be the digits of a negative number: digits, a point
behind the first of them, and an exponent behind an `e` of either case
that is not left open and has no sign. -/
def looksNumeric (letters : List Char) : Bool :=
  let whole := letters.takeWhile fun c => c.isDigit || c == '.'
  let exponent := letters.dropWhile fun c => c.isDigit || c == '.'
  decide ((whole.filter (· == '.')).length ≤ 1) && whole.head? != some '.' && !letters.isEmpty
    && match exponent with
      | [] => true
      | c :: ds => c.toLower == 'e' && !whole.isEmpty && !ds.isEmpty && ds.all Char.isDigit

/-- What has been read of the arguments behind a command. -/
structure Reading where
  given : Given := {}
  /-- The last option with a value, and the value if it has come. -/
  pending? : Option (Setting × Option String) := none
  /-- Whether only texts follow. -/
  textsOnly : Bool := false

namespace Reading

/-- Gives the last option its value. -/
def settle (r : Reading) : Except Misuse Given :=
  match r.pending? with
  | none => .ok r.given
  | some (_, none) => .error .emptyValue
  | some (s, some text) => r.given.set text s

/-- Goes on with what is given once the last option is settled. -/
def andThen (r : Reading) (f : Given → Except Misuse Given) : Except Misuse Reading := do
  return { r with given := ← f (← r.settle), pending? := none }

/-- Reads letters behind a single dash. -/
def letters (r : Reading) : List Char → Except Misuse Reading
  | [] => .ok r
  | c :: cs =>
    if c = 'v' then do letters (← r.andThen fun g => .ok g.countVerbose) cs
    else if c = 'h' then do
      let _ ← r.settle
      .error .helpWanted
    else .error .unknownArgument

/-- Reads an option without a value. -/
def flag (r : Reading) (value? : Option String) (f : Given → Except Misuse Given) :
    Except Misuse Reading :=
  if value?.isSome then .error .needlessValue else r.andThen f

/-- Reads an option by its long name. -/
def long (v : Verb) (r : Reading) (name : String) (value? : Option String) :
    Except Misuse Reading :=
  match v.setting? name with
  | some s =>
    match value? with
    | some text => r.andThen fun g => g.set text s
    | none => do return { r with given := ← r.settle, pending? := some (s, none) }
  | none =>
    if name = "verbose" then r.flag value? fun g => .ok g.countVerbose
    else if name = "help" then r.flag value? fun _ => .error .helpWanted
    else if name = "no-limit" ∧ v.takesNoLimit then r.flag value? Given.setNoLimit
    else .error .unknownArgument

/-- Reads a text that no option waits for. -/
def text (v : Verb) (r : Reading) (arg : String) : Except Misuse Reading :=
  if v.takesQuery ∧ r.given.query?.isNone then
    r.andThen fun g => .ok { g with query? := some arg }
  else .error .unknownArgument

/-- Reads one argument. -/
def step (v : Verb) (r : Reading) (arg : String) : Except Misuse Reading :=
  if r.textsOnly then text v r arg
  else
    match formOf arg, r.pending? with
    | .rest, _ => .ok { r with textsOnly := true }
    | .long name value?, _ => long v r name value?
    | .short cs, some (.start, none) =>
      if looksNumeric cs then .ok { r with pending? := some (.start, some arg) }
      else letters r cs
    | .short cs, _ => letters r cs
    | .text, some (s, none) => .ok { r with pending? := some (s, some arg) }
    | .text, _ => text v r arg

end Reading

/-- A value that must have been given. -/
def must {α : Type} (value : Option α) : Except Misuse α :=
  match value with
  | some a => .ok a
  | none => .error .missingArgument

namespace Given

def files (g : Given) : IndexFiles :=
  ⟨g.config?, g.schema?, g.docs?⟩

def settings (g : Given) : Settings where
  requested := g.limit?.getD 0
  noLimit := g.noLimit
  start := g.start?.getD 0
  fields := g.fields

/-- What is done with what is given. -/
def action (g : Given) : Verb → Except Misuse Action
  | .parse => return .parse (← must g.query?)
  | .explain => return .explain g.files g.settings (← must g.query?)
  | .query => return .query g.files g.settings (← must g.query?)
  | .start => return .start g.files
  | .stale => return .stale (← must g.docs?) (← must g.refs?)

end Given

/-- Reads the arguments behind the name of a command. `verbose` is the
count in front of it, which holds if there is none behind. -/
def ofVerb (verbose : Nat) (v : Verb) (args : List String) : Except Misuse Invocation := do
  let r ← args.foldlM (Reading.step v) {}
  let g ← r.settle
  return ⟨if g.verbose = 0 then verbose else g.verbose, ← g.action v⟩

/-! ## The whole command line -/

/-- Letters in front of the command: the count of `-v` behind them. -/
def frontLetters (verbose : Nat) : List Char → Except Misuse Nat
  | [] => .ok verbose
  | c :: cs =>
    if c = 'v' then frontLetters (min (verbose + 1) maxVerbose) cs
    else if c = 'h' then .error .helpWanted
    else if c = 'V' then .error .versionWanted
    else .error .unknownArgument

/-- Help on a command, if it is one. -/
def help : List String → Misuse
  | [] => .helpWanted
  | name :: names =>
    if (Verb.ofName? name).isSome || name = "help" then
      if names.isEmpty then .helpWanted else .unknownCommand
    else .unknownCommand

/-- Reads a command line. `verbose` counts `-v` so far, and `textsOnly`
says whether the lone `--` has come. -/
def read (verbose : Nat) (textsOnly : Bool) : List String → Except Misuse Invocation
  | [] => .error (if verbose = 0 then .nothing else .noCommand)
  | arg :: args =>
    if textsOnly then
      .error (if (Verb.ofName? arg).isSome || arg = "help" then .unknownArgument
        else .unknownCommand)
    else
      match Verb.ofName? arg with
      | some v => ofVerb verbose v args
      | none =>
        if arg = "help" then .error (help args)
        else
          match formOf arg with
          | .rest => read verbose true args
          | .long name value? =>
            if name = "verbose" then
              if value?.isSome then .error .needlessValue
              else read (min (verbose + 1) maxVerbose) false args
            else if name = "help" then
              .error (if value?.isSome then .needlessValue else .helpWanted)
            else if name = "version" then
              .error (if value?.isSome then .needlessValue else .versionWanted)
            else .error .unknownArgument
          | .short cs =>
            match frontLetters verbose cs with
            | .error m => .error m
            | .ok verbose => read verbose false args
          | .text => .error .unknownCommand

/-- What a command line asks for. -/
def Invocation.ofArguments (args : List String) : Except Misuse Invocation :=
  read 0 false args

end ReviewSearch.Command
