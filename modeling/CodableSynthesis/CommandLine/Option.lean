import CodableSynthesis.CommandLine.Request

/-!
The options of the command line: their names, where each may stand, and what it does with its
values.

The table of the options is data (`Flag`), with one function for each thing that may be asked about
an option. What the options have set so far is a record, `Given`, that starts empty; an option of a
single value may set its part of it once, and a second time is refused.
-/

namespace CodableSynthesis.CommandLine

/-- Where an option may stand. -/
inductive Scope where
  /-- In front of the command. -/
  | top
  | expand
  | model
  deriving DecidableEq, Repr

/-- The options. -/
inductive Flag where
  | verbose
  | help
  | version
  | input
  | config
  | indentWidth
  | out
  | check
  | denyWarnings
  | noOp
  deriving DecidableEq, Repr

namespace Flag

/-- All options. -/
def all : List Flag :=
  [.verbose, .help, .version, .input, .config, .indentWidth, .out, .check, .denyWarnings, .noOp]

/-- The name behind two dashes. -/
def long : Flag → String
  | .verbose => "verbose"
  | .help => "help"
  | .version => "version"
  | .input => "input"
  | .config => "config"
  | .indentWidth => "indent-width"
  | .out => "out"
  | .check => "check"
  | .denyWarnings => "deny-warnings"
  | .noOp => "no-op"

/-- The letter behind one dash. -/
def short? : Flag → Option Char
  | .verbose => some 'v'
  | .help => some 'h'
  | .version => some 'V'
  | .input => some 'i'
  | .out => some 'o'
  | _ => none

/-- Whether an option may stand somewhere. Those for more log lines and for help may stand on either
side of the command. -/
def allowedIn (scope : Scope) (f : Flag) : Bool :=
  match f, scope with
  | .verbose, _ | .help, _ => true
  | .version, scope => scope = .top
  | .check, scope | .denyWarnings, scope => scope = .expand
  | .input, scope | .config, scope | .indentWidth, scope | .out, scope | .noOp, scope =>
    scope ≠ .top

/-- Whether an option has a value. -/
def takesValue : Flag → Bool
  | .input | .config | .indentWidth | .out => true
  | _ => false

/-- Whether an option goes on taking values, until another option comes. -/
def takesMany : Flag → Bool
  | .input => true
  | _ => false

/-- The option of a long name. An option that may not stand in a place is unknown there. -/
def ofLong? (scope : Scope) (name : String) : Option Flag :=
  all.find? fun f => f.allowedIn scope && f.long == name

/-- The option of a letter. -/
def ofShort? (scope : Scope) (c : Char) : Option Flag :=
  all.find? fun f => f.allowedIn scope && f.short? == some c

end Flag

/-- What options have set so far. Nothing is required yet; what a command needs is looked at when
all arguments are read. -/
structure Given where
  verbosity : Nat := 0
  inputs : List String := []
  config? : Option String := none
  indentWidth? : Option Nat := none
  out? : Option String := none
  check : Bool := false
  denyWarnings : Bool := false
  noOp : Bool := false
  deriving DecidableEq, Repr

/-- The greatest verbosity, where counting stops. -/
def verbosityLimit : Nat := 255

/-- The bound of a width, which has to fit into a machine word. -/
def widthLimit : Nat := 0x10000000000000000

/-- The width that is written as digits, with a plus sign or without. -/
def width? (value : String) : Option Nat :=
  let digits :=
    match value.toList with
    | '+' :: more => more
    | cs => cs
  if digits.isEmpty || !digits.all Char.isDigit then none
  else
    let n := digits.foldl (fun n c => n * 10 + (c.toNat - '0'.toNat)) 0
    if n < widthLimit then some n else none

/-- A path, which is not empty. -/
def pathValue (value : String) : Except UsageError String :=
  if value.isEmpty then .error .missingValue else .ok value

namespace Given

/-- Sets an option that may be set once. The second time is refused before the value is looked
at. -/
def once {α : Type} (old : Option α) (new : Except UsageError α) : Except UsageError (Option α) :=
  match old with
  | some _ => .error .repeatedArgument
  | none => some <$> new

/-- Sets a flag that may be set once. -/
def onceFlag (old : Bool) : Except UsageError Bool :=
  if old then .error .repeatedArgument else .ok true

/-- Sets an option with a single value. -/
def takeValue (g : Given) (f : Flag) (value : String) : Except UsageError Given :=
  match f with
  | .config => do return { g with config? := ← once g.config? (pathValue value) }
  | .out => do return { g with out? := ← once g.out? (pathValue value) }
  | .indentWidth => do
    let width := match width? value with
      | some n => .ok n
      | none => .error .invalidValue
    return { g with indentWidth? := ← once g.indentWidth? width }
  | _ => .error .unwantedValue

/-- Sets an option without a value. Asking for help or the version ends the reading. -/
def takeFlag (g : Given) (f : Flag) : Except UsageError Given :=
  match f with
  | .help => .error .helpAsked
  | .version => .error .versionAsked
  | .verbose => .ok { g with verbosity := min (g.verbosity + 1) verbosityLimit }
  | .check => do return { g with check := ← onceFlag g.check }
  | .denyWarnings => do return { g with denyWarnings := ← onceFlag g.denyWarnings }
  | .noOp => do return { g with noOp := ← onceFlag g.noOp }
  | _ => .error .missingValue

/-- Sets an option with its values. -/
def take (g : Given) (f : Flag) (values : List String) : Except UsageError Given :=
  if !f.takesValue then g.takeFlag f
  else
    match values with
    | [] => .error .missingValue
    | value :: _ =>
      if f.takesMany then .ok { g with inputs := g.inputs ++ values } else g.takeValue f value

end Given

end CodableSynthesis.CommandLine
