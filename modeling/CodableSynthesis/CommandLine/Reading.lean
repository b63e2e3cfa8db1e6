import CodableSynthesis.CommandLine.Option

/-!
Reading the arguments of the command line, one after the other. Main function: `read`, from the
arguments to a request.

An option takes the arguments behind it as its values until it has enough or another option comes;
its values are checked only then, so that an argument nobody knows is reported before a value that
will not do. In front of the command only a few options may stand; behind its name all of its own.

The program leaves its arguments to a library. This is what that one accepts and refuses for the two
commands, with one kind of error for each reason; its wording of an error is not followed.
-/

namespace CodableSynthesis.CommandLine

/-- What was read of the arguments. -/
structure State where
  given : Given := {}
  /-- The last option, if it takes values from the arguments behind it, and those it has taken. -/
  pending? : Option (Flag × List String) := none
  deriving DecidableEq, Repr

namespace State

/-- Sets the last option with the values it has taken. This is when they are checked. -/
def settle (s : State) : Except UsageError Given :=
  match s.pending? with
  | some (f, values) => s.given.take f values
  | none => .ok s.given

/-- Reads an option with its values. -/
def option (s : State) (f : Flag) (values : List String) : Except UsageError State := do
  return { given := ← (← s.settle).take f values }

/-- Reads an option whose values follow. -/
def openOption (s : State) (f : Flag) : Except UsageError State := do
  return { given := ← s.settle, pending? := some (f, []) }

/-- Reads an argument that is no option: a value of the option that is still open, or an argument
nobody knows. -/
def word (s : State) (value : String) : Except UsageError State :=
  match s.pending? with
  | some (f, values) =>
    if f.takesMany || values.isEmpty then
      .ok { s with pending? := some (f, values ++ [value]) }
    else .error .unknownArgument
  | none => .error .unknownArgument

/-- Reads an option by its long name, with the value attached to it. An attached value closes the
option, also one that goes on taking values. -/
def long (scope : Scope) (s : State) (name : String) (value? : Option String) :
    Except UsageError State :=
  match Flag.ofLong? scope name, value? with
  | none, _ => .error .unknownArgument
  | some f, some value => if f.takesValue then s.option f [value] else .error .unwantedValue
  | some f, none => if f.takesValue then s.openOption f else s.option f []

/-- Reads options by their letters. What follows the letter of an option that takes values is its
value, with or without an equals sign. -/
def short (scope : Scope) (s : State) : List Char → Except UsageError State
  | [] => .ok s
  | c :: more =>
    match Flag.ofShort? scope c with
    | none => .error .unknownArgument
    | some f =>
      if !f.takesValue then do short scope (← s.option f []) more
      else
        match more with
        | [] => s.openOption f
        | '=' :: value => s.option f [String.ofList value]
        | value => s.option f [String.ofList value]

/-- Whether an argument is written as an option. A dash alone is not. -/
def isOption (argument : String) : Bool :=
  match argument.toList with
  | '-' :: _ :: _ => true
  | _ => false

/-- Reads an argument that is written as an option. -/
def dashed (scope : Scope) (s : State) (argument : String) : Except UsageError State :=
  match argument.toList with
  | '-' :: '-' :: body =>
    let name := String.ofList (body.takeWhile (· != '='))
    match body.dropWhile (· != '=') with
    | _ :: value => s.long scope name (some (String.ofList value))
    | [] => s.long scope name none
  | cs => s.short scope cs.tail

end State

/-- What ends the options: nothing behind it is one. -/
def endOfOptions : String := "--"

/-- Reads the arguments of a command. No command takes an argument that belongs to no option. -/
def readOptions (scope : Scope) (s : State) : List String → Except UsageError Given
  | [] => s.settle
  | argument :: more =>
    if argument = endOfOptions then
      if more.isEmpty then s.settle else .error .unknownArgument
    else do
      let s ← if State.isOption argument then s.dashed scope argument else s.word argument
      readOptions scope s more

/-- What options make up for the inputs. -/
def Given.inputOptions (g : Given) : Except UsageError InputOptions :=
  if g.inputs.isEmpty then .error .missingArgument
  else .ok ⟨g.inputs, g.config?, g.indentWidth?⟩

/-- What options make up for an expansion. Comparing needs a directory to compare with. -/
def Given.expandOptions (g : Given) : Except UsageError ExpandOptions := do
  let input ← g.inputOptions
  if g.check && g.out?.isNone then throw .missingArgument
  return ⟨input, g.out?, g.check, g.denyWarnings, g.noOp⟩

/-- What options make up for a report. -/
def Given.modelOptions (g : Given) : Except UsageError ModelOptions := do
  return ⟨← g.inputOptions, g.out?, g.noOp⟩

/-- What the command line names. Help can be named like a command. -/
inductive Name where
  | expand
  | model
  | help
  deriving DecidableEq, Repr

/-- The command of a name. -/
def Name.of? (word : String) : Option Name :=
  if word = "expand" then some .expand
  else if word = "model" then some .model
  else if word = "help" then some .help
  else none

/-- Reads what help is asked about: a command, or nothing. -/
def readHelp : List String → UsageError
  | [] => .helpAsked
  | [word] => if (Name.of? word).isSome then .helpAsked else .unknownCommand
  | _ => .unknownCommand

/-- Reads the arguments behind the name of a command. A verbosity asked for behind the name counts,
if there is one. -/
def readCommand (verbosity : Nat) (name : Name) (arguments : List String) :
    Except UsageError Request :=
  let chosen (g : Given) := if g.verbosity = 0 then verbosity else g.verbosity
  match name with
  | .expand => do
    let g ← readOptions .expand {} arguments
    return ⟨chosen g, .expand (← g.expandOptions)⟩
  | .model => do
    let g ← readOptions .model {} arguments
    return ⟨chosen g, .model (← g.modelOptions)⟩
  | .help => .error (readHelp arguments)

/-- Reads the arguments, of which some options were read. The first argument that is no option has
to name a command. -/
def readFrom (s : State) : List String → Except UsageError Request
  | [] => .error (if s.given.verbosity = 0 then .nothingAsked else .missingCommand)
  | argument :: more =>
    match Name.of? argument with
    | some name => readCommand s.given.verbosity name more
    | none =>
      if argument = endOfOptions then
        match more with
        | [] => .error (if s.given.verbosity = 0 then .nothingAsked else .missingCommand)
        | word :: _ =>
          .error (if (Name.of? word).isSome then .unknownArgument else .unknownCommand)
      else if State.isOption argument then do readFrom (← s.dashed .top argument) more
      else .error .unknownCommand

/-- The request that some arguments make. -/
def read (arguments : List String) : Except UsageError Request :=
  readFrom {} arguments

end CodableSynthesis.CommandLine
