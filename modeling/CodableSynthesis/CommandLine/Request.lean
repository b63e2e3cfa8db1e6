/-!
What the command line asks for, and why its arguments may be refused.

A request is what is left of the arguments once they are read: one of two commands, with its options
as values. Nothing here knows how options are written; `CommandLine.read` makes requests of
arguments, and `Request.run` carries them out.
-/

namespace CodableSynthesis

/-- What both commands are told about their inputs (`InputSettings`). -/
structure InputOptions where
  /-- Paths and patterns of the inputs, in their order. -/
  inputs : List String
  /-- The settings file. -/
  config? : Option String
  /-- The indentation width in place of that of the settings. -/
  indentWidth? : Option Nat
  deriving DecidableEq, Repr

/-- What the expansion of inputs is told (`ExpandOut`). -/
structure ExpandOptions where
  input : InputOptions
  /-- The directory of the results, which are printed if there is none. -/
  out? : Option String
  /-- Whether results are compared with what is there. -/
  check : Bool
  /-- Whether warnings make the run fail. -/
  denyWarnings : Bool
  /-- Whether the options are only shown. -/
  noOp : Bool
  deriving DecidableEq, Repr

/-- What the report on inputs is told (`ModelOut`). -/
structure ModelOptions where
  input : InputOptions
  /-- The file of the report, which is printed if there is none. -/
  out? : Option String
  /-- Whether the options are only shown. -/
  noOp : Bool
  deriving DecidableEq, Repr

/-- What is to be done. -/
inductive Command where
  | expand (options : ExpandOptions)
  | model (options : ModelOptions)
  deriving DecidableEq, Repr

/-- A command and how much it is to say about its work (`CommandLineInterface`). The verbosity asks
for lines of the log only; no run depends on it. -/
structure Request where
  verbosity : Nat
  command : Command
  deriving DecidableEq, Repr

/-- Why arguments give no request. Asking for help or the version is among them: there is nothing to
run then. -/
inductive UsageError where
  | helpAsked
  | versionAsked
  /-- There are no arguments at all. -/
  | nothingAsked
  | missingCommand
  | unknownCommand
  | unknownArgument
  | missingArgument
  /-- An option without its value, or with an empty one where that is none. -/
  | missingValue
  | invalidValue
  | repeatedArgument
  /-- A flag that is given a value. -/
  | unwantedValue
  deriving DecidableEq, Repr

end CodableSynthesis
