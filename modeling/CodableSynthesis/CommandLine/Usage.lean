import CodableSynthesis.CommandLine.Request

/-!
What is said when the arguments make no request. Help and the version are answers; everything else
is a fault in the arguments, told in one line.
-/

namespace CodableSynthesis

/-- The version of the program. -/
def version : String := "0.1.0"

/-- How the program is used. -/
def usage : String :=
  "Usage: codable-synthesis [-v]... <expand|model> -i <INPUT>... [OPTIONS]\n\n"
    ++ "  -i, --input <INPUT>...   paths or quoted patterns\n"
    ++ "      --config <FILE>      settings, in JSON\n"
    ++ "      --indent-width <N>   spaces a level\n"
    ++ "  -o, --out <PATH>         where results go, if not to standard output\n"
    ++ "      --check              compare with what is there (expand)\n"
    ++ "      --deny-warnings      fail if there is a warning (expand)\n"
    ++ "      --no-op              only show the options\n"

namespace UsageError

/-- Whether it is an answer that was asked for. -/
def isAnswer : UsageError → Bool
  | .helpAsked | .versionAsked => true
  | _ => false

/-- What is said. -/
def message : UsageError → String
  | .helpAsked | .nothingAsked => usage
  | .versionAsked => "codable-synthesis " ++ version
  | .missingCommand => "error: a command is missing"
  | .unknownCommand => "error: unknown command"
  | .unknownArgument => "error: unknown argument"
  | .missingArgument => "error: a required argument is missing"
  | .missingValue => "error: an option is missing its value"
  | .invalidValue => "error: invalid value"
  | .repeatedArgument => "error: an option is given twice"
  | .unwantedValue => "error: a flag is given a value"

end UsageError

end CodableSynthesis
