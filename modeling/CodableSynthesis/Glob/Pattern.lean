/-!
Glob patterns: `?` stands for any character, `*` for any text, brackets for one character of a set,
and `**` as a whole path piece for any directories. A pattern is checked as a whole before it is cut
into pieces, so what is wrong with it is found wherever it stands and whatever files there are.

The patterns are those of the library that the program leaves them to. Runs take what a pattern
stands for as a parameter (`Run.Library`); this is what they are given for it.
-/

namespace CodableSynthesis.Glob

/-- What is wrong with a pattern. -/
inductive PatternFault where
  /-- More than two asterisks in a row. -/
  | wildcards
  /-- Two asterisks that share a piece with something else. -/
  | recursiveWildcards
  /-- A bracket that is not closed. -/
  | range
  deriving DecidableEq, Repr

/-- The wording of a fault. -/
def PatternFault.message : PatternFault → String
  | .wildcards => "wildcards are either regular `*` or recursive `**`"
  | .recursiveWildcards => "recursive wildcards must form a single path component"
  | .range => "invalid range pattern"

/-- A fault and the number of characters before it. -/
structure PatternError where
  position : Nat
  fault : PatternFault
  deriving DecidableEq, Repr

/-- The position and the wording of an error. -/
def PatternError.message (e : PatternError) : String :=
  "Pattern syntax error near position " ++ toString e.position ++ ": " ++ e.fault.message

/-- Why one of the paths that a pattern may stand for cannot be told: a directory on the way could
not be read. No directory of a `FileTree` is so. -/
structure EntryError where
  path : String
  /-- The wording of what the system says. -/
  cause : String
  deriving DecidableEq, Repr

/-- The path and the wording of an error. -/
def EntryError.message (e : EntryError) : String :=
  "attempting to read `" ++ e.path ++ "` resulted in an error: " ++ e.cause

/-- A part of a set of characters, from one to another. -/
structure CharRange where
  first : Char
  last : Char
  deriving DecidableEq, Repr

/-- What a pattern is made of. -/
inductive Token where
  | char (c : Char)
  | anyChar
  | anyText
  | anyDirectories
  | within (set : List CharRange)
  | except (set : List CharRange)
  deriving DecidableEq, Repr

/-- The ranges that are written between brackets; a character that begins no range stands for
itself. -/
def ranges : List Char → List CharRange
  | first :: '-' :: last :: more => ⟨first, last⟩ :: ranges more
  | c :: more => ⟨c, c⟩ :: ranges more
  | [] => []

/-- Whether a character is in a set. -/
def inSet (c : Char) (set : List CharRange) : Bool :=
  set.any fun r => r.first ≤ c && c ≤ r.last

/-- The set between the bracket just read and the next that closes it, and what follows. A bracket
that would close an empty set belongs to it. -/
def readSet : List Char → Option (List CharRange × List Char)
  | [] => none
  | c :: cs =>
    match cs.dropWhile (· != ']') with
    | [] => none
    | _ :: rest => some (ranges (c :: cs.takeWhile (· != ']')), rest)

theorem length_readSet {cs rest : List Char} {set : List CharRange}
    (h : readSet cs = some (set, rest)) : rest.length < cs.length := by
  cases cs with
  | nil => simp [readSet] at h
  | cons c cs =>
    have := (List.dropWhile_sublist (l := cs) (· != ']')).length_le
    simp only [readSet] at h
    split at h <;> grind

/-- Reads the tokens of the rest of a pattern, of which `position` characters were read, the last of
them being `before`. The slash behind `**` belongs to it. -/
def readTokens (position : Nat) (before : Option Char) (cs : List Char) :
    Except PatternError (List Token) :=
  match cs with
  | [] => .ok []
  | '?' :: rest => do return .anyChar :: (← readTokens (position + 1) '?' rest)
  | '*' :: '*' :: '*' :: _ => .error ⟨position + 2, .wildcards⟩
  | '*' :: '*' :: rest =>
    if before.all (· == '/') then
      match rest with
      | [] => .ok [.anyDirectories]
      | '/' :: more => do return .anyDirectories :: (← readTokens (position + 3) '/' more)
      | _ => .error ⟨position + 2, .recursiveWildcards⟩
    else .error ⟨position - 1, .recursiveWildcards⟩
  | '*' :: rest => do return .anyText :: (← readTokens (position + 1) '*' rest)
  | '[' :: '!' :: rest =>
    match h : readSet rest with
    | some (set, more) => do
      have := length_readSet h
      return .except set
        :: (← readTokens (position + 2 + (rest.length - more.length)) ']' more)
    | none => .error ⟨position, .range⟩
  | '[' :: rest =>
    match h : readSet rest with
    | some (set, more) => do
      have := length_readSet h
      return .within set
        :: (← readTokens (position + 1 + (rest.length - more.length)) ']' more)
    | none => .error ⟨position, .range⟩
  | c :: rest => do return .char c :: (← readTokens (position + 1) c rest)
termination_by cs.length

/-- The tokens of a pattern. -/
def tokens (cs : List Char) : Except PatternError (List Token) :=
  readTokens 0 none cs

namespace Token

/-- Whether a token stands for a character. -/
def accepts (c : Char) : Token → Bool
  | .char d => c == d
  | .anyChar => true
  | .within set => inSet c set
  | .except set => !inSet c set
  | .anyText | .anyDirectories => false

/-- Whether a token and what follows it stand for a name and its ends, in turn, given the same of
what follows it alone. -/
def matchMore (t : Token) : List Char → List Bool → List Bool
  | c :: cs, here :: later =>
    let ends := t.matchMore cs later
    let longer := ends.headD false
    (if t = .anyText then here || longer else t.accepts c && later.headD false) :: ends
  | [], here :: _ => [t = .anyText && here]
  | _, [] => []

/-- Whether some tokens stand for a name and its ends, from the whole name down to the empty one.
All are told at once, so that no end is looked at twice for the same tokens. -/
def matchEnds (cs : List Char) : List Token → List Bool
  | [] => cs.map (fun _ => false) ++ [true]
  | t :: ts => t.matchMore cs (matchEnds cs ts)

/-- Whether some tokens stand for a name. -/
def matchName (ts : List Token) (cs : List Char) : Bool :=
  (matchEnds cs ts).headD false

/-- The character that a token always stands for. -/
def char? : Token → Option Char
  | .char c => some c
  | _ => none

end Token

/-- A piece of a pattern between slashes. -/
inductive Component where
  /-- A name, to be taken as it is. -/
  | literal (name : List Char)
  /-- A pattern for one name. -/
  | wild (tokens : List Token)
  /-- Any directories. -/
  | recursive
  deriving DecidableEq, Repr

namespace Component

/-- The piece that some tokens make up. -/
def ofTokens (ts : List Token) : Component :=
  if ts = [.anyDirectories] then .recursive
  else
    match ts.mapM Token.char? with
    | some name => .literal name
    | none => .wild ts

/-- Whether a piece stands for a name. -/
def matchesName (name : List Char) : Component → Bool
  | .literal other => name == other
  | .wild ts => Token.matchName ts name
  | .recursive => false

/-- Some pieces without repetitions of the one for any directories. -/
def collapse : List Component → List Component
  | .recursive :: .recursive :: more => collapse (.recursive :: more)
  | c :: more => c :: collapse more
  | [] => []

end Component

/-- Whether an input is written as a pattern, by `has_glob_chars`. This is the program's own test;
what it takes for a pattern need not be a valid one. -/
def isPattern (path : List Char) : Bool :=
  path.any fun c => c == '*' || c == '?' || c == '['

end CodableSynthesis.Glob
