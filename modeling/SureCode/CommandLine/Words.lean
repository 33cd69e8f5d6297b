/-!
# Words of a command line

The arguments of a command as the user typed them: flags, options with a value, and plain words. A
value is the next argument, unless that begins with a dash, or is joined to the option by an equals
sign. Behind a double dash all arguments are plain words.
-/

namespace SureCode.CommandLine

/-- One thing that the user typed. -/
inductive Word where
  | flag (name : String)
  | option (name value : String)
  | plain (text : String)
deriving DecidableEq, Repr

/-- The flags and options that a command has. -/
structure Vocabulary where
  flags : List String
  options : List String

/-- Whether an argument would be read as a flag or an option. A lone dash would not. -/
def isDashed (arg : String) : Bool :=
  match arg.toList with
  | '-' :: _ :: _ => true
  | _ => false

/-- A name with the value that an equals sign joins to it, if there is one. -/
def splitEquals (cs : List Char) : String × Option String :=
  match cs.span (· != '=') with
  | (name, _ :: value) => (String.ofList name, some (String.ofList value))
  | (name, []) => (String.ofList name, none)

/-- The words in some arguments; nothing if the command does not have one of them. -/
def words? (v : Vocabulary) : List String → Option (List Word)
  | [] => some []
  | arg :: rest =>
    match arg.toList with
    | ['-', '-'] => some (rest.map .plain)
    | '-' :: '-' :: cs =>
      let (name, joined) := splitEquals cs
      if v.flags.contains name then
        if joined.isSome then none else (words? v rest).map (.flag name :: ·)
      else if v.options.contains name then
        match joined, rest with
        | some value, rest => (words? v rest).map (.option name value :: ·)
        | none, value :: rest =>
          if isDashed value then none else (words? v rest).map (.option name value :: ·)
        | none, [] => none
      else none
    | ['-', 'v'] =>
      if v.flags.contains "verbose" then (words? v rest).map (.flag "verbose" :: ·) else none
    | '-' :: _ :: _ => none
    | _ => (words? v rest).map (.plain arg :: ·)

/-- The plain words. -/
def plainWords (words : List Word) : List String :=
  words.filterMap fun word => match word with | .plain text => some text | _ => none

/-- The values of an option in the order in which they were given. -/
def values (words : List Word) (name : String) : List String :=
  words.filterMap fun word =>
    match word with
    | .option other value => if other = name then some value else none
    | _ => none

/-- The value of an option that may be given once; the outer `none` means that it was given more
often. -/
def value? (words : List Word) (name : String) : Option (Option String) :=
  match values words name with
  | [] => some none
  | [value] => some (some value)
  | _ => none

/-- Whether a flag was given; nothing if it was given more than once. -/
def flag? (words : List Word) (name : String) : Option Bool :=
  match words.count (.flag name) with
  | 0 => some false
  | 1 => some true
  | _ => none

end SureCode.CommandLine
