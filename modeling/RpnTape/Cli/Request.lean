/-!
# Cli/Request — what a command line asks for

Options come before the command or right behind it. Behind a command that takes a program, the first
word that is no option starts the program, and from there on every word belongs to it. A single `--`
behind the command ends the options.

Anything the rules do not allow is a usage error, reported as no request at all.
-/

namespace RpnTape

/-- How equations are printed. -/
inductive Format where
  | text
  | mathML
  | json
  deriving DecidableEq, Repr

/-- The format with a name; names are exact. -/
def Format.ofName? : String → Option Format
  | "text" => some .text
  | "mathml" => some .mathML
  | "json" => some .json
  | _ => none

/-- What a command line asks for. A program without words is read from the standard input. -/
inductive Request where
  /-- The name and version of the program. -/
  | version
  /-- Run a program and print its results. -/
  | eval (format : Format) (words : List String)
  /-- Print the words of a program. -/
  | tokens (words : List String)
  /-- List the builtins. -/
  | builtins
  deriving DecidableEq, Repr

/-- A command. -/
inductive Command where
  | eval
  | tokens
  | builtins
  deriving DecidableEq, Repr

/-- The command with a name; names are exact. -/
def Command.ofName? : String → Option Command
  | "eval" => some .eval
  | "tokens" => some .tokens
  | "builtins" => some .builtins
  | _ => none

namespace Request

/-- The value of an option written in one word, `--format=value`. -/
def inlineValue? (word : String) : Option String :=
  if "--format=".toList.isPrefixOf word.toList then
    some (String.ofList (word.toList.drop "--format=".length))
  else none

/-- The format after one more option: it may be given once, and by name. -/
def chooseFormat? (chosen : Option Format) (value : String) : Option Format :=
  if chosen.isSome then none else Format.ofName? value

/-- Reads the format options at the start of a line: the format they choose, if any, and the rest of
the line. -/
def formatOptions? (chosen : Option Format) : List String → Option (Option Format × List String)
  | [] => some (chosen, [])
  | ["--format"] => none
  | "--format" :: value :: rest =>
    match chooseFormat? chosen value with
    | none => none
    | some format => formatOptions? (some format) rest
  | word :: rest =>
    match inlineValue? word with
    | none => some (chosen, word :: rest)
    | some value =>
      match chooseFormat? chosen value with
      | none => none
      | some format => formatOptions? (some format) rest

/-- The words of a program, without a mark before them that ends the options. -/
def programOf : List String → List String
  | "--" :: rest => rest
  | line => line

/-- The request of a command with the format that holds for it and the words behind it. -/
def ofCommand? (command : Command) (format : Format) (program : List String) : Option Request :=
  match command with
  | .eval => some (.eval format program)
  | .tokens => some (.tokens program)
  | .builtins => if program.isEmpty then some .builtins else none

/-- Does the word ask for the version? The short form may have more letters behind it. -/
def isVersion (word : String) : Bool := word = "--version" || "-V".toList.isPrefixOf word.toList

/-- The default format: what the environment names, or text if it names nothing. -/
def defaultFormat? : Option String → Option Format
  | none => some .text
  | some name => Format.ofName? name

/-- The request of the arguments, given the default format that the environment names. Of two format
options the one behind the command wins, and either wins over the default; but a default that does
not exist makes every command a usage error. -/
def ofArguments? (arguments : List String) (named : Option String) : Option Request :=
  match formatOptions? none arguments with
  | none | some (_, []) => none
  | some (before, word :: rest) =>
    if isVersion word then some .version
    else
      match Command.ofName? word, defaultFormat? named, formatOptions? none rest with
      | some command, some fallback, some (behind, line) =>
        ofCommand? command ((behind.or before).getD fallback) (programOf line)
      | _, _, _ => none

end Request

end RpnTape
