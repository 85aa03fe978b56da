import Sigil.Text.Digit

/-!
# Arguments of the command line

The command takes one optional file and the options `-v`, which may be repeated and joined as in
`-vv` or `-v=v`, `--emit-ast FILE`, `--ast FILE` and `-h`. Long options may be shortened as long as
they stay unambiguous, and their value may follow an equals sign. `--emit-ast` and `--ast` exclude
each other. After `--` everything is a file, and so is a single `-`, a negative number, and an
unknown option with a blank in it.
-/

namespace Sigil.CommandLine

/-- What the command is asked to do. -/
structure Options where
  /-- How often `-v` was given. -/
  verbosity : Nat := 0
  /-- The program file whose tree is to be emitted. -/
  emit : Option String := none
  /-- The stored tree that is to be run. -/
  stored : Option String := none
  /-- The program file that is to be run. -/
  file : Option String := none
  deriving DecidableEq, Repr

/-- Why there is nothing to do. -/
inductive Usage where
  /-- The arguments are not understood. -/
  | wrong
  /-- The arguments ask for help. -/
  | help
  deriving DecidableEq, Repr

/-- The options of the command. -/
inductive OptionName where
  /-- `-v` -/
  | verbose
  /-- `-h` and `--help` -/
  | help
  /-- `--emit-ast` -/
  | emit
  /-- `--ast` -/
  | stored
  deriving DecidableEq, Repr

/-- The long options. -/
def longOptions : List (String × OptionName) :=
  [("--help", .help), ("--emit-ast", .emit), ("--ast", .stored)]

/-- The options of one letter. -/
def shortOption? : Char → Option OptionName
  | 'v' => some .verbose
  | 'h' => some .help
  | _ => none

/-- What one argument is. -/
inductive Argument where
  /-- A file, or the value of an option. -/
  | plain (text : String)
  /-- A long option, and the value after its equals sign. -/
  | long (name : OptionName) (value : Option String)
  /-- The letters of joined short options. -/
  | short (letters : List Char)
  /-- An option that does not exist. -/
  | unknown
  /-- A shortened option that could be more than one. -/
  | ambiguous
  deriving DecidableEq, Repr

/-- Whether a text is a negative number, whole or with a point, in the digits of any script. A line
feed may follow the number. -/
def isNegativeNumber (text : String) : Bool :=
  match text.toList with
  | '-' :: rest =>
    let whole := rest.takeWhile isDigit
    match rest.drop whole.length with
    | '.' :: more =>
      let fraction := more.takeWhile isDigit
      !fraction.isEmpty && isEnd (more.drop fraction.length)
    | more => !whole.isEmpty && isEnd more
  | _ => false
where
  /-- Whether nothing but a line feed is left. -/
  isEnd (cs : List Char) : Bool :=
    cs == [] || cs == ['\n']
  /-- Whether a character is a decimal digit. -/
  isDigit (c : Char) : Bool :=
    (Text.digitValue? c).isSome

/-- What an argument is that has the form of an option but names none. -/
def classifyUnknown (text : String) : Argument :=
  if isNegativeNumber text || text.toList.contains ' ' then .plain text else .unknown

/-- What a long option is: an exact name, or the start of just one. -/
def classifyLong (text : String) : Argument :=
  let cs := text.toList
  let name := cs.takeWhile (· != '=')
  let value := (cs.dropWhile (· != '=')).tail?.map String.ofList
  match longOptions.find? fun (option, _) => option.toList == name with
  | some (_, option) => .long option value
  | none =>
    match longOptions.filter fun (option, _) => name.isPrefixOf option.toList with
    | [] => classifyUnknown text
    | [(_, option)] => .long option value
    | _ => .ambiguous

/-- What an argument is. Letters may also be joined to the first one by an equals sign. -/
def classify (text : String) : Argument :=
  match text.toList with
  | '-' :: '-' :: _ => classifyLong text
  | '-' :: letter :: '=' :: next :: rest =>
    if (shortOption? letter).isSome then .short (letter :: next :: rest) else classifyUnknown text
  | '-' :: letter :: rest =>
    if (shortOption? letter).isSome then .short (letter :: rest) else classifyUnknown text
  | _ => .plain text

/-- The state of reading the arguments. -/
structure Progress where
  /-- What has been understood so far. -/
  options : Options := {}
  /-- Whether something is left over that nobody takes. -/
  leftOver : Bool := false
  /-- Whether an option has come after the file. -/
  isPast : Bool := false

/-- Takes a file. Only one is wanted. -/
def Progress.takeFile (p : Progress) (text : String) : Progress :=
  match p.options.file with
  | none => { p with options := { p.options with file := some text } }
  | some _ => { p with leftOver := true }

/-- Takes all that comes after `--`. The mark itself has to stand before the file or right after
it. -/
def Progress.takeRest (p : Progress) (files : List String) : Progress :=
  files.foldl Progress.takeFile { p with leftOver := p.leftOver || p.isPast }

/-- Notes that an option comes. -/
def Progress.passOption (p : Progress) : Progress :=
  { p with isPast := p.options.file.isSome }

/-- Takes joined short options. All of them have to exist. -/
def Progress.takeLetters (p : Progress) (letters : List Char) : Except Usage Progress :=
  if !letters.all fun c => (shortOption? c).isSome then .error .wrong
  else if letters.any fun c => shortOption? c == some .help then .error .help
  else
    let options := { p.options with verbosity := p.options.verbosity + letters.length }
    .ok { p with options }

/-- Takes a long option with its value. -/
def Progress.takeLong (p : Progress) (name : OptionName) (value : String) :
    Except Usage Progress :=
  match name with
  | .emit =>
    if p.options.stored.isSome then .error .wrong
    else .ok { p with options := { p.options with emit := some value } }
  | .stored =>
    if p.options.emit.isSome then .error .wrong
    else .ok { p with options := { p.options with stored := some value } }
  | _ => .error .wrong

/-- The value of a long option after an equals sign. The mark `--` is no value there. -/
def joinedValue (value : String) : String :=
  if value == "--" then "" else value

/-- Reads the arguments from left to right. -/
def readArgs (p : Progress) : List String → Except Usage Progress
  | [] => .ok p
  | "--" :: rest => .ok (p.takeRest rest)
  | text :: rest =>
    match classify text with
    | .plain file => readArgs (p.takeFile file) rest
    | .short letters => do
      readArgs (← p.passOption.takeLetters letters) rest
    | .unknown => readArgs { p.passOption with leftOver := true } rest
    | .ambiguous => .error .wrong
    | .long .help none => .error .help
    | .long name (some value) => do
      readArgs (← p.passOption.takeLong name (joinedValue value)) rest
    | .long name none =>
      match rest with
      | [] => .error .wrong
      | value :: rest =>
        match value, classify value with
        | "--", _ => .error .wrong
        | _, .plain value => do
          readArgs (← p.passOption.takeLong name value) rest
        | _, _ => .error .wrong

/-- What the arguments ask for. An ambiguous option is noticed before any other mistake and before a
request for help. -/
def parseArgs (args : List String) : Except Usage Options := do
  if (args.takeWhile (· != "--")).any fun text => classify text == .ambiguous then throw .wrong
  let p ← readArgs {} args
  if p.leftOver then throw .wrong
  return p.options

end Sigil.CommandLine
