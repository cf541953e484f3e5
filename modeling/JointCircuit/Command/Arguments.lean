/-
JointCircuit.Command.Arguments — options on a command line.

A command takes options, each with one value, and nothing else. The
arguments are read from left to right into a draft, and the first one
that is wrong ends the reading; only a complete reading is checked for
options that are required. Asking for help comes before that check.
-/

namespace JointCircuit

/-- An option of a command, with values stored in drafts of type `δ`. -/
structure CommandOption (δ : Type) where
  /-- How the option is written, without the dashes before it. -/
  name : String
  required : Bool
  /-- What the option is for. -/
  description : String
  /-- Whether a draft holds a value of the option. -/
  given : δ → Bool
  /-- Store a value in a draft, unless the text names no value. -/
  store : String → δ → Except String δ

/-- A command with its options. -/
structure Command (δ : Type) where
  name : String
  description : String
  options : List (CommandOption δ)

/-- Why arguments are refused. -/
inductive ArgumentError where
  /-- An argument that is not an option of the command. -/
  | unrecognized (argument : String)
  /-- The last argument is an option without a value. -/
  | valueMissing (option : String)
  | valueRefused (option value reason : String)
  /-- An option after a request for help. -/
  | afterHelp
  | optionsMissing (options : List String)
deriving DecidableEq, Repr

/-- The text shown for refused arguments. -/
def ArgumentError.message : ArgumentError → String
  | .unrecognized argument => s!"Unrecognized argument: {argument}\n"
  | .valueMissing option => s!"No value provided for option '{option}'.\n"
  | .valueRefused option value reason =>
    s!"Error parsing option '{option}' with value '{value}': {reason}\n"
  | .afterHelp => "Trailing arguments are not allowed after `help`."
  | .optionsMissing options =>
    "Required options not provided:" ++ String.join (options.map ("\n    " ++ ·)) ++ "\n"

/-- What the arguments of a command amount to. -/
inductive Request (δ : Type) where
  | help
  | run (draft : δ)

namespace CommandOption

variable {δ α : Type}

/-- How the option is written. -/
def flag (o : CommandOption δ) : String :=
  "--" ++ o.name

/-- An option whose value is kept in one place of the draft and is given once at most. -/
def single (name : String) (required : Bool) (description : String)
    (read : String → Except String α) (get : δ → Option α) (put : α → δ → δ) : CommandOption δ where
  name := name
  required := required
  description := description
  given draft := (get draft).isSome
  store text draft :=
    if (get draft).isSome then .error "duplicate values provided"
    else (put · draft) <$> read text

end CommandOption

namespace Command

variable {δ : Type}

/-! ## §1 Reading arguments -/

/-- Read arguments into a draft. `help` tells whether help was asked for, `ended` whether options
have been declared over. -/
def readFrom (c : Command δ) (help ended : Bool) (draft : δ) :
    List String → Except ArgumentError (Request δ)
  | [] => .ok (if help then .help else .run draft)
  | argument :: rest =>
    if !ended && (argument = "--help" || argument = "help") then readFrom c true ended draft rest
    else if ended || !argument.startsWith "-" then .error (.unrecognized argument)
    else if argument = "--" then readFrom c help true draft rest
    else if help then .error .afterHelp
    else
      match c.options.find? (·.flag = argument) with
      | none => .error (.unrecognized argument)
      | some o =>
        match rest with
        | [] => .error (.valueMissing argument)
        | value :: rest =>
          match o.store value draft with
          | .error reason => .error (.valueRefused argument value reason)
          | .ok draft => readFrom c help ended draft rest

/-- Read arguments into a draft that holds no values yet. -/
def read (c : Command δ) (draft : δ) (arguments : List String) :
    Except ArgumentError (Request δ) := do
  match ← readFrom c false false draft arguments with
  | .help => return .help
  | .run draft =>
    let missing := c.options.filter fun o => o.required && !o.given draft
    if missing.isEmpty then return .run draft
    else throw (.optionsMissing (missing.map (·.flag)))

/-! ## §2 Help -/

/-- The option as it appears in the first line of the help text. -/
def usageOf (o : CommandOption δ) : String :=
  let text := o.flag ++ " <" ++ o.name ++ ">"
  if o.required then text else "[" ++ text ++ "]"

/-- Fill lines of at most 80 characters with words, `line` being the line so far. -/
def fillLines (margin line : String) : List String → List String
  | [] => [line]
  | word :: rest =>
    if line.length + word.length + 1 ≤ 80 then fillLines margin (line ++ " " ++ word) rest
    else line :: fillLines margin (margin ++ word) rest

/-- The lines that describe an option: its name, and from column 20 on what it is for. -/
def describe (flag description : String) : List String :=
  let margin := "".pushn ' ' 20
  let start := "  " ++ flag
  match description.splitOn " " with
  | [] => [start]
  | word :: rest =>
    if start.length < 20 then fillLines margin (start.pushn ' ' (20 - start.length) ++ word) rest
    else start :: fillLines margin (margin ++ word) rest

/-- The help text. -/
def helpText (c : Command δ) : String :=
  let usage := "Usage: " ++ String.intercalate " " (c.name :: c.options.map usageOf)
  let lines := c.options.flatMap fun o => describe o.flag o.description
  let help := describe "--help, help" "display usage information"
  usage ++ "\n\n" ++ c.description ++ "\n\nOptions:\n"
    ++ String.join ((lines ++ help).map (· ++ "\n"))

end Command

end JointCircuit
