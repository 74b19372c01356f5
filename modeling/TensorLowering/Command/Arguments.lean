import TensorLowering.Machine.Basic

/-!
# Command line arguments

The grammar of the command line. A subcommand has flags, at most one option with a value, and at
most one positional argument. A flag may be given once before the subcommand and once after it if
both know it; two dashes end the flags; a single dash is an ordinary word. Asking for the version
or for help ends the reading at once.
-/

namespace TensorLowering

namespace Command

/-- Where the machine of the `target` subcommand comes from. -/
inductive MachineSource where
  | named (name : String)
  | file (path : String)
deriving DecidableEq

/-- What the command line asks for. -/
inductive Request where
  | version
  | help
  | abi
  | target (source : MachineSource) (variant : Variant)
  | demo (unsupported : Bool)
deriving DecidableEq

/-- Why the command line cannot be understood. -/
inductive UsageError where
  | missingCommand
  | unknownCommand (word : String)
  | unexpected (word : String)
  | repeated (flag : String)
  | needsValue (option : String)
  | missingTarget
  | conflictingTargets
deriving DecidableEq

/-- The wording of a usage error. -/
def UsageError.message : UsageError → String
  | missingCommand => "a subcommand is required"
  | unknownCommand word => "unrecognized subcommand '" ++ word ++ "'"
  | unexpected word => "unexpected argument '" ++ word ++ "' found"
  | repeated flag => "the argument '--" ++ flag ++ "' cannot be used multiple times"
  | needsValue option => "a value is required for '--" ++ option ++ "'"
  | missingTarget => "a target name or '--config' is required"
  | conflictingTargets => "a target name cannot be used with '--config'"

/-- What a subcommand accepts beside the flag that all of them know. -/
structure Grammar where
  flags : List String := []
  options : List String := []
  /-- How many positional arguments are taken at most. -/
  positionals : Nat := 0

/-- What was read so far. -/
structure Words where
  flags : List String := []
  options : List (String × String) := []
  positionals : List String := []

/-- One word of the command line. -/
inductive Word where
  /-- Two dashes, after which every word is positional. -/
  | escape
  /-- A name after two dashes, with the value after an equals sign. -/
  | long (name : String) (value : Option String)
  /-- Letters after one dash. -/
  | short (letters : List Char)
  | plain
deriving DecidableEq

/-- Splits a long flag at its first equals sign. -/
def Word.ofLong (text : List Char) : Word :=
  .long (String.ofList (text.takeWhile (· != '=')))
    (match text.dropWhile (· != '=') with
      | [] => none
      | _ :: value => some (String.ofList value))

/-- Classifies a word. -/
def Word.of (word : String) : Word :=
  match word.toList with
  | ['-', '-'] => .escape
  | '-' :: '-' :: text => .ofLong text
  | '-' :: letter :: letters => .short (letter :: letters)
  | _ => .plain

/-- The reading of a part of the command line: it may end early with a request. -/
inductive Reading (α : Type) where
  | read (result : α)
  | early (request : Request)

/-- Sets a flag that must not be set yet. -/
def Words.setFlag (words : Words) (flag : String) : Except UsageError Words :=
  if words.flags.contains flag then .error (.repeated flag)
  else .ok { words with flags := words.flags ++ [flag] }

/-- Sets an option that must not be set yet, to a value that must not be empty. -/
def Words.setOption (words : Words) (option value : String) : Except UsageError Words :=
  if words.options.any (·.1 == option) then .error (.repeated option)
  else if value.isEmpty then .error (.needsValue option)
  else .ok { words with options := words.options ++ [(option, value)] }

/-- Takes a positional argument if there is room for it. -/
def Words.addPositional (words : Words) (grammar : Grammar) (word : String) :
    Except UsageError Words :=
  if words.positionals.length < grammar.positionals then
    .ok { words with positionals := words.positionals ++ [word] }
  else
    .error (.unexpected word)

/-- Takes all words as positional arguments. -/
def Words.addPositionals (grammar : Grammar) : Words → List String → Except UsageError Words
  | words, [] => .ok words
  | words, word :: rest => do
    let words ← words.addPositional grammar word
    addPositionals grammar words rest

/-- The letters that stand for flags everywhere. -/
def shortFlag? : Char → Option String
  | 'v' => some "verbose"
  | 'h' => some "help"
  | _ => none

/-- The letters that stand for flags before the subcommand. -/
def shortFlagAtTop? : Char → Option String
  | 'V' => some "version"
  | letter => shortFlag? letter

/-- Sets the flag of a name, or ends the reading. -/
def setNamed (known : List String) (word : String) (words : Words) (flag : String) :
    Except UsageError (Reading Words) :=
  if !known.contains flag then .error (.unexpected word)
  else if flag = "help" then .ok (.early .help)
  else if flag = "version" then .ok (.early .version)
  else (words.setFlag flag).map .read

/-- Sets the flags of several letters. -/
def setLetters (known : List String) (flag? : Char → Option String) (word : String) :
    Words → List Char → Except UsageError (Reading Words)
  | words, [] => .ok (.read words)
  | words, letter :: rest =>
    match flag? letter with
    | none => .error (.unexpected word)
    | some flag =>
      match setNamed known word words flag with
      | .ok (.read words) => setLetters known flag? word words rest
      | other => other

/-- The flags that a subcommand knows. -/
def Grammar.known (grammar : Grammar) : List String := "verbose" :: "help" :: grammar.flags

/-- Reads the words after a subcommand. -/
def Grammar.readWords (grammar : Grammar) : Words → List String → Except UsageError (Reading Words)
  | words, [] => .ok (.read words)
  | words, word :: rest =>
    match Word.of word with
    | .escape => (words.addPositionals grammar rest).map .read
    | .plain =>
      match words.addPositional grammar word with
      | .ok words => grammar.readWords words rest
      | .error error => .error error
    | .short letters =>
      match setLetters grammar.known shortFlag? word words letters with
      | .ok (.read words) => grammar.readWords words rest
      | other => other
    | .long name value? =>
      if grammar.options.contains name then
        match value?, rest with
        | some value, rest =>
          match words.setOption name value with
          | .ok words => grammar.readWords words rest
          | .error error => .error error
        | none, value :: rest =>
          if Word.of value = .plain then
            match words.setOption name value with
            | .ok words => grammar.readWords words rest
            | .error error => .error error
          else
            .error (.needsValue name)
        | none, [] => .error (.needsValue name)
      else if value?.isSome then
        .error (.unexpected word)
      else
        match setNamed grammar.known word words name with
        | .ok (.read words) => grammar.readWords words rest
        | other => other

/-- The words of the `target` subcommand. -/
def targetGrammar : Grammar where
  flags := ["sycl-device", "fpga", "windows"]
  options := ["config"]
  positionals := 1

/-- The words of the `demo` subcommand. -/
def demoGrammar : Grammar where
  flags := ["unsupported"]

/-- The request that the words of the `target` subcommand make. -/
def targetRequest (words : Words) : Except UsageError Request :=
  let variant : Variant := {
    syclDevice := words.flags.contains "sycl-device"
    xilinxFpga := words.flags.contains "fpga"
    windows := words.flags.contains "windows" }
  match words.positionals, words.options with
  | [], [] => .error .missingTarget
  | name :: _, [] => .ok (.target (.named name) variant)
  | [], (_, path) :: _ => .ok (.target (.file path) variant)
  | _ :: _, _ :: _ => .error .conflictingTargets

/-- Reads the words of a subcommand into its request. -/
def readCommand (grammar : Grammar) (request : Words → Except UsageError Request)
    (words : List String) : Except UsageError Request := do
  match ← grammar.readWords {} words with
  | .early request => return request
  | .read words => request words

/-- The names of the subcommands. -/
def subcommands : List String := ["abi", "target", "demo", "help"]

/-- Reads the words after `help`, which name a subcommand, then one of that subcommand, and so on.
Subcommands have none of their own. -/
def readHelp (known : List String) : List String → Except UsageError Request
  | [] => .ok .help
  | word :: rest =>
    if known.contains word then readHelp [] rest else .error (.unknownCommand word)

/-- Reads the word that names the subcommand and what follows it. -/
def readSubcommand (word : String) (rest : List String) : Except UsageError Request :=
  match word with
  | "abi" => readCommand {} (fun _ => .ok .abi) rest
  | "target" => readCommand targetGrammar targetRequest rest
  | "demo" => readCommand demoGrammar
      (fun words => .ok (.demo (words.flags.contains "unsupported"))) rest
  | "help" => readHelp subcommands rest
  | _ => .error (.unknownCommand word)

/-- The flags that are known before the subcommand. -/
def topFlags : List String := ["verbose", "help", "version"]

/-- Reads the whole command line. -/
def readTop : Words → List String → Except UsageError Request
  | _, [] => .error .missingCommand
  | words, word :: rest =>
    match Word.of word with
    | .escape =>
      match rest with
      | [] => .error .missingCommand
      | next :: _ => .error (.unexpected next)
    | .plain => readSubcommand word rest
    | .short letters =>
      match setLetters topFlags shortFlagAtTop? word words letters with
      | .ok (.read words) => readTop words rest
      | .ok (.early request) => .ok request
      | .error error => .error error
    | .long name value? =>
      if value?.isSome then
        .error (.unexpected word)
      else
        match setNamed topFlags word words name with
        | .ok (.read words) => readTop words rest
        | .ok (.early request) => .ok request
        | .error error => .error error

/-- The request that a command line makes. -/
def Request.ofArgs (args : List String) : Except UsageError Request := readTop {} args

end Command

end TensorLowering
