import CapabilityFlow.Batch
import CapabilityFlow.Codec.Batch
import CapabilityFlow.Codec.MethodBody
import CapabilityFlow.Codec.SymbolTable

namespace CapabilityFlow

/-- What a file holds; nothing is held by a file that does not exist. -/
abbrev FileContent := Option ByteArray

def FileContent.text? (content : FileContent) : Option String :=
  content.bind String.fromUTF8?

inductive ConfigError where
  | unreadable
  | malformedToml
  | malformedJson
  | unsupportedFormat (extension : String)
  | invalidCode (code : String)
  deriving DecidableEq

/-- The text of an error; what a reader of the format has to say is not part of it. -/
def ConfigError.message? : ConfigError → Option String
  | .unsupportedFormat extension =>
    some ("unsupported config format `" ++ extension ++ "` (expected .toml or .json)")
  | .invalidCode code => some ("suppressed diagnostic `" ++ code ++ "` is not a code like IL2072")
  | .unreadable | .malformedToml | .malformedJson => none

/-- What stands behind the last dot of a file name, unless nothing stands before it. -/
def extension? (name : String) : Option String :=
  let reversed := name.toList.reverse.takeWhile (· ≠ '/')
  match reversed.dropWhile (· ≠ '.') with
  | _ :: stem =>
    if stem.isEmpty || reversed = ['.', '.'] then none
    else some (String.ofList (reversed.takeWhile (· ≠ '.')).reverse)
  | [] => none

namespace Config

/-- A configuration all of whose suppressed codes can be read. -/
def validate (config : Config) : Except ConfigError Config :=
  match config.invalidCode? with
  | some code => .error (.invalidCode code)
  | none => .ok config

end Config

/-- What reads the text of a configuration in a format, if the text is well formed in it. -/
structure ConfigReaders where
  toml : String → Option Config
  json : String → Option Config

namespace ConfigReaders

variable (readers : ConfigReaders)

def ofTomlText (text : String) : Except ConfigError Config :=
  match readers.toml text with
  | some config => config.validate
  | none => .error .malformedToml

def ofJsonText (text : String) : Except ConfigError Config :=
  match readers.json text with
  | some config => config.validate
  | none => .error .malformedJson

def ofFile (name : String) (content : FileContent) : Except ConfigError Config :=
  match content.text? with
  | none => .error .unreadable
  | some text =>
    match extension? name with
    | some "toml" => readers.ofTomlText text
    | some "json" => readers.ofJsonText text
    | other => .error (.unsupportedFormat (other.getD ""))

end ConfigReaders

inductive InputKind where
  | symbols
  | methods
  | declarations
  deriving DecidableEq

inductive InputError where
  | unreadable (kind : InputKind)
  | malformed (kind : InputKind)
  deriving DecidableEq

def InputKind.failure : InputKind → String
  | .symbols => "failed to load symbol table"
  | .methods => "failed to load analysis units"
  | .declarations => "failed to load declarations"

def InputError.message : InputError → String
  | .unreadable kind | .malformed kind => kind.failure

def loadInput {α : Type} (kind : InputKind) (decode : Decoder α) (content : FileContent) :
    Except InputError α :=
  match content.text? with
  | none => .error (.unreadable kind)
  | some text => (decode.ofText text).mapError fun _ => .malformed kind

def analyzeFiles (symbols methods : FileContent) (config : Config) :
    Except InputError BatchReport := do
  let table ← loadInput .symbols SymbolTable.decode symbols
  let ms ← loadInput .methods (.list MethodBody.decode) methods
  return (batch table.host config false ms).1

def checkDeclarationFiles (symbols input : FileContent) (config : Config) :
    Except InputError DeclarationReport := do
  let table ← loadInput .symbols SymbolTable.decode symbols
  let declarations ← loadInput .declarations Declarations.decode input
  return (checkDeclarations table.host config false declarations).1

end CapabilityFlow
