import ProductionRates.GameFile.Mapping
import ProductionRates.GameFile.OptionsText
import ProductionRates.Script.Evaluation
import ProductionRates.Script.Parse

/-!
# Loading game files

A game file is a script that keeps its game data under one name.  Loading reads the script,
evaluates it, takes the value under that name and maps it.  What is in a file is handed in as its
bytes, or as nothing if there is no such file.

* `LoadError` — at which of these steps loading failed, and why;
* `GameData.ofScript`, `GameData.ofFile` — game data from a text or from a file;
* `LoadOptions.ofFile` — options from a file.
-/

namespace ProductionRates

open Script

/-- Why a game file or an options file cannot be loaded. -/
inductive LoadError where
  /-- The file is missing or its bytes are no text. -/
  | unreadable
  /-- The script cannot be read. -/
  | parse (source : String) (error : ParseError)
  /-- The script is not data. -/
  | evaluation (error : EvaluationError)
  /-- Nothing has the name under which the game data should be. -/
  | missingGlobal (name : String)
  /-- What has that name is not a map. -/
  | notATable (name found : String)
  /-- The map is not game data. -/
  | mapping (error : MappingError)
  /-- A text does not stand for options. -/
  | options (file : String)

/-- The message of an error. -/
def LoadError.message : LoadError → String
  | .unreadable => "the file cannot be read"
  | .parse source error => s!"parse error in {source}: {error.message}"
  | .evaluation error => error.message
  | .missingGlobal name => s!"did not find variable \x22{name}\x22"
  | .notATable name found =>
    s!"expected \x22{name}\x22 to be a dictionary, but instead is {found}"
  | .mapping error => error.message
  | .options file => s!"invalid load options in {file}"

/-- The text of a file, from its bytes. -/
def textOfFile (content : Option ByteArray) : Except LoadError String :=
  match content.bind String.fromUTF8? with
  | some text => .ok text
  | none => .error .unreadable

/-! ## Game data -/

/-- The table of game data among the names of a script. -/
def gameDataTable (globals : Value) (name : String) : Except LoadError Value :=
  match globals.get? name with
  | none => .error (.missingGlobal name)
  | some .nil => .error (.missingGlobal name)
  | some (.map entries) => .ok (.map entries)
  | some other => .error (.notATable name other.typeName)

namespace GameData

/-- The game data of a script called `source`. -/
def ofScript (text source : String) (options : LoadOptions) : Except LoadError GameData :=
  match Chunk.parse text with
  | .error error => .error (.parse source error)
  | .ok chunk =>
    match chunk.evaluate source with
    | .error error => .error (.evaluation error)
    | .ok globals => do
      let table ← gameDataTable globals options.globalName
      match ofValue table options.productionSpeed with
      | .error error => throw (.mapping error)
      | .ok data => return data

/-- The game data of the file at a path, by its content. -/
def ofFile (path : String) (content : Option ByteArray) (options : LoadOptions) :
    Except LoadError GameData := do
  let text ← textOfFile content
  ofScript text path options

end GameData

/-! ## Options -/

namespace LoadOptions

/-- The name of a text that is in no file. -/
def inMemory : String := "<memory>"

/-- The options of a text. -/
def ofText (text : String) : Except LoadError LoadOptions :=
  match ofText? text with
  | some options => .ok options
  | none => .error (.options inMemory)

/-- The options of the file at a path, by its content. -/
def ofFile (path : String) (content : Option ByteArray) : Except LoadError LoadOptions := do
  let text ← textOfFile content
  match ofText? text with
  | some options => return options
  | none => throw (.options path)

end LoadOptions
end ProductionRates
