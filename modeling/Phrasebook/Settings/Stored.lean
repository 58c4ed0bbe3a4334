import Phrasebook.Json.Writer
import Phrasebook.Outcome
import Phrasebook.Settings

/-!
Settings kept in a file, by default one in the user's configuration directory, and the grammar that
settings name.
-/

namespace Phrasebook

structure Surroundings where
  configBase : String
  home : String

namespace Surroundings

def configDirectory (s : Surroundings) : String := Path.join s.configBase "phrase-trie"

end Surroundings

namespace Settings

def checkPath (path : String) : Except Failure Unit :=
  match Path.extension? path with
  | some "json" => .ok ()
  | extension => .error (.settingsExtension extension)

def place (s : Surroundings) (t : FileTree) (custom : Option String) : Outcome String :=
  match custom with
  | some path =>
    match checkPath path with
    | .error f => .fail t f
    | .ok () =>
      match Path.parent? path with
      | none => .ok t path
      | some up => (makeDirectories t up).andThen fun t () => .ok t path
  | none =>
    (makeDirectories t s.configDirectory).andThen fun t () =>
      .ok t (Path.join s.configDirectory "config.json")

def load (s : Surroundings) (t : FileTree) (custom : Option String) : Outcome Settings :=
  (place s t custom).andThen fun t path =>
    if !t.pathExists path then .ok t {}
    else match t.readText path with
      | .error fault => .fail t (.readSettings path fault)
      | .ok text =>
        match ofText text with
        | .error fault => .fail t (.parseSettings path fault)
        | .ok settings => .ok t settings

/-- Settings that cannot be read count as open. -/
def loadOrOpen (s : Surroundings) (t : FileTree) (custom : Option String) : FileTree × Settings :=
  match load s t custom with
  | (t, .ok settings) => (t, settings)
  | (t, .error _) => (t, {})

def save (settings : Settings) (s : Surroundings) (t : FileTree) (custom : Option String) :
    Outcome Unit :=
  (place s t custom).andThen fun t path =>
    match t.write path (Text.utf8 settings.toJson.pretty) with
    | .ok t => .ok t ()
    | .error fault => .fail t (.writeSettings path fault)

def defaultGrammarPath (s : Surroundings) (t : FileTree) (format : Format) : Outcome String :=
  (makeDirectories t s.configDirectory).andThen fun t () =>
    .ok t (Path.join s.configDirectory ("grammar." ++ format.extension))

/-- The grammar to use: the one that is set, else the one at the usual place. -/
def grammarFile (settings : Settings) (s : Surroundings) (t : FileTree) : Outcome String :=
  match settings.grammarPath with
  | some path => .ok t path
  | none => defaultGrammarPath s t (settings.format.getD .json)

end Settings
end Phrasebook
