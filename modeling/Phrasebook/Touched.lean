import Phrasebook.Program

/-!
Which paths a step may look at or write to, told before it is made.
-/

namespace Phrasebook

def Settings.usualPlace (s : Surroundings) (custom : Option String) : String :=
  custom.getD (Path.join s.configDirectory "config.json")

def Settings.grammarPlace (settings : Settings) (s : Surroundings) : String :=
  settings.grammarPath.getD
    (Path.join s.configDirectory ("grammar." ++ (settings.format.getD .json).extension))

namespace CommandLine

def Request.given? : Request → Option Settings
  | .shell given | .suggest _ given | .patterns _ given | .check given => some given
  | .convert .. | .settings _ => none

def Invocation.touched (call : Invocation) (s : Surroundings) (t : FileTree) : List String :=
  let stored := (Settings.loadOrOpen s t call.config).2
  match call.request with
  | .convert input output _ _ => [input, output]
  | request =>
    match request.given? with
    | some given => [(stored.override given).grammarPlace s]
    | none => []

end CommandLine

namespace Shell

def Command.touched (state : State) : Command → List String
  | .load path _ => [path]
  | .save path => (path <|> state.grammarPath).toList
  | _ => []

def Session.touched (s : Session) (line : String) : List String :=
  match Command.read line with
  | .ok command => command.touched s.state
  | .error _ => []

end Shell
end Phrasebook
