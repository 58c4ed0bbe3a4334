import Phrasebook.Touched

/-!
The program at a terminal. Before each step the files that it may look at are fetched; after it, what it
changed is written back.
-/

namespace Phrasebook.Terminal
open CommandLine (Invocation)
open Shell (History Session Printed)

def pathOf (place : Place) : String := "/" ++ String.intercalate "/" place

def fetchPlace (t : FileTree) (place : Place) : IO (FileTree × Bool) := do
  let path := (← IO.currentDir) / pathOf place
  if ← path.isDir then return (t.put place .directory, true)
  else if ← path.pathExists then
    return (t.put place (.file (← IO.FS.readBinFile path).toList), true)
  else return (t, false)

def fetchNames (t : FileTree) (place : Place) : List String → IO FileTree
  | [] => return t
  | "." :: names => fetchNames t place names
  | ".." :: names => fetchNames t place.dropLast names
  | name :: names => do
    let (t, found) ← fetchPlace t (place ++ [name])
    if found then fetchNames t (place ++ [name]) names else return t

def fetch (t : FileTree) (path : String) : IO FileTree :=
  fetchNames t (if Path.isAbsolute path then [] else t.working)
    (((Text.pieces '/' path.toList).filter (!·.isEmpty)).map String.ofList)

def writeBack (before after : FileTree) : IO Unit := do
  for (place, entry) in after.entries.reverse do
    if before.entry? place ≠ some entry then
      match entry with
      | .directory => IO.FS.createDirAll (pathOf place)
      | .file content => IO.FS.writeBinFile (pathOf place) ⟨content.toArray⟩

def put (printed : Printed) : IO Unit := do
  IO.print printed.out
  IO.eprint printed.err
  (← IO.getStdout).flush

def workingTree : IO FileTree := do
  return ⟨((Text.pieces '/' (← IO.currentDir).toString.toList).filter (!·.isEmpty)).map
    String.ofList, []⟩

def surroundings : IO Surroundings := do
  let home := (← IO.getEnv "HOME").getD "."
  let base := ((← IO.getEnv "XDG_CONFIG_HOME").filter Path.isAbsolute).getD (Path.join home ".config")
  return ⟨base, home⟩

partial def converse (input : IO.FS.Stream) (s : Session) (h : History) : IO (Session × History) := do
  let typed ← input.isTty
  if typed then
    IO.print s.promptText
    (← IO.getStdout).flush
  let text ← input.getLine
  if text.isEmpty then return (s, h)
  let line := (Text.lines text).headD ""
  let h := if typed then h.add line else h
  let s := { s with files := ← (s.touched line).foldlM fetch s.files }
  match s.turn line with
  | .leave s => return (s, h)
  | .next next printed =>
    writeBack s.files next.files
    put printed
    converse input next h

def runShell (colors : Colors) (around : Surroundings) (t : FileTree) (config : Option String)
    (given : Settings) : IO Unit := do
  let (s, printed) := Session.start colors around t config given
  writeBack t s.files
  put printed
  let s := { s with files := ← fetch s.files (Shell.historyFile around) }
  let (s, h) ← converse (← IO.getStdin) s s.history
  let (after, printed) := s.close h
  writeBack s.files after
  put printed

def runProgram (words : List String) : IO UInt32 := do
  let around ← surroundings
  let colors := Colors.wanted (← IO.getEnv "CLICOLOR_FORCE") (← IO.getEnv "NO_COLOR")
    (← IO.getEnv "CLICOLOR") (← (← IO.getStdout).isTty)
  let t ← workingTree
  match Invocation.read words with
  | .error fault =>
    let e := Program.refuse t fault
    put e.printed
    return e.code.toUInt32
  | .ok call =>
    let t ← fetch t (Settings.usualPlace around call.config)
    let t ← (call.touched around t).foldlM fetch t
    match call.request with
    | .shell given =>
      runShell colors around t call.config given
      return 0
    | _ =>
      let e := Program.command colors around t call
      writeBack t e.files
      put e.printed
      return e.code.toUInt32

end Phrasebook.Terminal

def main (words : List String) : IO UInt32 := Phrasebook.Terminal.runProgram words
