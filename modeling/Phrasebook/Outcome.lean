import Phrasebook.Failure

/-!
Work on files that may fail. What was done to the files before it failed stays done, so the files are
part of the outcome either way.
-/

namespace Phrasebook

abbrev Outcome (α : Type) := FileTree × Except Failure α

namespace Outcome

def ok {α : Type} (t : FileTree) (a : α) : Outcome α := (t, .ok a)

def fail {α : Type} (t : FileTree) (f : Failure) : Outcome α := (t, .error f)

def ofExcept {α : Type} (t : FileTree) (r : Except Failure α) : Outcome α := (t, r)

def andThen {α β : Type} (o : Outcome α) (next : FileTree → α → Outcome β) : Outcome β :=
  match o with
  | (t, .ok a) => next t a
  | (t, .error f) => (t, .error f)

end Outcome

def makeDirectories (t : FileTree) (path : String) : Outcome Unit :=
  match t.makeDirectories path with
  | (t, .ok ()) => .ok t ()
  | (t, .error fault) => .fail t (.makeDirectory path fault)

end Phrasebook
