import Phrasebook.Error
import Phrasebook.NameMap

/-!
A lookup leaves a place in a pattern open. Each of its aliases is one way to fill the place and
lists the contexts, the scopes whose patterns may stand there. Aliases are kept in order, whatever
the order in which they were declared.
-/

namespace Phrasebook

structure Lookup where
  aliases : NameMap (List String)
deriving DecidableEq

namespace Lookup

def empty : Lookup := ⟨.empty⟩

def declare (l : Lookup) (name : String) (contexts : List String) : Except PatternError Lookup :=
  if contexts = [] then .error (.noContexts name) else .ok ⟨l.aliases.insert name contexts⟩

def ofList (bindings : List (String × List String)) : Except PatternError Lookup :=
  bindings.foldlM (fun l b => l.declare b.1 b.2) empty

def single (name : String) (contexts : List String) : Lookup := ⟨.single name contexts⟩

def check (l : Lookup) : Except PatternError Unit :=
  if l.aliases.entries = [] then .error .emptyLookup
  else match l.aliases.entries.find? fun b => b.2.isEmpty with
    | some b => .error (.noContexts b.1)
    | none => .ok ()

def Filled (l : Lookup) : Prop :=
  l.aliases.entries ≠ [] ∧ ∀ b ∈ l.aliases.entries, b.2 ≠ []

theorem check_eq_ok_iff (l : Lookup) : l.check = .ok () ↔ l.Filled := by
  unfold check Filled
  split
  · simp_all
  · rename_i h
    split
    · rename_i b hb
      have hempty : b.2 = [] := by simpa using List.find?_some hb
      have hmem := List.mem_of_find?_eq_some hb
      exact ⟨nofun, fun ⟨_, hall⟩ => absurd hempty (hall b hmem)⟩
    · rename_i hn
      refine ⟨fun _ => ⟨h, fun b hb => ?_⟩, fun _ => rfl⟩
      simpa using List.find?_eq_none.1 hn b hb

end Lookup
end Phrasebook
