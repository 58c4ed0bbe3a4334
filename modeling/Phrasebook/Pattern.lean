import Phrasebook.Lookup
import Phrasebook.Word

/-!
A pattern is a sequence of words and lookups. A pattern may be put together freely; `checked` lets
through the ones in which every lookup can be filled.
-/

namespace Phrasebook

inductive Element where
  | word (w : Word)
  | lookup (l : Lookup)
deriving DecidableEq

namespace Element

def check : Element → Except PatternError Unit
  | .word _ => .ok ()
  | .lookup l => l.check

def Filled : Element → Prop
  | .word _ => True
  | .lookup l => l.Filled

theorem check_eq_ok_iff (e : Element) : e.check = .ok () ↔ e.Filled := by
  cases e <;> simp [check, Filled, Lookup.check_eq_ok_iff]

end Element

structure Pattern where
  elements : List Element
deriving DecidableEq

namespace Pattern

def empty : Pattern := ⟨[]⟩

def length (p : Pattern) : Nat := p.elements.length

def isEmpty (p : Pattern) : Bool := p.elements.isEmpty

def Filled (p : Pattern) : Prop := ∀ e ∈ p.elements, e.Filled

def checkAll : List Element → Except PatternError Unit
  | [] => .ok ()
  | e :: rest => do e.check; checkAll rest

def checked (p : Pattern) : Except PatternError Pattern := do checkAll p.elements; .ok p

theorem checkAll_eq_ok_iff (l : List Element) : checkAll l = .ok () ↔ ∀ e ∈ l, e.Filled := by
  induction l with
  | nil => simp [checkAll]
  | cons e l ih =>
    rw [List.forall_mem_cons, ← ih, ← Element.check_eq_ok_iff]
    cases h : e.check <;> simp [checkAll, h, bind, Except.bind]

theorem checked_eq_ok_iff (p q : Pattern) : p.checked = .ok q ↔ p.Filled ∧ q = p := by
  unfold checked Filled
  rw [← checkAll_eq_ok_iff]
  cases h : checkAll p.elements <;> simp [bind, Except.bind, eq_comm]

end Pattern
end Phrasebook
