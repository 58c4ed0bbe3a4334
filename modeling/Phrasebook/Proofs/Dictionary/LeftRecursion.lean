import Mathlib.Logic.Relation
import Phrasebook.Proofs.Dictionary.Derivation

/-!
Cutting loops out of derivations. Where scopes come back to themselves only through patterns of one
element, a scope below itself with nothing in between derives what the outer one derives, so the
part between them can be left out. Every expansion of such a dictionary has a loopless derivation.
-/

open Relation

namespace Phrasebook.Dictionary

variable {d : Dictionary} {a b : ScopeId} {above : List ScopeId} {n : Nat}
  {items out body mid : List Item}

def LeadsTo (d : Dictionary) (a b : ScopeId) : Prop :=
  ∃ p rest, d.Stores a (.slot p :: rest) ∧ b ∈ p.contexts

/-- Every pattern on a chain of leading places from a scope back to itself has one element. -/
def OnlyUnitLoops (d : Dictionary) : Prop :=
  ∀ a b p rest, d.Stores a (.slot p :: rest) → b ∈ p.contexts → ReflTransGen d.LeadsTo b a →
    rest = []

def Restarts (d : Dictionary) (above : List ScopeId) (n : Nat) (a : ScopeId) (out : List Item) :
    Prop :=
  ∃ outer b inner body, above = outer ++ b :: inner ∧ ReflTransGen d.LeadsTo a b ∧
    d.Stores b body ∧ d.ExpandsLoopless (b :: inner) n body out

theorem not_restarts_nil : ¬ d.Restarts [] n a out := by
  intro h
  obtain ⟨outer, b, inner, body, heq, -⟩ := h
  simp at heq

/-- The items have a loopless derivation here, or what fills their first place can start again
further out. -/
def Untangles (d : Dictionary) (n : Nat) (items out : List Item) : Prop :=
  ∀ above : List ScopeId, above.Nodup →
    (∀ b ∈ above, ∀ p rest c, items = .slot p :: rest → c ∈ p.contexts →
      ReflTransGen d.LeadsTo b c) →
    d.ExpandsLoopless above n items out ∨
      ∃ p rest c mid tail, items = .slot p :: rest ∧ c ∈ p.contexts ∧ out = mid ++ tail ∧
        (rest = [] → tail = []) ∧ d.Restarts above n c mid

theorem Untangles.loopless_nil (h : d.Untangles n items out) :
    d.ExpandsLoopless [] n items out := by
  rcases h [] .nil (by simp) with h | h
  · exact h
  · obtain ⟨p, rest, c, mid, tail, -, -, -, -, hrestarts⟩ := h
    exact absurd hrestarts not_restarts_nil

theorem Untangles.fresh_scope (hloops : d.OnlyUnitLoops) (stored : d.Stores a body)
    (h : d.Untangles n body mid) (hnodup : above.Nodup)
    (hleads : ∀ b ∈ above, ReflTransGen d.LeadsTo b a) (hnew : a ∉ above) :
    (∃ body, d.Stores a body ∧ d.ExpandsLoopless (a :: above) n body mid) ∨
      d.Restarts above n a mid := by
  have hchain : ∀ b ∈ a :: above, ReflTransGen d.LeadsTo b a := by
    intro b hb
    rcases List.mem_cons.1 hb with hb | hb
    · rw [hb]
    · exact hleads b hb
  have hfirst : ∀ b ∈ a :: above, ∀ p rest c, body = .slot p :: rest → c ∈ p.contexts →
      ReflTransGen d.LeadsTo b c := by
    intro b hb p rest c hbody hc
    exact (hchain b hb).tail ⟨p, rest, hbody ▸ stored, hc⟩
  rcases h (a :: above) (List.nodup_cons.2 ⟨hnew, hnodup⟩) hfirst with h | h
  · exact .inl ⟨body, stored, h⟩
  · obtain ⟨p, rest, c, mid, tail, rfl, hc, rfl, htail, hrestarts⟩ := h
    obtain ⟨outer, b, inner, body, heq, hcb, hstored, hbody⟩ := hrestarts
    have hb : b ∈ a :: above := by rw [heq]; simp
    -- `a` leads to `c`, `c` to `b` and `b` back to `a`: the pattern in between is the place alone.
    have hrest : rest = [] := hloops a c p rest stored hc (hcb.trans (hchain b hb))
    rw [htail hrest, List.append_nil]
    cases outer with
    | nil =>
      obtain ⟨rfl, rfl⟩ := List.cons.inj heq
      exact .inl ⟨body, hstored, hbody⟩
    | cons x outer =>
      obtain ⟨-, rfl⟩ := List.cons.inj heq
      have hab : ReflTransGen d.LeadsTo a b := hcb.head ⟨p, rest, stored, hc⟩
      exact .inr ⟨outer, b, inner, body, rfl, hab, hstored, hbody⟩

theorem Untangles.scope (hloops : d.OnlyUnitLoops) (stored : d.Stores a body)
    (h : d.Untangles n body mid) (hnodup : above.Nodup)
    (hleads : ∀ b ∈ above, ReflTransGen d.LeadsTo b a) :
    (a ∉ above ∧ ∃ body, d.Stores a body ∧ d.ExpandsLoopless (a :: above) n body mid) ∨
      d.Restarts above n a mid := by
  by_cases ha : a ∈ above
  · obtain ⟨outer, inner, rfl⟩ := List.append_of_mem ha
    have hparts := (List.nodup_append.1 hnodup).2.1
    have hleads' : ∀ b ∈ inner, ReflTransGen d.LeadsTo b a := fun b hb => hleads b (by simp [hb])
    right
    rcases fresh_scope hloops stored h (List.nodup_cons.1 hparts).2 hleads'
      (List.nodup_cons.1 hparts).1 with hhere | hrestarts
    · obtain ⟨body, hstored, hbody⟩ := hhere
      exact ⟨outer, a, inner, body, rfl, .refl, hstored, hbody⟩
    · obtain ⟨outer', b, inner', body, rfl, hab, hstored, hbody⟩ := hrestarts
      exact ⟨outer ++ a :: outer', b, inner', body, by simp, hab, hstored, hbody⟩
  · rcases fresh_scope hloops stored h hnodup hleads ha with hhere | hrestarts
    · exact .inl ⟨ha, hhere⟩
    · exact .inr hrestarts

theorem Expands.untangles (hloops : d.OnlyUnitLoops) (h : d.Expands n items out) :
    d.Untangles n items out := by
  induction h with
  | nil => exact fun above _ _ => .inl .nil
  | keep _ ih => exact fun above _ _ => .inl (.keep ih.loopless_nil)
  | @fill n p id body mid items out covers named stored _ _ ihi ihr =>
    intro above hnodup hleads
    have hrest := ihr.loopless_nil
    have hid : ∀ b ∈ above, ReflTransGen d.LeadsTo b id :=
      fun b hb => hleads b hb p items id rfl named
    rcases ihi.scope hloops stored hnodup hid with ⟨hnew, hhere⟩ | hrestarts
    · obtain ⟨body, hstored, hbody⟩ := hhere
      exact .inl (.fill covers named hnew hstored hbody hrest)
    · refine .inr ⟨p, items, id, mid, out, rfl, named, rfl, ?_, hrestarts⟩
      intro hnil
      subst hnil
      cases hrest
      rfl

theorem Expands.exists_loopless (hloops : d.OnlyUnitLoops) (stored : d.Stores a body)
    (h : d.Expands n body out) :
    ∃ body, d.Stores a body ∧ d.ExpandsLoopless [a] n body out := by
  rcases (h.untangles hloops).scope hloops stored .nil (by simp) with ⟨-, hhere⟩ | hrestarts
  · exact hhere
  · exact absurd hrestarts not_restarts_nil

end Phrasebook.Dictionary
