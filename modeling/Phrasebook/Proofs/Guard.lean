import Mathlib.Data.Finset.Card
import Mathlib.Data.List.Forall2
import Phrasebook.Dictionary

/-!
Searches with a guard. A search notes what it is inside of, a scope and how much is left to do there,
and does not enter the same pair again. It may fail to end, or enter a scope that is not there; then
it gives nothing. What is proved of one is that it ends, that it leaves the pairs as it found them,
and what it gives.
-/

namespace Phrasebook

/-- The scopes a search is inside of, each with what was left when it was entered. -/
abbrev Active := Finset (ScopeId × Nat)

abbrev Guarded (α : Type) := StateT Active Option α

namespace Guarded

variable {α β : Type} {m : Guarded α} {f : α → Guarded β} {active : Active} {P P' : α → Prop}
  {Q : β → Prop} {key : ScopeId × Nat}

abbrev enter (key : ScopeId × Nat) (again : α) (search : Guarded α) : Guarded α := do
  let active ← get
  if key ∈ active then pure again
  else
    set (insert key active)
    let a ← search
    modify fun active => active.erase key
    pure a

/-- The search ends, leaves the active pairs as it found them, and gives a result of this kind. -/
def Ends (m : Guarded α) (active : Active) (P : α → Prop) : Prop :=
  ∃ a, m active = some (a, active) ∧ P a

namespace Ends

theorem pure {a : α} (h : P a) : Ends (pure a) active P := ⟨a, rfl, h⟩

theorem mono (h : Ends m active P) (hP : ∀ a, P a → P' a) : Ends m active P' := by
  obtain ⟨a, hm, ha⟩ := h
  exact ⟨a, hm, hP a ha⟩

theorem returns (h : Ends m active P) : ∃ a, m active = some (a, active) := by
  obtain ⟨a, hm, -⟩ := h
  exact ⟨a, hm⟩

theorem run'_eq {a : α} (h : Ends m active (· = a)) : m.run' active = some a := by
  obtain ⟨b, hm, rfl⟩ := h
  change (m active).map Prod.fst = some b
  rw [hm, Option.map_some]

theorem bind (h : Ends m active P) (hf : ∀ a, P a → Ends (f a) active Q) :
    Ends (m >>= f) active Q := by
  obtain ⟨a, hm, ha⟩ := h
  obtain ⟨b, hb, hQ⟩ := hf a ha
  refine ⟨b, ?_, hQ⟩
  change (m active).bind (fun r => f r.1 r.2) = some (b, active)
  rw [hm, Option.bind_some, hb]

theorem mapM {l : List α} {R : α → β → Prop} (h : ∀ a ∈ l, Ends (f a) active (R a)) :
    Ends (l.mapM f) active (List.Forall₂ R l) := by
  induction l with
  | nil => exact .pure .nil
  | cons a l ih =>
    rw [List.forall_mem_cons] at h
    rw [List.mapM_cons]
    exact h.1.bind fun b hb => (ih h.2).bind fun bs hbs => .pure (.cons hb hbs)

theorem foldlM {step : β → α → Guarded β} {I : List α → β → Prop} {l : List α} {b : β}
    (hstep : ∀ a rest b, I (a :: rest) b → Ends (step b a) active (I rest)) (h : I l b) :
    Ends (l.foldlM step b) active (I []) := by
  induction l generalizing b with
  | nil => exact .pure h
  | cons a rest ih =>
    rw [List.foldlM_cons]
    exact (hstep a rest b h).bind fun b hb => ih hb

theorem lift {o : Option α} {a : α} (ho : o = some a) (h : P a) :
    Ends (liftM o : Guarded α) active P := by
  subst ho
  exact ⟨a, rfl, h⟩

theorem enter {again : α} (hagain : key ∈ active → P again)
    (h : key ∉ active → Ends m (insert key active) P) : Ends (enter key again m) active P := by
  by_cases hkey : key ∈ active
  · refine ⟨again, ?_, hagain hkey⟩
    change (if key ∈ active then Pure.pure again else _ : Guarded α) active = _
    rw [if_pos hkey]
    rfl
  · obtain ⟨a, hm, ha⟩ := h hkey
    refine ⟨a, ?_, ha⟩
    change (if key ∈ active then Pure.pure again else _ : Guarded α) active = _
    rw [if_neg hkey]
    change (m (insert key active)).bind _ = _
    rw [hm, Option.bind_some]
    change some (a, (insert key active).erase key) = _
    rw [Finset.erase_insert hkey]

end Ends
end Guarded

namespace Dictionary

variable {d : Dictionary} {active : Active} {k : Nat} {free : List ScopeId} {id : ScopeId}

def inactive (d : Dictionary) (active : Active) (k : Nat) : List ScopeId :=
  d.ids.filter fun id => (id, k) ∉ active

theorem length_inactive_lt (hid : id < d.scopes.length) (h : (id, k) ∉ active) :
    (d.inactive (insert (id, k) active) k).length < (d.inactive active k).length := by
  have hmem : id ∈ d.inactive active k := List.mem_filter.2 ⟨List.mem_range.2 hid, by simpa using h⟩
  have herase : d.inactive (insert (id, k) active) k = (d.inactive active k).erase id := by
    have hnodup : (d.inactive active k).Nodup := List.nodup_range.filter _
    rw [hnodup.erase_eq_filter, inactive, inactive, List.filter_filter]
    refine List.filter_congr fun i _ => ?_
    have hkey : (i, k) = (id, k) ↔ i = id := by simp
    rw [Bool.eq_iff_iff]
    simp [hkey]
  rw [herase]
  exact length_erase_lt hmem

/-- The free scopes are those that may be entered where `k` is left; none was entered with less
left. -/
structure Guards (d : Dictionary) (active : Active) (k : Nat) (free : List ScopeId) : Prop where
  nodup : free.Nodup
  mem_iff : ∀ id, id ∈ free ↔ id < d.scopes.length ∧ (id, k) ∉ active
  least : ∀ key ∈ active, k ≤ key.2

namespace Guards

theorem empty (d : Dictionary) (k : Nat) : d.Guards ∅ k d.ids where
  nodup := List.nodup_range
  mem_iff := by simp [ids]
  least := by simp

theorem enter (h : d.Guards active k free) (id : ScopeId) :
    d.Guards (insert (id, k) active) k (free.erase id) where
  nodup := h.nodup.erase id
  mem_iff := by
    intro i
    have hkey : (i, k) = (id, k) ↔ i = id := by simp
    rw [h.nodup.mem_erase_iff, h.mem_iff, Finset.mem_insert, not_or, hkey]
    exact and_left_comm
  least := by
    intro key hkey
    rcases Finset.mem_insert.1 hkey with rfl | hkey
    · exact le_rfl
    · exact h.least key hkey

theorem less (h : d.Guards active k free) {j : Nat} (hj : j < k) : d.Guards active j d.ids where
  nodup := List.nodup_range
  mem_iff := by
    intro id
    rw [ids, List.mem_range, iff_self_and]
    intro _ hmem
    exact Nat.not_le.2 hj (h.least _ hmem)
  least := fun key hkey => hj.le.trans (h.least key hkey)

end Guards
end Dictionary
end Phrasebook
