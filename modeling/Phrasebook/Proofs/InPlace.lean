/-!
Work done on a state in place. Every change is made as it comes, and what was changed before the work
is given up stays changed. So that a failure changes nothing is something to be shown of the work: it
has to come to the same as work that is done whole or not at all.
-/

namespace Phrasebook

abbrev InPlace (ε σ : Type) := ExceptT ε (StateM σ)

namespace InPlace
variable {ε ε' σ τ α β : Type} {s s' : σ} {a : α} {e : ε}

def outcome (m : InPlace ε σ α) (s : σ) : Except ε α × σ := m.run.run s

def given (r : Except ε α) : InPlace ε σ α := ExceptT.mk (pure r)

def within (part : σ → τ) (set : τ → σ → σ) (wrap : ε → ε') (m : InPlace ε τ α) : InPlace ε' σ α :=
  ExceptT.mk fun s => ((m.outcome (part s)).1.mapError wrap, set (m.outcome (part s)).2 s)

def whole (a : α) (s : σ) : Except ε σ → Except ε α × σ
  | .ok s' => (.ok a, s')
  | .error e => (.error e, s)

theorem whole_eq_ok_iff {b : α} {r : Except ε σ} : whole a s r = (.ok b, s') ↔ a = b ∧ r = .ok s' := by
  cases r <;> simp [whole]

theorem outcome_get : (get : InPlace ε σ σ).outcome s = (.ok s, s) := rfl

theorem outcome_modify (f : σ → σ) : (modify f : InPlace ε σ PUnit).outcome s = (.ok ⟨⟩, f s) := rfl

theorem outcome_given (r : Except ε α) : (given r : InPlace ε σ α).outcome s = (r, s) := rfl

theorem outcome_within (part : σ → τ) (set : τ → σ → σ) (wrap : ε → ε') (m : InPlace ε τ α) (s : σ) :
    (within part set wrap m).outcome s =
      ((m.outcome (part s)).1.mapError wrap, set (m.outcome (part s)).2 s) := rfl

theorem outcome_bind (m : InPlace ε σ α) (f : α → InPlace ε σ β) (s : σ) :
    (m >>= f).outcome s = match m.outcome s with
      | (.ok a, s') => (f a).outcome s'
      | (.error e, s') => (.error e, s') := by
  simp only [outcome, ExceptT.run_bind, StateT.run_bind]
  rcases m.run.run s with ⟨r, s'⟩
  cases r <;> rfl

theorem outcome_bind_ok {m : InPlace ε σ α} (h : m.outcome s = (.ok a, s')) (f : α → InPlace ε σ β) :
    (m >>= f).outcome s = (f a).outcome s' := by
  rw [outcome_bind, h]

theorem outcome_forM_modify (f : σ → β → σ) (l : List β) (s : σ) :
    (l.forM fun b => modify (f · b) : InPlace ε σ PUnit).outcome s = (.ok ⟨⟩, l.foldl f s) := by
  induction l generalizing s with
  | nil => rfl
  | cons b rest ih => exact ih (f s b)

end InPlace
end Phrasebook
