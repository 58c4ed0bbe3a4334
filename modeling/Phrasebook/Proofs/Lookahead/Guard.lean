import Phrasebook.Proofs.Guard
import Phrasebook.Proofs.Lookahead.Filling

/-!
The fillings found by a search that keeps the pairs it is inside of: a scope and the budget with which
it was entered. It takes the segments of a pattern one after the other and fills them in all partial
fillings at once. On every dictionary that calls build the search ends, whatever the active pairs: a
filling costs at least a word, so behind it the budget is smaller, and before it fewer scopes may be
entered with the same budget. Where no pair with a smaller budget is active it finds what the search
that goes through the fillings one by one finds, in the same order.
-/

namespace Phrasebook

namespace Fillings
variable {f : Fillings} {k : List Segment × Nat → Fillings} {head head' : List Segment}
  {cost cost' : Nat}

theorem after_nil : f.after [] 0 = f := by
  simp [after]

theorem after_after :
    (f.after head cost).after head' cost' = f.after (head' ++ head) (cost' + cost) := by
  simp [after, Nat.add_assoc]

theorem after_bind : (f.bind k).after head cost = f.bind fun w => (k w).after head cost := by
  refine ext ?_ ?_
  · simp [after, bind, join, List.map_flatMap, List.flatMap_map]
  · simp [after, bind, join, Function.comp_def]

theorem bind_after :
    (f.after head cost).bind k = f.bind fun w => k (head ++ w.1, cost + w.2) := by
  simp [after, bind, Function.comp_def]

theorem bind_single (w : List Segment × Nat) (k : List Segment × Nat → Fillings) :
    bind { ways := [w] } k = k w := by
  refine ext ?_ ?_ <;> simp [bind, join]

theorem bind_pure (f : Fillings) : (f.bind fun w => { ways := [w] }) = f := by
  refine ext ?_ ?_
  · simp [bind, join, List.flatMap_map]
  · simp [bind, join]

end Fillings

namespace Dictionary

mutual

def expand (d : Dictionary) (p : Placeholder) (budget : Nat) : Guarded Fillings := do
  let all ← p.contexts.mapM fun id =>
    match d.root? id with
    | none => pure {}
    | some root => .enter (id, budget) { cut := true } do
      let bodies ← root.tails.mapM fun t => d |>.resolveFully t.close budget
      pure (.join bodies)
  pure (.join all)
partial_fixpoint

def resolveFully (d : Dictionary) (segments : List Segment) (budget : Nat) : Guarded Fillings :=
  segments.foldlM (fun partials x => do
    let next ← partials.ways.mapM fun w =>
      match x with
      | .slot p => do
        let filled ← d |>.expand p (budget - w.2)
        pure (filled.after w.1 w.2)
      | x =>
        if w.2 = budget then pure { cut := true } else pure { ways := [(w.1 ++ [x], w.2 + 1)] }
    let all := Fillings.join next
    pure { all with cut := partials.cut || all.cut }) { ways := [([], 0)] }
partial_fixpoint

end

variable {d : Dictionary} {active : Active} {free : List ScopeId} {budget least : Nat}
  {x : Segment} {w : List Segment × Nat} {segments rest : List Segment}

/-- What a search within the budget fills in: ways that cost at least `least` words, and all those
that the free scopes allow. -/
structure Draws (d : Dictionary) (active : Active) (budget least : Nat)
    (fillings : List ScopeId → Fillings) (found : Fillings) : Prop where
  cost : ∀ w ∈ found.ways, least ≤ w.2 ∧ w.2 ≤ budget
  eq : ∀ free, d.Guards active budget free → found = fillings free

namespace Draws

theorem eq_map {α : Type} {f : α → List ScopeId → Fillings} {l : List α} {all : List Fillings}
    (h : List.Forall₂ (fun a => d.Draws active budget least (f a)) l all)
    (hfree : d.Guards active budget free) : all = l.map fun a => f a free := by
  induction h with
  | nil => rfl
  | cons ha _ ih => rw [List.map_cons, ← ih, ha.eq free hfree]

theorem cost_join {α : Type} {f : α → List ScopeId → Fillings} {l : List α} {all : List Fillings}
    (h : List.Forall₂ (fun a => d.Draws active budget least (f a)) l all) :
    ∀ w ∈ (Fillings.join all).ways, least ≤ w.2 ∧ w.2 ≤ budget := by
  induction h with
  | nil => simp [Fillings.join]
  | cons ha _ ih =>
    intro w hw
    rw [Fillings.join, List.flatMap_cons, List.mem_append] at hw
    exact hw.elim (ha.cost w) (ih w)

theorem join {α : Type} {f : α → List ScopeId → Fillings} {l : List α} {all : List Fillings}
    (h : List.Forall₂ (fun a => d.Draws active budget least (f a)) l all) :
    d.Draws active budget least (fun free => .join (l.map fun a => f a free)) (.join all) where
  cost := cost_join h
  eq := fun free hfree => by rw [eq_map h hfree]

end Draws

def freeAfter (d : Dictionary) (free : List ScopeId) (cost : Nat) : List ScopeId :=
  if cost = 0 then free else d.ids

theorem Guards.after (h : d.Guards active budget free) {cost : Nat} (hle : cost ≤ budget) :
    d.Guards active (budget - cost) (d.freeAfter free cost) := by
  rw [freeAfter]
  split_ifs with hzero
  · rwa [hzero]
  · exact h.less (by omega)

def put (d : Dictionary) (free : List ScopeId) (budget : Nat) (x : Segment)
    (w : List Segment × Nat) : Fillings :=
  match x with
  | .slot p => (d.fill (d.freeAfter free w.2) p (budget - w.2)).after w.1 w.2
  | x => if w.2 = budget then { cut := true } else { ways := [(w.1 ++ [x], w.2 + 1)] }

theorem put_plain (plain : x.isSlot = false) : d.put free budget x w =
    if w.2 = budget then { cut := true } else { ways := [(w.1 ++ [x], w.2 + 1)] } := by
  cases x with
  | slot p => cases plain
  | _ => rfl

def goOn (d : Dictionary) (free : List ScopeId) (budget : Nat) (segments : List Segment)
    (w : List Segment × Nat) : Fillings :=
  (d.fillAll (d.freeAfter free w.2) segments (budget - w.2)).after w.1 w.2

theorem goOn_nil (w : List Segment × Nat) : d.goOn free budget [] w = { ways := [w] } := by
  rw [goOn, fillAll_nil]
  simp [Fillings.after]

theorem goOn_start : d.goOn free budget segments ([], 0) = d.fillAll free segments budget := by
  rw [goOn, Fillings.after_nil]
  rfl

theorem goOn_cons (hd : d.Sound) (hle : w.2 ≤ budget) :
    d.goOn free budget (x :: rest) w = (d.put free budget x w).bind (d.goOn free budget rest) := by
  match x with
  | .slot p =>
    rw [put, Fillings.bind_after, goOn, fillAll_slot_eq (cost_of_mem_fill hd), Fillings.after_bind]
    refine Fillings.bind_congr fun u hu => ?_
    have hcost := (cost_of_mem_fill hd u hu).1
    rw [Fillings.after_after, goOn, freeAfter, if_neg (by omega), Nat.sub_sub]
  | .text t | .word t =>
    by_cases hspent : w.2 = budget
    · rw [goOn, put_plain rfl, if_pos hspent, hspent, Nat.sub_self, fillAll_plain_zero _ _ rfl]
      rfl
    · obtain ⟨left, hleft⟩ : ∃ left, budget - w.2 = left + 1 := ⟨budget - w.2 - 1, by omega⟩
      have hnext : budget - (w.2 + 1) = left := by omega
      rw [put_plain rfl, if_neg hspent, Fillings.bind_single, goOn, goOn, hleft,
        fillAll_plain_succ _ _ rfl, Fillings.after_after, freeAfter, if_neg (Nat.succ_ne_zero w.2),
        hnext]

/-- The partial fillings once only `rest` is to come: each segment behind them cost a word, and
together they come to all the fillings there are. -/
structure Partway (d : Dictionary) (active : Active) (budget : Nat) (segments rest : List Segment)
    (partials : Fillings) : Prop where
  cost : ∀ w ∈ partials.ways, segments.length ≤ w.2 + rest.length ∧ w.2 ≤ budget
  eq : ∀ free, d.Guards active budget free →
    partials.bind (d.goOn free budget rest) = d.fillAll free segments budget

namespace Partway
variable {partials : Fillings} {next : List Fillings}

theorem start : d.Partway active budget segments segments { ways := [([], 0)] } where
  cost := by simp
  eq := fun free _ => by rw [Fillings.bind_single, goOn_start]

theorem step (hd : d.Sound) (h : d.Partway active budget segments (x :: rest) partials)
    (hnext : List.Forall₂ (fun w => d.Draws active budget (segments.length - rest.length)
      fun free => d.put free budget x w) partials.ways next) :
    d.Partway active budget segments rest
      { Fillings.join next with cut := partials.cut || (Fillings.join next).cut } where
  cost := by
    intro w hw
    have hspent := Draws.cost_join hnext w hw
    omega
  eq := by
    intro free hfree
    have hput : ({ Fillings.join next with cut := partials.cut || (Fillings.join next).cut } :
        Fillings) = partials.bind (d.put free budget x) := by
      rw [Draws.eq_map hnext hfree]
      rfl
    rw [hput, Fillings.bind_assoc, ← h.eq free hfree]
    exact Fillings.bind_congr fun w hw => (goOn_cons hd (h.cost w hw).2).symm

theorem draws (h : d.Partway active budget segments [] partials) :
    d.Draws active budget segments.length (fun free => d.fillAll free segments budget) partials where
  cost := h.cost
  eq := by
    intro free hfree
    rw [← h.eq free hfree, Fillings.bind_congr fun w _ => goOn_nil w, Fillings.bind_pure]

end Partway

theorem put_slot_ends {p : Placeholder} (hle : w.2 ≤ budget) (hleast : least ≤ w.2 + 1)
    (hexpand : (d.expand p (budget - w.2)).Ends active
      (d.Draws active (budget - w.2) 1 fun free => d.fill free p (budget - w.2))) :
    (do
      let filled ← d.expand p (budget - w.2)
      pure (filled.after w.1 w.2) : Guarded Fillings).Ends active
        (d.Draws active budget least fun free => d.put free budget (.slot p) w) := by
  refine hexpand.bind fun filled hfilled => .pure ⟨fun u hu => ?_, fun free hfree => ?_⟩
  · obtain ⟨v, hv, rfl⟩ := Fillings.mem_after_iff.1 hu
    have hspent := hfilled.cost v hv
    dsimp only
    omega
  · rw [put, hfilled.eq _ (hfree.after hle)]

theorem put_plain_ends (plain : x.isSlot = false) (hle : w.2 ≤ budget) (hleast : least ≤ w.2 + 1) :
    (if w.2 = budget then pure { cut := true } else pure { ways := [(w.1 ++ [x], w.2 + 1)] } :
      Guarded Fillings).Ends active
        (d.Draws active budget least fun free => d.put free budget x w) := by
  split_ifs with hspent
  · exact .pure ⟨by simp, fun free _ => by rw [put_plain plain, if_pos hspent]⟩
  · refine .pure ⟨?_, fun free _ => by rw [put_plain plain, if_neg hspent]⟩
    simp only [List.mem_singleton, forall_eq]
    omega

theorem resolveFully_ends_of (hd : d.Sound) (hexpand : ∀ (p : Placeholder), ∀ cost ≤ budget,
      (d.expand p (budget - cost)).Ends active
        (d.Draws active (budget - cost) 1 fun free => d.fill free p (budget - cost)))
    (segments : List Segment) : (d.resolveFully segments budget).Ends active
      (d.Draws active budget segments.length fun free => d.fillAll free segments budget) := by
  rw [resolveFully]
  refine (Guarded.Ends.foldlM (I := d.Partway active budget segments)
    (fun x rest partials h => ?_) .start).mono fun found h => h.draws
  refine (Guarded.Ends.mapM (R := fun w => d.Draws active budget (segments.length - rest.length)
    fun free => d.put free budget x w) fun w hw => ?_).bind fun next hnext => .pure (h.step hd hnext)
  obtain ⟨hcost, hle⟩ := h.cost w hw
  have hleast : segments.length - rest.length ≤ w.2 + 1 := by
    rw [List.length_cons] at hcost
    omega
  match x with
  | .slot p => exact put_slot_ends hle hleast (hexpand p w.2 hle)
  | .text t | .word t => exact put_plain_ends rfl hle hleast

theorem expand_ends (hd : d.Sound) (p : Placeholder) (budget : Nat) (active : Active) :
    (d.expand p budget).Ends active
      (d.Draws active budget 1 fun free => d.fill free p budget) := by
  simp only [fill]
  rw [expand]
  refine (Guarded.Ends.mapM fun id hid => ?_).bind fun all hall => .pure (.join hall)
  cases hroot : d.root? id with
  | none => exact .pure ⟨by simp, fun _ _ => rfl⟩
  | some root =>
    refine .enter (fun hkey => ⟨by simp, fun free hfree => ?_⟩) fun hkey => ?_
    · dsimp only
      rw [dif_neg fun hid => ((hfree.mem_iff id).1 hid).2 hkey]
    · have hlt := lt_of_root? hroot
      have hexpand := fun (p : Placeholder) cost (hle : cost ≤ budget) =>
        expand_ends hd p (budget - cost) (insert (id, budget) active)
      refine (Guarded.Ends.mapM (R := fun t => d.Draws (insert (id, budget) active) budget 1
        fun free => d.fillAll free t.close budget) fun t ht => ?_).bind fun bodies hbodies =>
          .pure ⟨Draws.cost_join hbodies, fun free hfree => ?_⟩
      · -- A stored pattern is not empty, so each of its fillings costs a word.
        refine (resolveFully_ends_of hd hexpand t.close).mono fun found hfound => ⟨?_, hfound.eq⟩
        obtain ⟨items, hheld, hclose⟩ :=
          (hd.tree hroot).boundary.mem_map_close_iff.1 (List.mem_map_of_mem ht)
        have hpos := List.length_pos_of_ne_nil ((hd.tree hroot).fits hheld).ne_nil
        rw [hclose, List.length_map] at hfound
        exact fun w hw => ⟨hpos.trans_le (hfound.cost w hw).1, (hfound.cost w hw).2⟩
      · dsimp only
        rw [dif_pos ((hfree.mem_iff id).2 ⟨hlt, hkey⟩), Draws.eq_map hbodies (hfree.enter id)]
termination_by (budget, (d.inactive active budget).length)
decreasing_by
  rcases Nat.eq_zero_or_pos cost with rfl | hpos
  · exact .right _ (length_inactive_lt hlt hkey)
  · exact .left _ _ (Nat.sub_lt (hpos.trans_le hle) hpos)

theorem resolveFully_ends (hd : d.Sound) (segments : List Segment) (budget : Nat)
    (active : Active) : (d.resolveFully segments budget).Ends active
      (d.Draws active budget segments.length fun free => d.fillAll free segments budget) :=
  resolveFully_ends_of hd (fun p cost _ => expand_ends hd p (budget - cost) active) segments

end Dictionary
end Phrasebook
