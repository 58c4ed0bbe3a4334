import Phrasebook.Proofs.Dictionary.Arrangement
import Phrasebook.Proofs.Guard
import Phrasebook.Proofs.Walk.Reading

/-!
The walks found by a search that keeps the pairs it is inside of: a scope and the number of words that
were left when it was entered. On every dictionary that calls build the search ends, whatever the
active pairs, since from one call to the next fewer words are left or fewer scopes may be entered with
the same words left. That a filling leaves fewer words than it began with is part of what is proved of
it. Where no pair with fewer words is active the search finds the walks that the scopes still free
allow.
-/

namespace Phrasebook

namespace Dictionary

mutual

def matchScope (d : Dictionary) (id : ScopeId) (tokens : List Word) : Guarded (List Walk) :=
  .enter (id, tokens.length) [] do
    let root ← liftM (d.root? id)
    d |>.matchBoundary root tokens
partial_fixpoint

def matchBoundary (d : Dictionary) (n : Node) (tokens : List Word) : Guarded (List Walk) :=
  match tokens with
  | [] => pure [⟨n, [], []⟩]
  | token :: rest => do
    let direct ← (match n.spell token.letters with
      | none => pure []
      | some stop =>
        if rest = [] then pure [⟨stop, [], rest⟩]
        else do
          let later ← d |>.matchBoundary stop rest
          pure ((if stop.isEnd then [⟨stop, [], rest⟩] else []) ++ later))
    let through ← n.slots.mapM fun slot => d |>.matchLookup slot.1 slot.2 (token :: rest)
    pure (direct ++ through.flatten)
partial_fixpoint

def matchLookup (d : Dictionary) (p : Placeholder) (place : Node) (tokens : List Word) :
    Guarded (List Walk) := do
  let found ← p.contexts.mapM fun id => do
    let inner ← d |>.matchScope id tokens
    let outer ← inner.mapM fun w =>
      if w.isComplete then pure [w.leave place]
      else if w.top.isEnd then do
        let later ← d |>.matchBoundary place w.rest
        pure ((if place.isEnd then [w.leave place] else []) ++ later)
      else pure []
    pure outer.flatten
  pure found.flatten
partial_fixpoint

end

variable {d : Dictionary} {active : Active} {j k : Nat} {id : ScopeId} {root place : Node}
  {p : Placeholder} {x : Entry × Node}

/-- What a search with `k` words to read finds: walks that read some of them, and all those that the
free scopes allow. -/
structure Finds (d : Dictionary) (active : Active) (k : Nat) (walks : List ScopeId → List Walk)
    (found : List Walk) : Prop where
  shorter : ∀ w ∈ found, w.rest = [] ∨ w.rest.length < k
  eq : ∀ free, d.Guards active k free → found = walks free

namespace Finds
variable {f g : List ScopeId → List Walk} {found found' : List Walk}

theorem nil : d.Finds active k (fun _ => []) [] := ⟨by simp, fun _ _ => rfl⟩

theorem append (h : d.Finds active k f found) (h' : d.Finds active k g found') :
    d.Finds active k (fun free => f free ++ g free) (found ++ found') where
  shorter := by
    intro w hw
    rcases List.mem_append.1 hw with hw | hw
    · exact h.shorter w hw
    · exact h'.shorter w hw
  eq := fun free hfree => by rw [h.eq free hfree, h'.eq free hfree]

theorem flatten {α : Type} {f : α → List ScopeId → List Walk} {l : List α}
    {all : List (List Walk)} (h : List.Forall₂ (fun a => d.Finds active k (f a)) l all) :
    d.Finds active k (fun free => l.flatMap fun a => f a free) all.flatten := by
  induction h with
  | nil => exact nil
  | cons ha _ ih => exact ha.append ih

theorem found_if {w : Walk} {b : Bool} (hw : w.rest.length < k) :
    d.Finds active k (fun _ => if b then [w] else []) (if b then [w] else []) where
  shorter := by
    intro v hv
    split at hv
    · rw [List.mem_singleton.1 hv]
      exact .inr hw
    · cases hv
  eq := fun _ _ => rfl

theorem of_less (h : d.Finds active j f found) (hj : j < k) :
    d.Finds active k (fun _ => f d.ids) found where
  shorter := fun w hw => (h.shorter w hw).imp_right hj.trans'
  eq := fun _ hfree => h.eq d.ids (hfree.less hj)

end Finds

theorem Arranged.slot (h : d.Arranged) (hx : x ∈ d.positions) (hslot : (p, place) ∈ x.2.slots) :
    (.slot p, place) ∈ d.positions :=
  ((h.placed x hx).arcs (.slot p) place hslot).1

theorem Arranged.spell (h : d.Arranged) (hx : x ∈ d.positions) {letters : List Char} {stop : Node}
    (hs : x.2.spell letters = some stop) : ∃ e, (e, stop) ∈ d.positions := by
  have hfollow : ∀ (letters : List Char) (x : Entry × Node), x ∈ d.positions →
      x.2.follow letters = some stop → ∃ e, (e, stop) ∈ d.positions := by
    intro letters
    induction letters with
    | nil =>
      intro x hx hs
      cases hs
      exact ⟨x.1, hx⟩
    | cons c letters ih =>
      intro x hx hs
      have hplaced := h.placed x hx
      obtain ⟨m, hm, hs⟩ := Option.bind_eq_some_iff.1 hs
      have ha : x.2.Arc (.more c) m := (Edges.find?_eq_some_iff hplaced.chars).1 hm
      exact ih _ (hplaced.arcs _ m ha).1 hs
  cases letters with
  | nil => cases hs
  | cons c letters =>
    have hplaced := h.placed x hx
    obtain ⟨m, hm, hs⟩ := Option.bind_eq_some_iff.1 hs
    have ha : x.2.Arc (.start c) m := (Edges.find?_eq_some_iff hplaced.words).1 hm
    exact hfollow letters _ (hplaced.arcs _ m ha).1 hs

theorem Arranged.exists_root (h : d.Arranged) (hx : x ∈ d.positions)
    (hslot : (p, place) ∈ x.2.slots) (hid : id ∈ p.contexts) : ∃ root, d.root? id = some root :=
  exists_root?_of_lt (((h.placed x hx).contexts p place hslot).2 id hid)

-- One induction for the three searches: on the words left, with the same words on the scopes that may
-- still be entered, and with the same scopes on which of the three calls which.
mutual

theorem matchScope_ends (h : d.Arranged) {id : ScopeId} {root : Node}
    (hroot : d.root? id = some root) (tokens : List Word) (active : Active) :
    (d.matchScope id tokens).Ends active (d.Finds active tokens.length fun free =>
      if id ∈ free then d.walks (free.erase id) root tokens else []) := by
  rw [matchScope]
  have hlt := lt_of_root? hroot
  refine .enter (fun hkey => ⟨by simp, fun free hfree => ?_⟩) fun hkey => ?_
  · exact (if_neg fun hid => ((hfree.mem_iff id).1 hid).2 hkey).symm
  · refine (Guarded.Ends.lift hroot rfl).bind fun m hm => ?_
    subst hm
    have hx := root?_iff_mem_positions.1 hroot
    refine (matchBoundary_ends h hx tokens _).mono fun found hfound => ?_
    refine ⟨hfound.shorter, fun free hfree => ?_⟩
    rw [if_pos ((hfree.mem_iff id).2 ⟨hlt, hkey⟩)]
    exact hfound.eq _ (hfree.enter id)
termination_by (tokens.length, (d.inactive active tokens.length).length, 0)
decreasing_by exact .right _ (.left _ _ (length_inactive_lt hlt hkey))

theorem matchBoundary_ends (h : d.Arranged) {x : Entry × Node} (hx : x ∈ d.positions)
    (tokens : List Word) (active : Active) : (d.matchBoundary x.2 tokens).Ends active
      (d.Finds active tokens.length fun free => d.walks free x.2 tokens) := by
  cases tokens with
  | nil =>
    rw [matchBoundary.eq_def]
    exact .pure ⟨by simp, fun free _ => walks_nil.symm⟩
  | cons token rest =>
    rw [matchBoundary.eq_def]
    simp only [walks_cons]
    refine Guarded.Ends.bind (P := d.Finds active (token :: rest).length fun _ =>
      d.wordWalks x.2 token rest) ?_ fun direct hdirect => ?_
    · rw [wordWalks]
      cases hs : x.2.spell token.letters with
      | none => exact .pure .nil
      | some stop =>
        rw [Option.elim_some]
        obtain ⟨e, hstop⟩ := h.spell hx hs
        by_cases hrest : rest = []
        · subst hrest
          exact .pure ⟨by simp, fun free _ => by simp [walks_nil]⟩
        · have hopen : (stop.isEnd && !rest.isEmpty) = stop.isEnd := by simp [hrest]
          have hless : rest.length < (token :: rest).length := Nat.lt_succ_self _
          dsimp only
          rw [if_neg hrest, hopen]
          exact (matchBoundary_ends h hstop rest active).bind fun later hlater =>
            .pure (.append (.found_if hless) (hlater.of_less hless))
    · exact (Guarded.Ends.mapM fun slot hslot =>
        matchLookup_ends h hx hslot (token :: rest) active).bind fun through hthrough =>
          .pure (hdirect.append (.flatten hthrough))
termination_by (tokens.length, (d.inactive active tokens.length).length, 2)

theorem matchLookup_ends (h : d.Arranged) {x : Entry × Node} (hx : x ∈ d.positions)
    {p : Placeholder} {place : Node} (hslot : (p, place) ∈ x.2.slots) (tokens : List Word)
    (active : Active) : (d.matchLookup p place tokens).Ends active
      (d.Finds active tokens.length fun free => d.walksThrough free p place tokens) := by
  simp only [walksThrough_eq]
  rw [matchLookup]
  refine (Guarded.Ends.mapM fun id hid => ?_).bind fun found hfound => .pure (.flatten hfound)
  obtain ⟨root, hroot⟩ := h.exists_root hx hslot hid
  refine (matchScope_ends h hroot tokens active).bind fun inner hinner => ?_
  refine Guarded.Ends.bind (Guarded.Ends.mapM (R := fun w =>
    d.Finds active tokens.length fun _ => d.onward place w) fun w hw => ?_)
    fun outer houter => .pure ?_
  · by_cases hcomplete : w.isComplete = true
    · rw [if_pos hcomplete, onward, if_pos hcomplete]
      have hrest := (Walk.isComplete_iff w).1 hcomplete
      exact .pure ⟨by simp [Walk.rest_leave, hrest], fun _ _ => rfl⟩
    · have hless := (hinner.shorter w hw).resolve_left fun hrest =>
        hcomplete ((Walk.isComplete_iff w).2 hrest)
      have hleave : (w.leave place).rest.length < tokens.length := by rwa [Walk.rest_leave]
      rw [if_neg hcomplete]
      by_cases hend : w.top.isEnd = true
      · rw [if_pos hend, onward, if_neg hcomplete, if_pos hend]
        exact (matchBoundary_ends h (h.slot hx hslot) w.rest active).bind fun later hlater =>
          .pure (.append (.found_if hleave) (hlater.of_less hless))
      · rw [if_neg hend, onward, if_neg hcomplete, if_neg hend]
        exact .pure .nil
  · have hall := Finds.flatten houter
    refine ⟨hall.shorter, fun free hfree => ?_⟩
    rw [hall.eq free hfree, hinner.eq free hfree, hroot, Option.elim_some]
    split_ifs <;> rfl
termination_by (tokens.length, (d.inactive active tokens.length).length, 1)

end

theorem run'_matchScope (h : d.Arranged) (hroot : d.root? id = some root) (tokens : List Word) :
    (d.matchScope id tokens).run' ∅ = some (d.scopeWalks id tokens) := by
  have hid : id ∈ d.ids := List.mem_range.2 (lt_of_root? hroot)
  refine ((matchScope_ends h hroot tokens ∅).mono fun found hfound => ?_).run'_eq
  rw [hfound.eq _ (.empty d _), if_pos hid, scopeWalks, hroot]

end Dictionary
end Phrasebook
