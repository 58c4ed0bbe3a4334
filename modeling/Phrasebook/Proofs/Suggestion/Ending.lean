import Phrasebook.Proofs.Lookahead.Guard
import Phrasebook.Proofs.Suggestion.Answers
import Phrasebook.Proofs.Walk.Guard

/-!
Every query ends. The searches that keep what they are inside of are put together to one query, which
answers on every dictionary that calls build, with what the scope suggests: also where scopes refer to
themselves or to each other and no word is read in between.
-/

namespace Phrasebook

/-- A suggestion of which some segments are done; behind a place that stays open nothing is filled. -/
structure Partial where
  segments : List Segment
  left : Nat
  stopped : Bool

namespace Partial

def push (x : Segment) (w : Partial) : Partial := { w with segments := w.segments ++ [x] }

def fill (p : Placeholder) (filled : Fillings) (w : Partial) : List Partial :=
  filled.ways.map (fun v => ⟨w.segments ++ v.1, w.left - v.2, false⟩) ++
    if filled.cut then [{ w.push (.slot p) with stopped := true }] else []

def finish (d : Dictionary) (rest : List Segment) (w : Partial) : List (List Segment) :=
  if w.stopped then [w.segments ++ rest]
  else (d.resolveSegments rest w.left).map (w.segments ++ ·)

end Partial

namespace Dictionary

def resolveLookups (d : Dictionary) (s : Suggestion) (lookahead : Nat) :
    Guarded (List Suggestion) := do
  let partials ← s.segments.foldlM (fun partials x =>
    match x with
    | .slot p => do
      let next ← partials.mapM fun w =>
        if w.stopped then pure [w.push x]
        else do
          let filled ← d.expand p w.left
          pure (w.fill p filled)
      pure next.flatten
    | x => pure (partials.map (Partial.push x))) [⟨[], lookahead, false⟩]
  pure (partials.map fun w => { s with segments := w.segments })

def query (d : Dictionary) (id : ScopeId) (tokens : List Word) (lookahead : Nat) :
    Option (List Suggestion) := do
  let found ← (d.matchScope id tokens).run' ∅
  let open_ := distinct [] ((found.filter Walk.isComplete).flatMap (·.unwind tokens))
  if lookahead = 0 then pure open_
  else
    let resolved ← open_.mapM fun s => (d.resolveLookups s lookahead).run' ∅
    pure (distinct [] resolved.flatten)

variable {d : Dictionary} {p : Placeholder} {x : Segment} {rest : List Segment}

theorem finish_push {w : Partial} (h : w.stopped = true ∨ x.isSlot = false) :
    (w.push x).finish d rest = w.finish d (x :: rest) := by
  cases hstopped : w.stopped with
  | true => simp [Partial.finish, Partial.push, hstopped]
  | false =>
    rw [hstopped] at h
    cases x with
    | slot p => simp [Segment.isSlot] at h
    | _ => simp [Partial.finish, Partial.push, hstopped, resolveSegments, Function.comp_def]

theorem flatMap_finish_fill {w : Partial} (h : w.stopped = false) :
    (w.fill p (d.fill d.ids p w.left)).flatMap (Partial.finish d rest) =
      w.finish d (.slot p :: rest) := by
  simp only [Partial.fill, Partial.finish, h, resolveSegments, List.flatMap_append,
    List.flatMap_map, List.map_append, List.map_flatMap, List.map_map, Function.comp_def,
    Bool.false_eq_true, if_false]
  refine congrArg₂ (· ++ ·) ?_ ?_
  · simp
  · split_ifs <;> simp [Partial.finish, Partial.push]

/-- All partial suggestions go on at once, and come to what the suggestion comes to place by place. -/
theorem resolveLookups_ends (hd : d.Sound) (s : Suggestion) (lookahead : Nat) :
    (d.resolveLookups s lookahead).Ends ∅ (· = d.resolve s lookahead) := by
  rw [resolveLookups]
  refine (Guarded.Ends.foldlM (I := fun rest partials => partials.flatMap (Partial.finish d rest) =
    d.resolveSegments s.segments lookahead) (fun x rest partials h => ?_) ?_).bind
      fun partials h => .pure ?_
  · rw [← h]
    clear h
    match x with
    | .slot p =>
      refine (Guarded.Ends.mapM (R := fun w next =>
        next.flatMap (Partial.finish d rest) = w.finish d (.slot p :: rest)) fun w _ => ?_).bind
          fun next hnext => .pure ?_
      · split_ifs with hstopped
        · exact .pure (by rw [List.flatMap_singleton, finish_push (.inl hstopped)])
        · refine (expand_ends hd p w.left ∅).bind fun filled hfilled => .pure ?_
          rw [hfilled.eq _ (.empty d _), flatMap_finish_fill (Bool.eq_false_iff.2 hstopped)]
      · induction hnext with
        | nil => rfl
        | cons hw _ ih => rw [List.flatten_cons, List.flatMap_append, List.flatMap_cons, hw, ih]
    | .text t | .word t =>
      refine .pure ?_
      rw [List.flatMap_map]
      exact List.flatMap_congr fun w _ => finish_push (.inr rfl)
  · simp [Partial.finish]
  · have hdone : ∀ w : Partial, w.finish d [] = [w.segments] := by
      intro w
      simp [Partial.finish, resolveSegments]
    rw [resolve, ← h, List.map_flatMap]
    simp only [hdone, List.map_singleton]
    exact List.map_eq_flatMap

theorem query_eq_suggest (h : d.Arranged) (hd : d.Sound) {id : ScopeId} {root : Node}
    (hroot : d.root? id = some root) (tokens : List Word) (lookahead : Nat) :
    d.query id tokens lookahead = some (d.suggest id tokens lookahead) := by
  have hresolved : ∀ s, (d.resolveLookups s lookahead).run' ∅ = some (d.resolve s lookahead) :=
    fun s => (resolveLookups_ends hd s lookahead).run'_eq
  have hall : ∀ l : List Suggestion, l.mapM (fun s => (d.resolveLookups s lookahead).run' ∅) =
      some (l.map fun s => d.resolve s lookahead) := by
    intro l
    rw [mapM_eq_some_iff, List.map_map]
    exact List.map_congr_left fun s _ => hresolved s
  rw [query, run'_matchScope h hroot, suggest]
  change (if lookahead = 0 then some (d.continuations id tokens) else
    ((d.continuations id tokens).mapM fun s => (d.resolveLookups s lookahead).run' ∅).bind
      fun resolved => some (distinct [] resolved.flatten)) = _
  rw [hall, Option.bind_some, List.flatten_eq_flatMap, List.flatMap_map]
  split_ifs <;> rfl

/-- Whatever the active pairs, and from any position that the calls made. -/
theorem searches_end (calls : List Call) :
    (∀ id < (ofCalls calls).scopes.length, ∀ tokens active,
      ∃ found, (ofCalls calls).matchScope id tokens active = some (found, active)) ∧
    (∀ x ∈ (ofCalls calls).positions, ∀ tokens active,
      (∃ found, (ofCalls calls).matchBoundary x.2 tokens active = some (found, active)) ∧
      ∀ p place, (p, place) ∈ x.2.slots →
        ∃ found, (ofCalls calls).matchLookup p place tokens active = some (found, active)) ∧
    (∀ p budget active,
      ∃ filled, (ofCalls calls).expand p budget active = some (filled, active)) ∧
    (∀ segments budget active,
      ∃ filled, (ofCalls calls).resolveFully segments budget active = some (filled, active)) ∧
    ∀ id < (ofCalls calls).scopes.length, ∀ tokens lookahead,
      (ofCalls calls).query id tokens lookahead =
        some ((ofCalls calls).suggest id tokens lookahead) := by
  have h := arranged_ofCalls calls
  have hd := sound_ofCalls calls
  have hroot : ∀ id < (ofCalls calls).scopes.length, ∃ root, (ofCalls calls).root? id = some root :=
    fun id hlt => ⟨_, by rw [root?, List.getElem?_eq_getElem hlt, Option.map_some]⟩
  refine ⟨?_, ?_, ?_, ?_, ?_⟩
  · intro id hlt tokens active
    obtain ⟨root, hroot⟩ := hroot id hlt
    exact (matchScope_ends h hroot tokens active).returns
  · intro x hx tokens active
    exact ⟨(matchBoundary_ends h hx tokens active).returns,
      fun p place hslot => (matchLookup_ends h hx hslot tokens active).returns⟩
  · exact fun p budget active => (expand_ends hd p budget active).returns
  · exact fun segments budget active => (resolveFully_ends hd segments budget active).returns
  · intro id hlt tokens lookahead
    obtain ⟨root, hroot⟩ := hroot id hlt
    exact query_eq_suggest h hd hroot tokens lookahead

theorem searches_end_errands :
    (∃ found, (ofCalls errands).matchScope 0 [go] ∅ = some (found, ∅)) ∧
    (ofCalls errands).query 1 [go] 0 = some [⟨none, [.word "home"]⟩] := by
  have hscopes : (ofCalls errands).scopes.length = 2 := by cbv
  have hanswer : (ofCalls errands).suggest 1 [go] 0 = [⟨none, [.word "home"]⟩] := by cbv
  obtain ⟨hscope, -, -, -, hquery⟩ := searches_end errands
  refine ⟨hscope 0 (by omega) [go] ∅, ?_⟩
  rw [hquery 1 (by omega) [go] 0, hanswer]

end Dictionary
end Phrasebook
