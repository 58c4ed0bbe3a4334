import Phrasebook.Proofs.Sequencing
import Phrasebook.Proofs.Walk.Ends

/-!
Walks as stacks. The positions of a walk are put down one on the other, and on leaving a scope the
position on top may be taken off before the place is put down, if its pattern is over there and goes
on nowhere. Whether or not such positions are taken off, the stacks say the same in the same order, so
a scope suggests the same.
-/

namespace Phrasebook

structure Track where
  nodes : List Node
  rest : List Word

namespace Track

def isComplete (t : Track) : Bool := t.rest.isEmpty

def leave (drops : Bool) (place top : Node) (t : Track) : Track :=
  { t with
    nodes := (if drops && top.isEnd && top.isLeaf then t.nodes.dropLast else t.nodes) ++ [place] }

def unwind (t : Track) (input : List Word) : List Suggestion :=
  match t.nodes with
  | [] => []
  | innermost :: outer =>
    outer.foldl (fun heads n => heads.flatMap fun head => (n.complete []).map head.concat)
      (innermost.complete input)

end Track

namespace Dictionary

mutual

def trackings (d : Dictionary) (drops : Bool) (free : List ScopeId) (n : Node)
    (tokens : List Word) : List (Reading Track.rest tokens) :=
  match tokens with
  | [] => [⟨⟨[n], []⟩, .inl rfl⟩]
  | token :: rest =>
    (match n.spell token.letters with
      | none => []
      | some stop =>
        (if stop.isEnd && !rest.isEmpty then [⟨⟨[stop], rest⟩, .inr (Nat.lt_succ_self _)⟩]
          else []) ++
          (d.trackings drops d.ids stop rest).map (·.after (Nat.lt_succ_self _))) ++
    n.slots.flatMap fun slot => d.trackingsThrough drops free slot.1 slot.2 (token :: rest)
termination_by (tokens.length, free.length, 1)

def trackingsThrough (d : Dictionary) (drops : Bool) (free : List ScopeId) (p : Placeholder)
    (place : Node) (tokens : List Word) : List (Reading Track.rest tokens) :=
  p.contexts.flatMap fun id =>
    if _ : id ∈ free then
      match d.root? id with
      | none => []
      | some root =>
        (d.trackings drops (free.erase id) root tokens).flatMap fun r =>
          match r.found.nodes.getLast? with
          | none => []
          | some top =>
            let left := r.map (·.leave drops place top) fun _ => rfl
            if h : r.found.rest = [] then [left]
            else if top.isEnd then
              (if place.isEnd then [left] else []) ++
                (d.trackings drops d.ids place r.found.rest).map
                  (·.after (r.shorter.resolve_left h))
            else []
    else []
termination_by (tokens.length, free.length, 0)
decreasing_by
  · exact .left _ _ (r.shorter.resolve_left h)
  · exact .right _ (.left _ _ (length_erase_lt ‹_›))

end

def tracks (d : Dictionary) (drops : Bool) (free : List ScopeId) (n : Node) (tokens : List Word) :
    List Track :=
  (d.trackings drops free n tokens).map (·.found)

def scopeTracks (d : Dictionary) (drops : Bool) (id : ScopeId) (tokens : List Word) : List Track :=
  match d.root? id with
  | none => []
  | some root => d.tracks drops (d.ids.erase id) root tokens

def suggestBy (d : Dictionary) (drops : Bool) (id : ScopeId) (input : List Word) (lookahead : Nat) :
    List Suggestion :=
  let open_ := distinct []
    (((d.scopeTracks drops id input).filter Track.isComplete).flatMap (·.unwind input))
  if lookahead = 0 then open_
  else distinct [] (open_.flatMap fun s => d.resolve s lookahead)

end Dictionary

variable {d : Dictionary} {drops : Bool} {R : Walk → Track → Prop} {n place root : Node}
  {w : Walk} {t : Track} {tokens input : List Word} {id : ScopeId}

structure Simulates (drops : Bool) (R : Walk → Track → Prop) : Prop where
  start : ∀ n rest, R ⟨n, [], rest⟩ ⟨[n], rest⟩
  rest_eq : ∀ w t, R w t → t.rest = w.rest
  top_eq : ∀ w t, R w t → t.nodes.getLast? = some w.top
  leave : ∀ w t place, place.Boundary → R w t → R (w.leave place) (t.leave drops place w.top)

namespace Dictionary

mutual

theorem forall₂_trackings (hd : d.Sound) (h : Simulates drops R) (free : List ScopeId) {n : Node}
    (hn : n.Sound) (tokens : List Word) :
    List.Forall₂ (fun r r' => R r.found r'.found) (d.readings free n tokens)
      (d.trackings drops free n tokens) := by
  cases tokens with
  | nil =>
    rw [readings, trackings]
    exact .cons (h.start n []) .nil
  | cons token rest =>
    rw [readings, trackings]
    refine List.rel_append ?_ (forall₂_flatMap fun slot hslot =>
      forall₂_trackingsThrough hd h free slot.1 (hn.slot hslot).1 (token :: rest))
    cases hs : n.spell token.letters with
    | none => exact .nil
    | some stop =>
      refine List.rel_append ?_ ?_
      · split
        · exact .cons (h.start stop rest) .nil
        · exact .nil
      · rw [List.forall₂_map_left_iff, List.forall₂_map_right_iff]
        exact forall₂_trackings hd h d.ids (hn.spell hs).1 rest
termination_by (tokens.length, free.length, 1)

theorem forall₂_trackingsThrough (hd : d.Sound) (h : Simulates drops R) (free : List ScopeId)
    (p : Placeholder) {place : Node} (hplace : place.Boundary) (tokens : List Word) :
    List.Forall₂ (fun r r' => R r.found r'.found) (d.readingsThrough free p place tokens)
      (d.trackingsThrough drops free p place tokens) := by
  rw [readingsThrough, trackingsThrough]
  refine forall₂_flatMap fun id _ => ?_
  by_cases hid : id ∈ free
  · rw [dif_pos hid, dif_pos hid]
    cases hroot : d.root? id with
    | none => exact .nil
    | some root =>
      refine List.rel_flatMap
        (forall₂_trackings hd h (free.erase id) (hd.tree hroot).boundary.sound tokens) ?_
      rintro r ⟨⟨nodes, rest⟩, hshorter⟩ hr
      have hleave := h.leave r.found _ place hplace hr
      obtain rfl : rest = r.found.rest := h.rest_eq r.found _ hr
      dsimp only
      rw [h.top_eq r.found _ hr]
      dsimp only
      -- Both sides meet the same conditions.
      by_cases hover : r.found.rest = []
      · rw [dif_pos hover, dif_pos hover]
        exact .cons hleave .nil
      · rw [dif_neg hover, dif_neg hover]
        have hless := r.shorter.resolve_left hover
        split
        · refine List.rel_append ?_ ?_
          · split
            · exact .cons hleave .nil
            · exact .nil
          · rw [List.forall₂_map_left_iff, List.forall₂_map_right_iff]
            exact forall₂_trackings hd h d.ids hplace.sound r.found.rest
        · exact .nil
  · rw [dif_neg hid, dif_neg hid]
    exact .nil
termination_by (tokens.length, free.length, 0)
decreasing_by
  · exact .right _ (.left _ _ (length_erase_lt hid))
  · exact .left _ _ hless

end

theorem forall₂_tracks (hd : d.Sound) (h : Simulates drops R) (free : List ScopeId) {n : Node}
    (hn : n.Sound) (tokens : List Word) :
    List.Forall₂ R (d.walks free n tokens) (d.tracks drops free n tokens) := by
  rw [walks, tracks, List.forall₂_map_left_iff, List.forall₂_map_right_iff]
  exact forall₂_trackings hd h free hn tokens

theorem forall₂_scopeTracks (hd : d.Sound) (h : Simulates drops R) (id : ScopeId)
    (tokens : List Word) :
    List.Forall₂ R (d.scopeWalks id tokens) (d.scopeTracks drops id tokens) := by
  rw [scopeWalks, scopeTracks]
  cases hroot : d.root? id with
  | none => exact .nil
  | some root => exact forall₂_tracks hd h _ (hd.tree hroot).boundary.sound tokens

end Dictionary

def Walk.track (w : Walk) : Track := ⟨w.stack, w.rest⟩

theorem Walk.getLast?_stack (w : Walk) : w.stack.getLast? = some w.top := by
  simp [stack]

theorem Walk.stack_leave (w : Walk) (place : Node) : (w.leave place).stack =
    (if w.top.isEnd && w.top.isLeaf then w.stack.dropLast else w.stack) ++ [place] := by
  rw [leave]
  split_ifs
  · simp [stack]
  · simp [stack]

theorem simulates_track : Simulates true fun w t => w.track = t where
  start := fun n rest => rfl
  rest_eq := by
    rintro w t rfl
    rfl
  top_eq := by
    rintro w t rfl
    exact w.getLast?_stack
  leave := by
    rintro w t place - rfl
    rw [Walk.track, Walk.track, w.stack_leave, w.rest_leave]
    rfl

theorem unwind_concat {nodes : List Node} (hne : nodes ≠ []) (n : Node) (rest : List Word)
    (input : List Word) : Track.unwind ⟨nodes ++ [n], rest⟩ input =
      (Track.unwind ⟨nodes, rest⟩ input).flatMap fun head => (n.complete []).map head.concat := by
  obtain ⟨innermost, outer, rfl⟩ := List.exists_cons_of_ne_nil hne
  exact List.foldl_append

theorem Walk.unwind_track (w : Walk) (input : List Word) : w.track.unwind input = w.unwind input := by
  obtain ⟨top, inner, rest⟩ := w
  induction inner generalizing top with
  | nil => rfl
  | cons n inner ih =>
    have hne : (n :: inner).reverse ≠ [] := by simp
    have hstack : Walk.stack ⟨top, n :: inner, rest⟩ = (n :: inner).reverse ++ [top] := by
      rw [stack, List.reverse_cons]
    rw [track, hstack, unwind_concat hne]
    exact congrArg (List.flatMap _) (ih n)

structure Agrees (w : Walk) (t : Track) : Prop where
  rest_eq : t.rest = w.rest
  top_eq : t.nodes.getLast? = some w.top
  unwind_eq : ∀ input, t.unwind input = w.unwind input

theorem agrees_track (w : Walk) : Agrees w w.track :=
  ⟨rfl, w.getLast?_stack, w.unwind_track⟩

theorem simulates_agrees : Simulates false Agrees where
  start := fun n rest => agrees_track ⟨n, [], rest⟩
  rest_eq := fun w t h => h.rest_eq
  top_eq := fun w t h => h.top_eq
  leave := by
    intro w t place hplace h
    refine ⟨?_, ?_, fun input => ?_⟩
    · rw [w.rest_leave]
      exact h.rest_eq
    · rw [w.top_leave]
      simp [Track.leave]
    · have hne : t.nodes ≠ [] := by
        intro hnil
        have htop := h.top_eq
        rw [hnil] at htop
        cases htop
      rw [Walk.unwind_leave hplace, ← h.unwind_eq]
      exact unwind_concat hne place t.rest input

namespace Dictionary

theorem scopeTracks_true (hd : d.Sound) (id : ScopeId) (tokens : List Word) :
    d.scopeTracks true id tokens = (d.scopeWalks id tokens).map Walk.track := by
  have halong := List.forall₂_map_left_iff.2 (forall₂_scopeTracks hd simulates_track id tokens)
  rw [List.forall₂_eq_eq_eq] at halong
  exact halong.symm

theorem forall₂_agrees (hd : d.Sound) (drops : Bool) (id : ScopeId) (tokens : List Word) :
    List.Forall₂ Agrees (d.scopeWalks id tokens) (d.scopeTracks drops id tokens) := by
  cases drops with
  | false => exact forall₂_scopeTracks hd simulates_agrees id tokens
  | true =>
    rw [scopeTracks_true hd, List.forall₂_map_right_iff, List.forall₂_same]
    exact fun w _ => agrees_track w

theorem flatMap_unwind_tracks (hd : d.Sound) (drops : Bool) (id : ScopeId) (input : List Word) :
    ((d.scopeTracks drops id input).filter Track.isComplete).flatMap (·.unwind input) =
      ((d.scopeWalks id input).filter Walk.isComplete).flatMap (·.unwind input) := by
  have hfinished : List.Forall₂ Agrees ((d.scopeWalks id input).filter Walk.isComplete)
      ((d.scopeTracks drops id input).filter Track.isComplete) :=
    List.rel_filter (fun w t h => by simp only [Walk.isComplete, Track.isComplete, h.rest_eq])
      (forall₂_agrees hd drops id input)
  generalize (d.scopeWalks id input).filter Walk.isComplete = walks,
    (d.scopeTracks drops id input).filter Track.isComplete = tracks at hfinished
  induction hfinished with
  | nil => rfl
  | cons h _ ih => rw [List.flatMap_cons, List.flatMap_cons, ih, h.unwind_eq]

/-- Whether or not finished positions are taken off the stacks, the suggestions are the same. -/
theorem suggestBy_eq_suggest (calls : List Call) (drops : Bool) (id : ScopeId) (tokens : List Word)
    (lookahead : Nat) :
    (ofCalls calls).suggestBy drops id tokens lookahead =
      (ofCalls calls).suggest id tokens lookahead := by
  rw [suggestBy, suggest, continuations, flatMap_unwind_tracks (sound_ofCalls calls)]

-- The first name may go on and stays where it is; behind the second nothing does.
example : [true, false].map (fun drops =>
    ((ofCalls hails).scopeTracks drops 1 [ann, lee]).map (·.nodes.length)) = [[2, 1], [2, 2]] := by
  cbv

end Dictionary
end Phrasebook
