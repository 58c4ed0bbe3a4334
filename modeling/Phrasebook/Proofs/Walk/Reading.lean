import Phrasebook.Proofs.Dictionary.Derivation
import Phrasebook.Proofs.Suggestion.Continuation

/-!
Reading words is deriving them. The two recursive functions are told once by how their walks come
about, and what is said of every walk is shown along that. A finished walk, unwound, continues the
words to a loopless expansion of items that its first position holds; a walk that stops earlier
stands at the end of a pattern that spells what it has read.
-/

namespace Phrasebook

namespace Walk

theorem top_leave (w : Walk) (place : Node) : (w.leave place).top = place := by
  simp only [leave]
  split <;> rfl

theorem isComplete_iff (w : Walk) : w.isComplete = true ↔ w.rest = [] := List.isEmpty_iff

theorem complete_of_leaf {n : Node} (h : (n.isEnd && n.isLeaf) = true) (input : List Word) :
    n.complete input = [⟨none, []⟩] := by
  cases n with
  | mk number isEnd chars words slots =>
    simp only [Node.isEnd, Node.isLeaf, Node.chars, Node.words, Node.slots, Bool.and_eq_true,
      List.isEmpty_iff] at h
    obtain ⟨rfl, ⟨rfl, rfl⟩, rfl⟩ := h
    rfl

theorem unwind_leave {place : Node} (hplace : place.Boundary) (w : Walk) (input : List Word) :
    (w.leave place).unwind input =
      (w.unwind input).flatMap fun head => (place.complete []).map head.concat := by
  simp only [leave]
  split
  · rename_i hleaf
    cases hinner : w.inner with
    | nil =>
      have hid : ∀ l : List Suggestion, l.map (⟨none, []⟩ : Suggestion).concat = l :=
        fun l => List.map_id' l
      simp only [unwind, hinner, unwindFrom, complete_of_leaf hleaf, hplace.complete_eq input, hid,
        List.flatMap_singleton]
    | cons n inner =>
      simp only [unwind, hinner, unwindFrom, complete_of_leaf hleaf, Suggestion.concat_empty,
        List.map_cons, List.map_nil, List.flatMap_singleton']
  · rfl

end Walk

namespace Dictionary

variable {d : Dictionary} {free above : List ScopeId} {n place stop root : Node} {p : Placeholder}
  {token : Word} {tokens rest ws input : List Word} {w : Walk} {items out : List Item}
  {s : Suggestion} {k : Nat}

def walksThrough (d : Dictionary) (free : List ScopeId) (p : Placeholder) (place : Node)
    (tokens : List Word) : List Walk :=
  (d.readingsThrough free p place tokens).map (·.found)

theorem walks_nil : d.walks free n [] = [⟨n, [], []⟩] := by
  rw [walks, readings]
  rfl

theorem shorter_of_mem_walks (h : w ∈ d.walks free n tokens) :
    w.rest = [] ∨ w.rest.length < tokens.length := by
  obtain ⟨r, -, rfl⟩ := List.mem_map.1 h
  exact r.shorter

def wordWalks (d : Dictionary) (n : Node) (token : Word) (rest : List Word) : List Walk :=
  (n.spell token.letters).elim [] fun stop =>
    (if stop.isEnd && !rest.isEmpty then [⟨stop, [], rest⟩] else []) ++ d.walks d.ids stop rest

def onward (d : Dictionary) (place : Node) (w : Walk) : List Walk :=
  if w.isComplete then [w.leave place]
  else if w.top.isEnd then
    (if place.isEnd then [w.leave place] else []) ++ d.walks d.ids place w.rest
  else []

theorem walks_cons (d : Dictionary) (free : List ScopeId) (n : Node) (token : Word)
    (rest : List Word) : d.walks free n (token :: rest) = d.wordWalks n token rest ++
      n.slots.flatMap fun slot => d.walksThrough free slot.1 slot.2 (token :: rest) := by
  rw [walks, readings, wordWalks, List.map_append, List.map_flatMap]
  refine congrArg (· ++ _) ?_
  cases n.spell token.letters with
  | none => rfl
  | some stop =>
    dsimp only
    rw [List.map_append, List.map_map, Option.elim_some]
    refine congrArg (· ++ _) ?_
    split <;> rfl

theorem walksThrough_eq (d : Dictionary) (free : List ScopeId) (p : Placeholder) (place : Node)
    (tokens : List Word) : d.walksThrough free p place tokens = p.contexts.flatMap fun id =>
      if id ∈ free then (d.root? id).elim [] fun root =>
        (d.walks (free.erase id) root tokens).flatMap (d.onward place)
      else [] := by
  rw [walksThrough, readingsThrough, List.map_flatMap]
  refine List.flatMap_congr fun id _ => ?_
  by_cases hid : id ∈ free
  · rw [dif_pos hid, if_pos hid]
    cases d.root? id with
    | none => rfl
    | some root =>
      dsimp only
      rw [Option.elim_some, walks, List.flatMap_map, List.map_flatMap]
      refine List.flatMap_congr fun r _ => ?_
      by_cases hrest : r.found.rest = []
      · rw [dif_pos hrest, onward, if_pos ((Walk.isComplete_iff _).2 hrest)]
        rfl
      · rw [dif_neg hrest, onward, if_neg (mt (Walk.isComplete_iff _).1 hrest)]
        split_ifs
        · rw [List.map_append, List.map_map]
          rfl
        · rw [List.map_append, List.map_map]
          rfl
        · rfl
  · rw [dif_neg hid, if_neg hid]
    rfl

theorem mem_walks_cons_iff : w ∈ d.walks free n (token :: rest) ↔
    (∃ stop, n.spell token.letters = some stop ∧
      (stop.isEnd = true ∧ rest ≠ [] ∧ w = ⟨stop, [], rest⟩ ∨ w ∈ d.walks d.ids stop rest)) ∨
    ∃ p place, (p, place) ∈ n.slots ∧ w ∈ d.walksThrough free p place (token :: rest) := by
  rw [walks_cons, List.mem_append, wordWalks]
  apply or_congr
  · cases n.spell token.letters with
    | none => simp
    | some stop =>
      simp only [Option.elim_some, List.mem_append, Option.some.injEq, exists_eq_left']
      refine or_congr_left ?_
      cases hend : stop.isEnd <;> cases rest <;> simp
  · simp

theorem mem_walksThrough_iff : w ∈ d.walksThrough free p place tokens ↔
    ∃ id ∈ p.contexts, id ∈ free ∧ ∃ root, d.root? id = some root ∧
      ∃ v ∈ d.walks (free.erase id) root tokens,
        (v.rest = [] ∨ v.top.isEnd = true ∧ place.isEnd = true) ∧ w = v.leave place ∨
        v.rest ≠ [] ∧ v.top.isEnd = true ∧ w ∈ d.walks d.ids place v.rest := by
  rw [walksThrough_eq, List.mem_flatMap]
  refine exists_congr fun id => and_congr_right fun _ => ?_
  by_cases hid : id ∈ free
  · rw [if_pos hid]
    cases d.root? id with
    | none => simp
    | some root =>
      simp only [Option.elim_some, List.mem_flatMap, hid, true_and, Option.some.injEq,
        exists_eq_left']
      refine exists_congr fun v => and_congr_right fun _ => ?_
      by_cases hv : v.rest = []
      · simp [onward, Walk.isComplete, hv]
      · have hcomplete : v.isComplete = false := by simp [Walk.isComplete, hv]
        by_cases hend : v.top.isEnd = true
        · by_cases hplace : place.isEnd = true <;> simp [onward, hcomplete, hv, hend, hplace]
        · simp [onward, hcomplete, hv, hend]
  · simp [hid]

/-- A walk from `n` that reads the words, where `above` lists the scopes around that begin with the
same word. -/
inductive Walks (d : Dictionary) : List ScopeId → Node → List Word → Walk → Prop
  | here {above : List ScopeId} {n : Node} : d.Walks above n [] ⟨n, [], []⟩
  | stop {above : List ScopeId} {n stop : Node} {token : Word} {rest : List Word}
      (spelled : n.spell token.letters = some stop) (ended : stop.isEnd = true) (more : rest ≠ []) :
      d.Walks above n (token :: rest) ⟨stop, [], rest⟩
  | word {above : List ScopeId} {n stop : Node} {token : Word} {rest : List Word} {w : Walk}
      (spelled : n.spell token.letters = some stop) (later : d.Walks [] stop rest w) :
      d.Walks above n (token :: rest) w
  | leave {above : List ScopeId} {n place root : Node} {p : Placeholder} {id : ScopeId}
      {tokens : List Word} {v : Walk} (typed : tokens ≠ []) (slot : (p, place) ∈ n.slots)
      (named : id ∈ p.contexts) (new : id ∉ above) (entered : d.root? id = some root)
      (inner : d.Walks (id :: above) root tokens v)
      (ended : v.rest = [] ∨ v.top.isEnd = true ∧ place.isEnd = true) :
      d.Walks above n tokens (v.leave place)
  | behind {above : List ScopeId} {n place root : Node} {p : Placeholder} {id : ScopeId}
      {tokens : List Word} {v w : Walk} (slot : (p, place) ∈ n.slots) (named : id ∈ p.contexts)
      (new : id ∉ above) (entered : d.root? id = some root)
      (inner : d.Walks (id :: above) root tokens v) (more : v.rest ≠ [])
      (ended : v.top.isEnd = true) (less : v.rest.length < tokens.length)
      (later : d.Walks [] place v.rest w) : d.Walks above n tokens w

mutual

theorem walks_of_mem_walks {free above : List ScopeId} {n : Node} {tokens : List Word} {w : Walk}
    (hfree : d.FreeOf free above) (h : w ∈ d.walks free n tokens) : d.Walks above n tokens w := by
  cases tokens with
  | nil =>
    rw [walks_nil, List.mem_singleton] at h
    exact h ▸ .here
  | cons token rest =>
    rcases mem_walks_cons_iff.1 h with ⟨stop, hs, ⟨hend, hrest, rfl⟩ | h⟩ | ⟨p, place, hslot, h⟩
    · exact .stop hs hend hrest
    · exact .word hs (walks_of_mem_walks (freeOf_ids d) h)
    · exact walks_of_mem_walksThrough hfree (List.cons_ne_nil token rest) hslot h
termination_by (tokens.length, free.length, 1)
decreasing_by
  · subst tokens
    exact .left _ _ (Nat.lt_succ_self _)
  · subst tokens
    exact .right _ (.right _ Nat.zero_lt_one)

theorem walks_of_mem_walksThrough {free above : List ScopeId} {n place : Node} {p : Placeholder}
    {tokens : List Word} {w : Walk} (hfree : d.FreeOf free above) (hne : tokens ≠ [])
    (hslot : (p, place) ∈ n.slots) (h : w ∈ d.walksThrough free p place tokens) :
    d.Walks above n tokens w := by
  obtain ⟨id, hid, hmem, root, hroot, v, hv, h⟩ := mem_walksThrough_iff.1 h
  have hnew := ((hfree.mem_iff id).1 hmem).2
  have hinner := walks_of_mem_walks (hfree.erase id) hv
  rcases h with ⟨hover, rfl⟩ | ⟨hrest, hend, h⟩
  · exact .leave hne hslot hid hnew hroot hinner hover
  · have hless := (shorter_of_mem_walks hv).resolve_left hrest
    exact .behind hslot hid hnew hroot hinner hrest hend hless
      (walks_of_mem_walks (freeOf_ids d) h)
termination_by (tokens.length, free.length, 0)
decreasing_by
  · exact .right _ (.left _ _ (length_erase_lt hmem))
  · exact .left _ _ hless

end

theorem mem_walks_of_walks (h : d.Walks above n tokens w) (hfree : d.FreeOf free above) :
    w ∈ d.walks free n tokens := by
  induction h generalizing free with
  | here =>
    rw [walks_nil]
    exact List.mem_singleton_self _
  | stop spelled ended more =>
    exact mem_walks_cons_iff.2 (.inl ⟨_, spelled, .inl ⟨ended, more, rfl⟩⟩)
  | word spelled _ ih => exact mem_walks_cons_iff.2 (.inl ⟨_, spelled, .inr (ih (freeOf_ids d))⟩)
  | leave typed slot named new entered _ ended ih =>
    obtain ⟨token, rest, rfl⟩ := List.exists_cons_of_ne_nil typed
    exact mem_walks_cons_iff.2 (.inr ⟨_, _, slot, mem_walksThrough_iff.2
      ⟨_, named, hfree.mem entered new, _, entered, _, ih (hfree.erase _), .inl ⟨ended, rfl⟩⟩⟩)
  | behind slot named new entered _ more ended less _ ihi ihl =>
    obtain ⟨token, rest, rfl⟩ := List.exists_cons_of_ne_nil
      (List.ne_nil_of_length_pos (Nat.zero_lt_of_lt less))
    exact mem_walks_cons_iff.2 (.inr ⟨_, _, slot, mem_walksThrough_iff.2
      ⟨_, named, hfree.mem entered new, _, entered, _, ihi (hfree.erase _),
        .inr ⟨more, ended, ihl (freeOf_ids d)⟩⟩⟩)

theorem Walks.eq_here (h : d.Walks above n [] w) : w = ⟨n, [], []⟩ := by
  cases h with
  | here => rfl
  | leave typed => exact absurd rfl typed
  | behind _ _ _ _ _ _ _ less => exact absurd less (Nat.not_lt_zero _)

theorem mem_walks_iff (hfree : d.FreeOf free above) :
    w ∈ d.walks free n tokens ↔ d.Walks above n tokens w :=
  ⟨walks_of_mem_walks hfree, fun h => mem_walks_of_walks h hfree⟩

theorem mem_scopeWalks_iff {id : ScopeId} : w ∈ d.scopeWalks id tokens ↔
    ∃ root, d.root? id = some root ∧ d.Walks [id] root tokens w := by
  rw [scopeWalks]
  cases d.root? id with
  | none => simp
  | some root => simp [mem_walks_iff ((freeOf_ids d).erase id)]

/-- What a walk from `n` that reads `tokens` says of the items that `n` holds. -/
structure Explains (d : Dictionary) (above : List ScopeId) (n : Node) (tokens : List Word)
    (w : Walk) : Prop where
  finished : w.rest = [] → ∀ input s, input.getLast? = tokens.getLast? → s ∈ w.unwind input →
    ∃ items out, n.Holds items ∧ d.ExpandsLoopless above tokens.length items out ∧
      Continues tokens out s
  stopped : w.rest ≠ [] → w.top.isEnd = true ∧ ∃ items ws, n.Holds items ∧
    d.SpellsLoopless above items ws ∧ ws ≠ [] ∧ tokens = ws ++ w.rest

namespace Explains

theorem last_word (hn : n.Sound) (hs : n.spell token.letters = some stop) :
    d.Explains above n [token] ⟨stop, [], []⟩ where
  finished := by
    intro _ input s hinput hmem
    have hstop := hn.spell hs
    obtain ⟨r, items, hheld, rfl⟩ := hstop.1.mem_complete_iff.1 hmem
    obtain ⟨w, hw, hheld⟩ := (hstop.2 r items).1 hheld
    exact ⟨_, _, hheld, .keep (.refl 0 items), .of_tail hw items hinput⟩
  stopped := fun h => absurd rfl h

theorem holds_word (hn : n.Sound) (hs : n.spell token.letters = some stop)
    (hheld : stop.Holds items) : n.Holds (.word token :: items) := by
  obtain ⟨w, hw, hheld⟩ := ((hn.spell hs).2 [] items).1 hheld
  rw [List.append_nil] at hw
  rwa [Word.letters_injective hw] at hheld

theorem word_stops (hn : n.Sound) (hs : n.spell token.letters = some stop)
    (hend : stop.isEnd = true) (hrest : rest ≠ []) :
    d.Explains above n (token :: rest) ⟨stop, [], rest⟩ where
  finished := fun h => absurd h hrest
  stopped := fun _ =>
    ⟨hend, [.word token], [token], holds_word hn hs (Node.holds_nil.2 hend), .word .nil,
      by simp, rfl⟩

theorem word_first (hn : n.Sound) (hs : n.spell token.letters = some stop) (hrest : rest ≠ [])
    (h : d.Explains [] stop rest w) : d.Explains above n (token :: rest) w where
  finished := by
    intro hw input s hinput hmem
    obtain ⟨next, rest', rfl⟩ := List.exists_cons_of_ne_nil hrest
    rw [List.getLast?_cons_cons] at hinput
    obtain ⟨items, out, hheld, hexpands, hcontinues⟩ := h.finished hw input s hinput hmem
    exact ⟨_, _, holds_word hn hs hheld, .keep hexpands, .word hcontinues⟩
  stopped := by
    intro hw
    obtain ⟨hend, items, ws, hheld, hspells, -, rfl⟩ := h.stopped hw
    exact ⟨hend, _, _, holds_word hn hs hheld, .word hspells, by simp, rfl⟩

section Place
variable {id : ScopeId} {v : Walk} (hd : d.Sound) (hn : n.Sound) (hslot : (p, place) ∈ n.slots)
  (hid : id ∈ p.contexts) (hnew : id ∉ above) (hroot : d.root? id = some root)
  (hv : d.Explains (id :: above) root tokens v)
include hd hn hslot hid hnew hroot hv

theorem leave_finished (hne : tokens ≠ []) (hrest : v.rest = []) :
    d.Explains above n tokens (v.leave place) where
  finished := by
    intro _ input s hinput hmem
    obtain ⟨hplace, hbehind⟩ := hn.slot hslot
    rw [Walk.unwind_leave hplace] at hmem
    obtain ⟨head, hhead, hmem⟩ := List.mem_flatMap.1 hmem
    obtain ⟨tail, htail, rfl⟩ := List.mem_map.1 hmem
    obtain ⟨items, hheld, rfl⟩ := hplace.mem_complete_iff.1 htail
    obtain ⟨body, mid, hbody, hexpands, hcontinues⟩ := hv.finished hrest input head hinput hhead
    have hcovered : tokens.length - mid.length = 0 := by
      have hle := hcontinues.length_le
      omega
    refine ⟨.slot p :: items, mid ++ items, (hbehind items).1 hheld, ?_, ?_⟩
    · refine .fill (List.length_pos_of_ne_nil hne) hid hnew
        ((stores_iff hd).2 ⟨root, hroot, hbody⟩) hexpands ?_
      rw [hcovered]
      exact .refl 0 items
    · rw [Suggestion.concat_items]
      exact hcontinues.append hne items
  stopped := by
    intro h
    rw [Walk.rest_leave] at h
    exact absurd hrest h

theorem leave_stopped (hrest : v.rest ≠ []) (hplace : place.isEnd = true) :
    d.Explains above n tokens (v.leave place) where
  finished := by
    intro h
    rw [Walk.rest_leave] at h
    exact absurd h hrest
  stopped := by
    intro _
    obtain ⟨-, body, ws, hbody, hspells, hws, htokens⟩ := hv.stopped hrest
    rw [Walk.top_leave, Walk.rest_leave]
    refine ⟨hplace, [.slot p], ws ++ [], ((hn.slot hslot).2 []).1 (Node.holds_nil.2 hplace), ?_,
      by simpa using hws, by rw [List.append_nil, htokens]⟩
    exact .fill hid hnew ((stores_iff hd).2 ⟨root, hroot, hbody⟩) hspells .nil

theorem behind (hrest : v.rest ≠ []) (hw : d.Explains [] place v.rest w) :
    d.Explains above n tokens w := by
  obtain ⟨-, body, ws, hbody, hspells, hws, htokens⟩ := hv.stopped hrest
  have hstores := (stores_iff hd).2 ⟨root, hroot, hbody⟩
  have hbehind := (hn.slot hslot).2
  refine ⟨?_, ?_⟩
  · intro hfinished input s hinput hmem
    rw [htokens, List.getLast?_append_of_ne_nil _ hrest] at hinput
    obtain ⟨items, out, hheld, hexpands, hcontinues⟩ := hw.finished hfinished input s hinput hmem
    have hlength : tokens.length = ws.length + v.rest.length := by rw [htokens, List.length_append]
    have hpos := List.length_pos_of_ne_nil hws
    refine ⟨.slot p :: items, ws.map .word ++ out, (hbehind items).1 hheld, ?_, ?_⟩
    · refine .fill (by omega) hid hnew hstores (hspells.expands hd (by omega)) ?_
      rwa [List.length_map, hlength, Nat.add_sub_cancel_left]
    · rw [htokens]
      exact hcontinues.words_append hrest ws
  · intro hstopped
    obtain ⟨hend, items, us, hheld, hinner, -, hus⟩ := hw.stopped hstopped
    refine ⟨hend, .slot p :: items, ws ++ us, (hbehind items).1 hheld, ?_, by simp [hws], ?_⟩
    · refine .fill hid hnew hstores hspells ?_
      rwa [if_neg hws]
    · rw [htokens, hus, List.append_assoc]

end Place
end Explains

theorem Walks.explains (hd : d.Sound) (h : d.Walks above n tokens w) (hn : n.Sound)
    (hne : tokens ≠ []) : d.Explains above n tokens w := by
  induction h with
  | here => exact absurd rfl hne
  | stop spelled ended more => exact .word_stops hn spelled ended more
  | @word above n stop token rest w spelled later ih =>
    by_cases hrest : rest = []
    · subst hrest
      rw [later.eq_here]
      exact .last_word hn spelled
    · exact .word_first hn spelled hrest (ih (hn.spell spelled).1 hrest)
  | @leave above n place root p id tokens v typed slot named new entered _ ended ih =>
    have hinner := ih (hd.tree entered).boundary.sound hne
    by_cases hrest : v.rest = []
    · exact .leave_finished hd hn slot named new entered hinner hne hrest
    · exact .leave_stopped hd hn slot named new entered hinner hrest (ended.resolve_left hrest).2
  | behind slot named new entered _ more _ _ _ ihi ihl =>
    exact .behind hd hn slot named new entered (ihi (hd.tree entered).boundary.sound hne) more
      (ihl (hn.slot slot).1.sound more)

end Dictionary
end Phrasebook
