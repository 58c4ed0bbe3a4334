import Phrasebook.Proofs.Dictionary.Growth
import Phrasebook.Proofs.Sequencing
import Phrasebook.Proofs.Trie.Shape
import Phrasebook.Proofs.Walk.Reading

/-!
Dictionaries that differ in their numbers only. If the scopes of one dictionary are those of another
under other numbers, with trees of the same shape, then both read an input in the same ways, one after
the other, and give the same suggestions in the same order, up to the numbers in their open places.
-/

namespace Phrasebook

variable {ρ : ScopeId → ScopeId}

namespace Node.Mirrors
variable {n n' : Node}

theorem isEnd_eq (h : n.Mirrors ρ n') : n'.isEnd = n.isEnd := by
  rw [← isEnd_shape (ρ := id), h, isEnd_shape]

theorem isLeaf_eq (h : n.Mirrors ρ n') : n'.isLeaf = n.isLeaf := by
  rw [← isLeaf_shape (ρ := id), h, isLeaf_shape]

theorem paths_eq (h : n.Mirrors ρ n') : n'.paths = n.paths.map (List.map (Label.renumber ρ)) := by
  have hpaths := paths_shape (n := n') (ρ := id)
  rw [Label.renumber_id, List.map_id_fun, List.map_id] at hpaths
  rw [← hpaths, h, paths_shape]

theorem tails_eq (h : n.Mirrors ρ n') : n'.tails = n.tails.map (Tail.renumber ρ) := by
  rw [Node.tails_eq, Node.tails_eq, h.paths_eq, List.map_map, List.map_map]
  refine List.map_congr_left fun q _ => ?_
  exact Tail.along_renumber q

theorem complete_eq (h : n.Mirrors ρ n') (input : List Word) :
    n'.complete input = (n.complete input).map (Suggestion.renumber ρ) := by
  rw [complete, complete, h.tails_eq, List.map_map, List.map_map]
  refine List.map_congr_left fun t _ => ?_
  exact Tail.suggestion_renumber input t

theorem slots (h : n.Mirrors ρ n') : List.Forall₂
    (fun s s' => s'.1 = s.1.renumber ρ ∧ s.2.Mirrors ρ s'.2) n.slots n'.slots := by
  have hslots := congrArg Node.slots h
  rw [slots_shape, slots_shape, Slots.image, Slots.image, ← List.forall₂_eq_eq_eq,
    List.forall₂_map_left_iff, List.forall₂_map_right_iff] at hslots
  refine hslots.flip.imp fun s s' heq => ?_
  obtain ⟨hp, hm⟩ := Prod.mk.inj heq
  exact ⟨by rw [← hp, Placeholder.renumber_id], hm⟩

theorem spell (h : n.Mirrors ρ n') (s : List Char) :
    Option.Rel (Node.Mirrors ρ) (n.spell s) (n'.spell s) := by
  have hspell := spell_shape (n := n') (ρ := id) s
  rw [h, spell_shape] at hspell
  cases hs : n.spell s with
  | none =>
    rw [hs] at hspell
    rw [Option.map_eq_none_iff.1 hspell.symm]
    exact .none
  | some m =>
    rw [hs] at hspell
    obtain ⟨m', hm', heq⟩ := Option.map_eq_some_iff.1 hspell.symm
    rw [hm']
    exact .some heq

end Node.Mirrors

namespace Walk

structure Mirrors (ρ : ScopeId → ScopeId) (w w' : Walk) : Prop where
  top : w.top.Mirrors ρ w'.top
  inner : List.Forall₂ (Node.Mirrors ρ) w.inner w'.inner
  rest : w'.rest = w.rest

namespace Mirrors
variable {w w' : Walk}

theorem isComplete_eq (h : w.Mirrors ρ w') : w'.isComplete = w.isComplete := by
  rw [isComplete, isComplete, h.rest]

theorem leave {place place' : Node} (h : w.Mirrors ρ w') (hplace : place.Mirrors ρ place') :
    (w.leave place).Mirrors ρ (w'.leave place') := by
  rw [Walk.leave, Walk.leave, h.top.isEnd_eq, h.top.isLeaf_eq]
  split
  · exact ⟨hplace, h.inner, h.rest⟩
  · exact ⟨hplace, .cons h.top h.inner, h.rest⟩

theorem length_stack (h : w.Mirrors ρ w') : w'.stack.length = w.stack.length := by
  simp [stack, h.inner.length_eq]

theorem unwind_eq (h : w.Mirrors ρ w') (input : List Word) :
    w'.unwind input = (w.unwind input).map (Suggestion.renumber ρ) := by
  obtain ⟨top, inner, rest⟩ := w
  obtain ⟨top', inner', rest'⟩ := w'
  obtain ⟨htop, hinner, -⟩ := h
  simp only [unwind] at htop hinner ⊢
  induction hinner generalizing top top' with
  | nil => exact htop.complete_eq input
  | cons hn _ ih =>
    rw [unwindFrom, unwindFrom, ih _ _ hn, htop.complete_eq [], List.flatMap_map, List.map_flatMap]
    refine List.flatMap_congr fun head _ => ?_
    rw [List.map_map, List.map_map]
    refine List.map_congr_left fun tail _ => ?_
    exact Suggestion.concat_renumber head tail

end Mirrors
end Walk

namespace Dictionary

variable {d d' : Dictionary}

/-- The second dictionary has the scopes of the first under other numbers. -/
structure Mirrors (ρ : ScopeId → ScopeId) (d d' : Dictionary) : Prop where
  injective : Function.Injective ρ
  roots : ∀ id, Option.Rel (Node.Mirrors ρ) (d.root? id) (d'.root? (ρ id))

structure FreeAlike (ρ : ScopeId → ScopeId) (free free' : List ScopeId) : Prop where
  nodup : free.Nodup
  nodup' : free'.Nodup
  mem_iff : ∀ id, ρ id ∈ free' ↔ id ∈ free

theorem mem_ids_iff {id : ScopeId} : id ∈ d.ids ↔ (d.root? id).isSome := by
  simp [ids, root?]

theorem FreeAlike.erase {free free' : List ScopeId} (h : FreeAlike ρ free free')
    (hρ : Function.Injective ρ) (id : ScopeId) :
    FreeAlike ρ (free.erase id) (free'.erase (ρ id)) where
  nodup := h.nodup.erase id
  nodup' := h.nodup'.erase (ρ id)
  mem_iff := by
    intro i
    rw [h.nodup.mem_erase_iff, h.nodup'.mem_erase_iff, h.mem_iff, hρ.ne_iff]

namespace Mirrors

theorem ids (h : d.Mirrors ρ d') : FreeAlike ρ d.ids d'.ids where
  nodup := List.nodup_range
  nodup' := List.nodup_range
  mem_iff := by
    intro id
    rw [mem_ids_iff, mem_ids_iff]
    have hroots := h.roots id
    generalize d.root? id = r, d'.root? (ρ id) = r' at hroots
    cases hroots <;> simp

mutual

theorem walks (h : d.Mirrors ρ d') {free free' : List ScopeId} (hfree : FreeAlike ρ free free')
    {n n' : Node} (hn : n.Mirrors ρ n') (tokens : List Word) :
    List.Forall₂ (Walk.Mirrors ρ) (d.walks free n tokens) (d'.walks free' n' tokens) := by
  cases tokens with
  | nil =>
    rw [walks_nil, walks_nil]
    exact .cons ⟨hn, .nil, rfl⟩ .nil
  | cons token rest =>
    rw [walks_cons, walks_cons, wordWalks, wordWalks]
    refine List.rel_append ?_ ?_
    · have hspell := hn.spell token.letters
      generalize n.spell token.letters = r, n'.spell token.letters = r' at hspell
      cases hspell with
      | none => exact .nil
      | @some stop stop' hstop =>
        refine List.rel_append ?_ (h.walks h.ids hstop rest)
        rw [hstop.isEnd_eq]
        split
        · exact .cons ⟨hstop, .nil, rfl⟩ .nil
        · exact .nil
    · refine List.rel_flatMap hn.slots ?_
      intro s s' hs
      dsimp only
      rw [hs.1]
      exact h.walksThrough hfree s.1 hs.2 (token :: rest)
termination_by (tokens.length, free.length, 1)

theorem walksThrough (h : d.Mirrors ρ d') {free free' : List ScopeId}
    (hfree : FreeAlike ρ free free') (p : Placeholder) {place place' : Node}
    (hplace : place.Mirrors ρ place') (tokens : List Word) :
    List.Forall₂ (Walk.Mirrors ρ) (d.walksThrough free p place tokens)
      (d'.walksThrough free' (p.renumber ρ) place' tokens) := by
  rw [walksThrough_eq, walksThrough_eq, Placeholder.renumber, List.flatMap_map]
  refine forall₂_flatMap fun id _ => ?_
  by_cases hid : id ∈ free
  · rw [if_pos hid, if_pos ((hfree.mem_iff id).2 hid)]
    have hroots := h.roots id
    generalize d.root? id = r, d'.root? (ρ id) = r' at hroots
    cases hroots with
    | none => exact .nil
    | @some root root' hroot =>
      have hinner := h.walks (hfree.erase h.injective id) hroot tokens
      refine List.rel_flatMap
        ((List.forall₂_and_left _ _).2 ⟨fun w hw => shorter_of_mem_walks hw, hinner⟩) ?_
      intro w w' hw
      obtain ⟨hshorter, hw⟩ := hw
      -- Mirrored walks meet the same conditions, so both sides branch alike.
      rw [onward, onward, hw.isComplete_eq, hw.top.isEnd_eq, hw.rest, hplace.isEnd_eq]
      by_cases hcomplete : w.isComplete = true
      · rw [if_pos hcomplete, if_pos hcomplete]
        exact .cons (hw.leave hplace) .nil
      · rw [if_neg hcomplete, if_neg hcomplete]
        have hless := hshorter.resolve_left (mt (Walk.isComplete_iff w).2 hcomplete)
        split
        · refine List.rel_append ?_ (h.walks h.ids hplace w.rest)
          split
          · exact .cons (hw.leave hplace) .nil
          · exact .nil
        · exact .nil
  · rw [if_neg hid, if_neg (mt (hfree.mem_iff id).1 hid)]
    exact .nil
termination_by (tokens.length, free.length, 0)
decreasing_by
  · exact .right _ (.left _ _ (length_erase_lt hid))
  · exact .left _ _ hless

end

theorem scopeWalks (h : d.Mirrors ρ d') (id : ScopeId) (tokens : List Word) :
    List.Forall₂ (Walk.Mirrors ρ) (d.scopeWalks id tokens) (d'.scopeWalks (ρ id) tokens) := by
  rw [Dictionary.scopeWalks, Dictionary.scopeWalks]
  have hroots := h.roots id
  generalize d.root? id = r, d'.root? (ρ id) = r' at hroots
  cases hroots with
  | none => exact .nil
  | some hroot => exact h.walks (h.ids.erase h.injective id) hroot tokens

theorem flatMap_unwind_eq {l l' : List Walk} (h : List.Forall₂ (Walk.Mirrors ρ) l l')
    (input : List Word) : l'.flatMap (·.unwind input) =
      (l.flatMap (·.unwind input)).map (Suggestion.renumber ρ) := by
  induction h with
  | nil => rfl
  | cons hw _ ih => rw [List.flatMap_cons, List.flatMap_cons, List.map_append, ih, hw.unwind_eq]

theorem continuations_eq (h : d.Mirrors ρ d') (id : ScopeId) (input : List Word) :
    d'.continuations (ρ id) input = (d.continuations id input).map (Suggestion.renumber ρ) := by
  have hfinished : List.Forall₂ (Walk.Mirrors ρ) ((d.scopeWalks id input).filter Walk.isComplete)
      ((d'.scopeWalks (ρ id) input).filter Walk.isComplete) :=
    List.rel_filter (fun w w' hw => by simp only [hw.isComplete_eq]) (h.scopeWalks id input)
  rw [continuations, continuations, flatMap_unwind_eq hfinished input, ← distinct_renumber h.injective]
  rfl

end Mirrors
end Dictionary

namespace Fillings

def renumber (ρ : ScopeId → ScopeId) (f : Fillings) : Fillings :=
  { f with ways := f.ways.map fun w => (w.1.map (Segment.renumber ρ), w.2) }

theorem cut_renumber (f : Fillings) : (f.renumber ρ).cut = f.cut := rfl

theorem join_renumber (l : List Fillings) : (join (l.map (renumber ρ))) = (join l).renumber ρ := by
  simp only [join, renumber, List.flatMap_map, List.map_flatMap, List.any_map]
  rfl

theorem after_renumber (head : List Segment) (cost : Nat) (f : Fillings) :
    (f.renumber ρ).after (head.map (Segment.renumber ρ)) cost = (f.after head cost).renumber ρ := by
  simp [after, renumber]

end Fillings

namespace Dictionary
namespace Mirrors

variable {d d' : Dictionary}

mutual

theorem fill_eq (h : d.Mirrors ρ d') {free free' : List ScopeId} (hfree : FreeAlike ρ free free')
    (p : Placeholder) (budget : Nat) :
    d'.fill free' (p.renumber ρ) budget = (d.fill free p budget).renumber ρ := by
  rw [fill, fill, ← Fillings.join_renumber, Placeholder.renumber, List.map_map, List.map_map]
  refine congrArg Fillings.join (List.map_congr_left fun id _ => ?_)
  simp only [Function.comp_apply]
  have hroots := h.roots id
  generalize d.root? id = r, d'.root? (ρ id) = r' at hroots
  cases hroots with
  | none => rfl
  | @some root root' hroot =>
    dsimp only
    by_cases hid : id ∈ free
    · rw [dif_pos hid, dif_pos ((hfree.mem_iff id).2 hid), ← Fillings.join_renumber, hroot.tails_eq,
        List.map_map, List.map_map]
      refine congrArg Fillings.join (List.map_congr_left fun t _ => ?_)
      simp only [Function.comp_apply, Tail.close_renumber]
      exact h.fillAll_eq (hfree.erase h.injective id) t.close budget
    · rw [dif_neg hid, dif_neg (mt (hfree.mem_iff id).1 hid)]
      rfl
termination_by (budget, free.length, 0)
decreasing_by exact .right _ (.left _ _ (length_erase_lt hid))

theorem fillAll_eq (h : d.Mirrors ρ d') {free free' : List ScopeId} (hfree : FreeAlike ρ free free')
    (segments : List Segment) (budget : Nat) :
    d'.fillAll free' (segments.map (Segment.renumber ρ)) budget =
      (d.fillAll free segments budget).renumber ρ := by
  rw [fillAll.eq_def, fillAll.eq_def]
  cases segments with
  | nil => rfl
  | cons x rest =>
    cases x with
    | slot p =>
      have hfilled := h.fill_eq hfree p budget
      -- A way that cost something frees all scopes for what follows it, one that did not keeps them.
      have hrest : ∀ w ∈ (d.fill free p budget).ways,
          (if budget - w.2 < budget then
            (d'.fillAll d'.ids (rest.map (Segment.renumber ρ)) (budget - w.2)).after
              (w.1.map (Segment.renumber ρ)) w.2
          else (d'.fillAll free' (rest.map (Segment.renumber ρ)) budget).after
            (w.1.map (Segment.renumber ρ)) w.2) =
          Fillings.renumber ρ (if budget - w.2 < budget then
            (d.fillAll d.ids rest (budget - w.2)).after w.1 w.2
          else (d.fillAll free rest budget).after w.1 w.2) := by
        intro w _
        split
        · rw [h.fillAll_eq h.ids rest, Fillings.after_renumber]
        · rw [h.fillAll_eq hfree rest, Fillings.after_renumber]
      simp only [List.map_cons, Segment.renumber, hfilled]
      simp only [Fillings.renumber, List.map_map, Function.comp_def]
      rw [List.map_congr_left hrest]
      have hjoin := Fillings.join_renumber (ρ := ρ) ((d.fill free p budget).ways.map fun w =>
        if budget - w.2 < budget then (d.fillAll d.ids rest (budget - w.2)).after w.1 w.2
        else (d.fillAll free rest budget).after w.1 w.2)
      rw [List.map_map] at hjoin
      exact congrArg (fun f : Fillings => { f with cut := (d.fill free p budget).cut || f.cut }) hjoin
    | text t =>
      cases budget with
      | zero => rfl
      | succ left =>
        simp only [List.map_cons, Segment.renumber, h.fillAll_eq h.ids rest left]
        exact Fillings.after_renumber [.text t] 1 _
    | word t =>
      cases budget with
      | zero => rfl
      | succ left =>
        simp only [List.map_cons, Segment.renumber, h.fillAll_eq h.ids rest left]
        exact Fillings.after_renumber [.word t] 1 _
termination_by (budget, free.length, segments.length)

end

theorem resolveSegments_eq (h : d.Mirrors ρ d') (segments : List Segment) (budget : Nat) :
    d'.resolveSegments (segments.map (Segment.renumber ρ)) budget =
      (d.resolveSegments segments budget).map (List.map (Segment.renumber ρ)) := by
  induction segments generalizing budget with
  | nil => rfl
  | cons x rest ih =>
    cases x with
    | text t =>
      simp only [List.map_cons, Segment.renumber, resolveSegments, ih, List.map_map]
      rfl
    | word t =>
      simp only [List.map_cons, Segment.renumber, resolveSegments, ih, List.map_map]
      rfl
    | slot p =>
      simp only [List.map_cons, Segment.renumber, resolveSegments, h.fill_eq h.ids p budget,
        List.map_append]
      congr 1
      · simp only [Fillings.renumber, List.flatMap_map, List.map_flatMap, ih, List.map_map]
        refine List.flatMap_congr fun w _ => List.map_congr_left fun tail _ => ?_
        exact List.map_append.symm
      · rw [Fillings.cut_renumber]
        split <;> rfl

theorem resolve_eq (h : d.Mirrors ρ d') (s : Suggestion) (lookahead : Nat) :
    d'.resolve (s.renumber ρ) lookahead = (d.resolve s lookahead).map (Suggestion.renumber ρ) := by
  simp only [resolve, Suggestion.renumber, h.resolveSegments_eq, List.map_map, Function.comp_def]

theorem suggest_eq (h : d.Mirrors ρ d') (id : ScopeId) (input : List Word) (lookahead : Nat) :
    d'.suggest (ρ id) input lookahead =
      (d.suggest id input lookahead).map (Suggestion.renumber ρ) := by
  rw [suggest, suggest, h.continuations_eq]
  split
  · rfl
  · rw [List.flatMap_map, ← List.map_nil, ← distinct_renumber h.injective, List.map_flatMap]
    simp only [h.resolve_eq]
    rfl

end Mirrors
end Dictionary
end Phrasebook
