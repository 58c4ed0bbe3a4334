import Mathlib.Data.List.Permutation
import Phrasebook.Proofs.Lookahead.Resolution
import Phrasebook.Proofs.Walk.Finding

/-!
When more lookahead changes nothing. A search reports a cut whenever the budget or a scope that may
not be entered kept something back, anywhere inside. So a search without a cut finds the same, in the
same order, within every larger budget; and where no place stays open, no search was cut.
-/

namespace Phrasebook

theorem Suggestion.isResolved_iff {s : Suggestion} :
    s.isResolved = true ↔ ∀ x ∈ s.segments, x.isSlot = false := by
  simp [isResolved]

theorem distinct_distinct (seen l : List Suggestion) :
    distinct seen (distinct seen l) = distinct seen l := by
  induction l generalizing seen with
  | nil => rfl
  | cons s l ih =>
    rw [distinct]
    split_ifs with hs
    · exact ih seen
    · rw [distinct, if_neg hs, ih]

namespace Dictionary

variable {d : Dictionary} {id : ScopeId} {tokens : List Word} {s : Suggestion}
  {segments : List Segment} {budget budget' lookahead lookahead' : Nat}

mutual

theorem fill_of_uncut (hd : d.Sound) {free : List ScopeId} {p : Placeholder} {budget budget' : Nat}
    (hle : budget ≤ budget') (hcut : (d.fill free p budget).cut = false) :
    d.fill free p budget' = d.fill free p budget := by
  have hcuts := (cut_fill_eq_false_iff hd).1 hcut
  rw [fill, fill]
  refine congrArg Fillings.join (List.map_congr_left fun id named => ?_)
  cases hroot : d.root? id with
  | none => rfl
  | some root =>
    -- Without a cut the scope could be entered; whether it can does not depend on the budget.
    obtain ⟨hid, hbodies⟩ := hcuts id named root hroot
    dsimp only
    rw [dif_pos hid, dif_pos hid]
    refine congrArg Fillings.join (List.map_congr_left fun t ht => ?_)
    obtain ⟨items, hheld, hclose⟩ :=
      (hd.tree hroot).boundary.mem_map_close_iff.1 (List.mem_map_of_mem ht)
    rw [hclose]
    exact fillAll_of_uncut hd hle (hbodies items ((stores_iff hd).2 ⟨root, hroot, hheld⟩))
termination_by (budget, free.length, 0)
decreasing_by exact .right _ (.left _ _ (length_erase_lt hid))

theorem fillAll_of_uncut (hd : d.Sound) {free : List ScopeId} {segments : List Segment}
    {budget budget' : Nat} (hle : budget ≤ budget')
    (hcut : (d.fillAll free segments budget).cut = false) :
    d.fillAll free segments budget' = d.fillAll free segments budget := by
  match segments with
  | [] => rw [fillAll_nil, fillAll_nil]
  | .slot p :: rest =>
    obtain ⟨hfilled, hrests⟩ := (cut_fillAll_slot_eq_false_iff hd).1 hcut
    rw [fillAll_slot_eq (cost_of_mem_fill hd), fillAll_slot_eq (cost_of_mem_fill hd),
      fill_of_uncut hd hle hfilled]
    refine Fillings.bind_congr fun u hu => ?_
    -- No filling is free, so what follows it is searched with less.
    obtain ⟨hpos, hspent⟩ := cost_of_mem_fill hd u hu
    have hless : budget - u.2 < budget := Nat.sub_lt (hpos.trans_le hspent) hpos
    rw [fillAll_of_uncut hd (Nat.sub_le_sub_right hle u.2) (hrests u hu)]
  | .text x :: rest | .word x :: rest =>
    cases budget with
    | zero =>
      rw [fillAll_plain_zero _ _ rfl] at hcut
      cases hcut
    | succ left =>
      obtain ⟨left', rfl⟩ := Nat.exists_eq_succ_of_ne_zero (Nat.ne_zero_of_lt hle)
      rw [fillAll_plain_succ _ _ rfl] at hcut
      rw [Nat.succ_eq_add_one, fillAll_plain_succ _ _ rfl, fillAll_plain_succ _ _ rfl,
        fillAll_of_uncut hd (Nat.le_of_succ_le_succ hle) hcut]
termination_by (budget, free.length, segments.length)

end

theorem resolveSegments_of_plain (h : ∀ x ∈ segments, x.isSlot = false) (budget : Nat) :
    d.resolveSegments segments budget = [segments] := by
  induction segments with
  | nil => rw [resolveSegments]
  | cons x segments ih =>
    obtain ⟨hx, hrest⟩ := List.forall_mem_cons.1 h
    rw [resolveSegments_plain hx, ih hrest, List.map_singleton]

theorem resolveSegments_of_resolved (hd : d.Sound) (hle : budget ≤ budget')
    (h : ∀ r ∈ d.resolveSegments segments budget, ∀ x ∈ r, x.isSlot = false) :
    d.resolveSegments segments budget' = d.resolveSegments segments budget := by
  induction segments generalizing budget budget' with
  | nil => rw [resolveSegments, resolveSegments]
  | cons x segments ih =>
    cases x with
    | slot p =>
      rw [resolveSegments, List.forall_mem_append] at h
      obtain ⟨hways, hopen⟩ := h
      have hcut : (d.fill d.ids p budget).cut = false := by
        by_contra hcut
        rw [Bool.not_eq_false] at hcut
        rw [if_pos hcut] at hopen
        cases hopen _ List.mem_cons_self _ List.mem_cons_self
      rw [resolveSegments, resolveSegments, fill_of_uncut hd hle hcut]
      refine congrArg (· ++ _) (List.flatMap_congr fun w hw => congrArg (List.map _) ?_)
      refine ih (Nat.sub_le_sub_right hle w.2) fun r hr x hx => ?_
      exact hways _ (List.mem_flatMap.2 ⟨w, hw, List.mem_map_of_mem hr⟩) x
        (List.mem_append_right _ hx)
    | _ =>
      rw [resolveSegments_plain rfl] at h
      rw [resolveSegments_plain rfl, resolveSegments_plain rfl]
      refine congrArg (List.map _) (ih hle fun r hr x hx => ?_)
      exact h _ (List.mem_map_of_mem hr) x (List.mem_cons_of_mem _ hx)

theorem resolve_of_resolved (hd : d.Sound) (hle : lookahead ≤ lookahead')
    (h : ∀ r ∈ d.resolve s lookahead, r.isResolved = true) :
    d.resolve s lookahead' = d.resolve s lookahead := by
  refine congrArg (List.map _) (resolveSegments_of_resolved hd hle fun r hr => ?_)
  exact Suggestion.isResolved_iff.1 (h ⟨s.stem, r⟩ (mem_resolve_iff.2 ⟨rfl, hr⟩))

theorem resolve_of_isResolved (h : s.isResolved = true) (lookahead : Nat) :
    d.resolve s lookahead = [s] := by
  rw [resolve, resolveSegments_of_plain (Suggestion.isResolved_iff.1 h), List.map_singleton]

/-- Once no place is left open, a larger lookahead changes nothing. -/
theorem suggest_settled (calls : List Call) (hle : lookahead ≤ lookahead')
    (h : ∀ s ∈ (ofCalls calls).suggest id tokens lookahead, s.isResolved = true) :
    (ofCalls calls).suggest id tokens lookahead' = (ofCalls calls).suggest id tokens lookahead := by
  have hd := sound_ofCalls calls
  rcases Nat.eq_zero_or_pos lookahead' with rfl | hpos'
  · rw [Nat.le_zero.1 hle]
  · rcases Nat.eq_zero_or_pos lookahead with rfl | hpos
    · -- Nothing was filled yet, and there is nothing to fill.
      have hopen : ∀ s ∈ (ofCalls calls).continuations id tokens, s.isResolved = true := h
      have hkept : ((ofCalls calls).continuations id tokens).flatMap
          (fun s => (ofCalls calls).resolve s lookahead') = (ofCalls calls).continuations id tokens :=
        (List.flatMap_congr fun s hs => resolve_of_isResolved (hopen s hs) lookahead').trans
          (List.flatMap_singleton' _)
      rw [suggest, suggest, if_neg hpos'.ne', if_pos rfl, hkept]
      exact distinct_distinct [] _
    · rw [suggest, suggest, if_neg hpos'.ne', if_neg hpos.ne']
      refine congrArg (distinct []) (List.flatMap_congr fun s hs => ?_)
      refine resolve_of_resolved hd hle fun r hr => h r ?_
      exact mem_suggest_iff.2 ⟨s, hs, by rwa [if_neg hpos.ne']⟩

def cook : Word := ⟨"cook", by decide, Word.any_isBlank_eq_false.1 (by decide)⟩

def menu : List Call :=
  [.define "meat" [.written "lamb"], .declare "cheese",
    .define "dish" [.written "fish", .written "old <of:cheese>", .written "roast <of:meat>"],
    .define "meal" [.written "cook <what:dish> today"]]

theorem suggest_settled_menu : 2 ≤ 7 ∧
    (∀ s ∈ (ofCalls menu).suggest 3 [cook] 2, s.isResolved = true) ∧
    (ofCalls menu).suggest 3 [cook] 7 = [⟨none, [.word "fish", .word "today"]⟩,
      ⟨none, [.word "roast", .word "lamb", .word "today"]⟩] := by
  have hanswer : (ofCalls menu).suggest 3 [cook] 2 = [⟨none, [.word "fish", .word "today"]⟩,
      ⟨none, [.word "roast", .word "lamb", .word "today"]⟩] := by cbv
  have hresolved : ∀ s ∈ (ofCalls menu).suggest 3 [cook] 2, s.isResolved = true := by
    rw [hanswer]
    decide
  exact ⟨by decide, hresolved, (suggest_settled menu (by decide) hresolved).trans hanswer⟩

end Dictionary
end Phrasebook
