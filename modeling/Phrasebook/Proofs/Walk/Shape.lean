import Phrasebook.Proofs.Walk.Guard
import Phrasebook.Proofs.Walk.Stacks

/-!
What every stack looks like that a scope leaves behind. Below the positions of the places it went
through lies the one it stopped at, it has read some of the words from the front, and where it has not
read all of them a pattern is over.
-/

namespace Phrasebook

theorem Walk.mem_dropLast_leave {w : Walk} {place m : Node}
    (h : m ∈ ((w.leave place).top :: (w.leave place).inner).dropLast) :
    m = place ∨ m ∈ (w.top :: w.inner).dropLast := by
  rw [leave] at h
  split_ifs at h
  · cases hinner : w.inner with
    | nil => simp [hinner] at h
    | cons n inner =>
      rw [hinner, List.dropLast_cons_cons, List.mem_cons] at h
      rw [List.dropLast_cons_cons]
      exact h.imp_right (List.mem_cons_of_mem _)
  · rwa [List.dropLast_cons_cons, List.mem_cons] at h

namespace Dictionary

variable {d : Dictionary} {above : List ScopeId} {n m : Node} {e e' : Entry} {id : ScopeId}
  {tokens : List Word} {w : Walk}

structure Shaped (d : Dictionary) (tokens : List Word) (t : Track) : Prop where
  nodes_ne_nil : t.nodes ≠ []
  /-- Each is the position behind an open place and is entered in no other way. -/
  outer : ∀ m ∈ t.nodes.tail, ∃ p, ∀ e, (e, m) ∈ d.positions ↔ e = .slot p
  suffix : t.rest <:+ tokens
  shorter : tokens ≠ [] → t.rest.length < tokens.length
  ended : t.rest ≠ [] → ∃ top, t.nodes.getLast? = some top ∧ top.isEnd = true

theorem Arranged.entry_unique (h : d.Arranged) (hm : (e, m) ∈ d.positions)
    (hm' : (e', m) ∈ d.positions) : e = e' := by
  have hnodup : (d.positions.map fun x => x.2.number).Nodup :=
    h.numbers.nodup_iff.2 List.nodup_range
  have heq := List.inj_on_of_nodup_map hnodup hm hm' rfl
  exact congrArg Prod.fst heq

namespace Walks

theorem outer (h : d.Arranged) (hw : d.Walks above n tokens w) (hn : (e, n) ∈ d.positions) :
    ∀ m ∈ (w.top :: w.inner).dropLast, ∃ p, (.slot p, m) ∈ d.positions := by
  induction hw generalizing e with
  | here => simp
  | stop => simp
  | word spelled _ ih =>
    obtain ⟨e, hstop⟩ := h.spell hn spelled
    exact ih hstop
  | leave _ slot _ _ entered _ _ ih =>
    intro m hm
    rcases Walk.mem_dropLast_leave hm with rfl | hm
    · exact ⟨_, h.slot hn slot⟩
    · exact ih (root?_iff_mem_positions.1 entered) m hm
  | behind slot _ _ _ _ _ _ _ _ _ ih => exact ih (h.slot hn slot)

theorem typed (hw : d.Walks above n tokens w) (hrest : w.rest ≠ []) : tokens ≠ [] := by
  rintro rfl
  exact hrest (by rw [hw.eq_here])

theorem exists_read (hd : d.Sound) (hw : d.Walks above n tokens w) (hn : n.Sound) :
    ∃ ws, tokens = ws ++ w.rest ∧ (tokens ≠ [] → ws ≠ []) := by
  by_cases hrest : w.rest = []
  · exact ⟨tokens, by rw [hrest, List.append_nil], id⟩
  · obtain ⟨-, -, ws, -, -, hws, htokens⟩ :=
      (hw.explains hd hn (hw.typed hrest)).stopped hrest
    exact ⟨ws, htokens, fun _ => hws⟩

theorem top_isEnd (hd : d.Sound) (hw : d.Walks above n tokens w) (hn : n.Sound)
    (hrest : w.rest ≠ []) : w.top.isEnd = true :=
  ((hw.explains hd hn (hw.typed hrest)).stopped hrest).1

theorem shaped (hd : d.Sound) (h : d.Arranged) {root : Node} (hroot : d.root? id = some root)
    (hw : d.Walks above root tokens w) : d.Shaped tokens w.track := by
  have hsound := (hd.tree hroot).boundary.sound
  obtain ⟨ws, htokens, hws⟩ := hw.exists_read hd hsound
  refine ⟨by simp [Walk.track, Walk.stack], fun m hm => ?_, ⟨ws, htokens.symm⟩, fun hne => ?_,
    fun hrest => ⟨w.top, w.getLast?_stack, hw.top_isEnd hd hsound hrest⟩⟩
  · rw [Walk.track, Walk.stack, List.tail_reverse, List.mem_reverse] at hm
    obtain ⟨p, hp⟩ := hw.outer h (root?_iff_mem_positions.1 hroot) m hm
    exact ⟨p, fun e => ⟨fun he => h.entry_unique he hp, fun he => he ▸ hp⟩⟩
  · have hlength := congrArg List.length htokens
    have hpos := List.length_pos_of_ne_nil (hws hne)
    rw [List.length_append] at hlength
    change w.rest.length < tokens.length
    omega

end Walks

/-- A search inside of nothing ends, and what it leaves behind has that shape. -/
theorem matches_shaped (calls : List Call) (hid : id < (ofCalls calls).scopes.length)
    (tokens : List Word) :
    ((ofCalls calls).matchScope id tokens).run' ∅ = some ((ofCalls calls).scopeWalks id tokens) ∧
    (ofCalls calls).scopeTracks true id tokens =
      ((ofCalls calls).scopeWalks id tokens).map Walk.track ∧
    ∀ t ∈ (ofCalls calls).scopeTracks true id tokens, (ofCalls calls).Shaped tokens t := by
  have hd := sound_ofCalls calls
  have h := arranged_ofCalls calls
  obtain ⟨root, hroot⟩ := exists_root?_of_lt hid
  have htracks := scopeTracks_true hd id tokens
  refine ⟨run'_matchScope h hroot tokens, htracks, fun t ht => ?_⟩
  rw [htracks] at ht
  obtain ⟨w, hw, rfl⟩ := List.mem_map.1 ht
  obtain ⟨root, hroot, hw⟩ := mem_scopeWalks_iff.1 hw
  exact hw.shaped hd h hroot

theorem matches_shaped_hails : 1 < (ofCalls hails).scopes.length ∧
    ∃ t ∈ (ofCalls hails).scopeTracks true 1 [ann, soon],
      t.nodes.length = 2 ∧ t.rest = [soon] ∧ (ofCalls hails).Shaped [ann, soon] t := by
  have hid : 1 < (ofCalls hails).scopes.length := by cbv
  have hfound : ((ofCalls hails).scopeTracks true 1 [ann, soon]).map
      (fun t => (t.nodes.length, t.rest)) = [(2, [soon])] := by cbv
  obtain ⟨-, -, hshaped⟩ := matches_shaped hails hid [ann, soon]
  have hmem : (2, [soon]) ∈ ((ofCalls hails).scopeTracks true 1 [ann, soon]).map
      (fun t => (t.nodes.length, t.rest)) := by
    rw [hfound]
    exact List.mem_singleton_self _
  obtain ⟨t, ht, heq⟩ := List.mem_map.1 hmem
  obtain ⟨hnodes, hrest⟩ := Prod.mk.inj heq
  exact ⟨hid, t, ht, hnodes, hrest, hshaped t ht⟩

end Dictionary
end Phrasebook
