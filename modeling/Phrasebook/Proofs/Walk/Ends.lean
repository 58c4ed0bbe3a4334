import Mathlib.Data.List.Permutation
import Phrasebook.Proofs.Dictionary.Growth
import Phrasebook.Proofs.Walk.Finding

/-!
Where the walks of a scope end. A walk that leaves some words stands at the end of a sentence made of
the others, and it does so for every loopless sentence that the input begins with. A walk that leaves
none stands, inside every scope it is in, where something goes on or ends; so there is something to
suggest whenever the whole input can be read.
-/

namespace Phrasebook

theorem Node.complete_ne_nil {n : Node} (h : n.paths ≠ []) (input : List Word) :
    n.complete input ≠ [] := by
  simpa [complete, tails_eq] using h

namespace Walk

variable {w : Walk} {input : List Word} {top : Node} {inner : List Node}

theorem unwindFrom_ne_nil (h : ∀ m ∈ top :: inner, m.paths ≠ []) :
    unwindFrom input top inner ≠ [] := by
  induction inner generalizing top with
  | nil => exact Node.complete_ne_nil (h top List.mem_cons_self) input
  | cons n inner ih =>
    obtain ⟨htop, hinner⟩ := List.forall_mem_cons.1 h
    obtain ⟨head, hhead⟩ := List.exists_mem_of_ne_nil _ (ih hinner)
    obtain ⟨tail, htail⟩ := List.exists_mem_of_ne_nil _ (Node.complete_ne_nil htop [])
    exact List.ne_nil_of_mem
      (List.mem_flatMap.2 ⟨head, hhead, List.mem_map.2 ⟨tail, htail, rfl⟩⟩)

theorem mem_leave {place m : Node} (h : m ∈ (w.leave place).top :: (w.leave place).inner) :
    m = place ∨ m ∈ w.top :: w.inner := by
  rw [leave] at h
  split_ifs at h
  · exact (List.mem_cons.1 h).imp_right (List.mem_cons_of_mem _)
  · exact List.mem_cons.1 h

end Walk

namespace Dictionary

variable {d : Dictionary} {above : List ScopeId} {n : Node} {id : ScopeId} {tokens ws : List Word}
  {w : Walk} {k : Nat}

/-- A walk stops behind the first `k` words exactly if these are a loopless sentence. -/
theorem exists_scopeWalk_leaving_iff (calls : List Call) (hk : k < tokens.length) :
    (∃ w ∈ (ofCalls calls).scopeWalks id tokens, w.rest.length = tokens.length - k) ↔
      (ofCalls calls).LooplessSentence id (tokens.take k) := by
  have hd := sound_ofCalls calls
  simp only [mem_scopeWalks_iff]
  constructor
  · intro h
    obtain ⟨w, ⟨root, hroot, hw⟩, hlength⟩ := h
    have hrest : w.rest ≠ [] := List.ne_nil_of_length_pos (by omega)
    have hne : tokens ≠ [] := List.ne_nil_of_length_pos (by omega)
    obtain ⟨-, items, ws, hheld, hspells, -, htokens⟩ :=
      (hw.explains hd (hd.tree hroot).boundary.sound hne).stopped hrest
    have hws : k = ws.length := by
      have := congrArg List.length htokens
      rw [List.length_append] at this
      omega
    rw [htokens, hws, List.take_left]
    exact ⟨items, (stores_iff hd).2 ⟨root, hroot, hheld⟩, hspells⟩
  · intro h
    obtain ⟨items, stored, hspells⟩ := h
    obtain ⟨root, hroot, hheld⟩ := (stores_iff hd).1 stored
    have hrest : tokens.drop k ≠ [] := by simpa using hk
    obtain ⟨w, hw, hwrest, -⟩ := exists_walk_of_spells hd hspells
      (hd.tree hroot).boundary.sound hheld (hd.ne_nil stored) hrest
    rw [List.take_append_drop] at hw
    exact ⟨w, ⟨root, hroot, hw⟩, by rw [hwrest, List.length_drop]⟩

def ann : Word := ⟨"ann", by decide, Word.any_isBlank_eq_false.1 (by decide)⟩

def lee : Word := ⟨"lee", by decide, Word.any_isBlank_eq_false.1 (by decide)⟩

def again : Word := ⟨"again", by decide, Word.any_isBlank_eq_false.1 (by decide)⟩

def soon : Word := ⟨"soon", by decide, Word.any_isBlank_eq_false.1 (by decide)⟩

def hails : List Call :=
  [.define "name" [.written "ann", .written "ann lee"],
    .define "hail" [.written "<who:name>", .written "<first:hail> again"]]

theorem stores_hails {items : List Item} : (ofCalls hails).Stores id items ↔
    ∃ stored, ([[[.word ann], [.word ann, .word lee]],
        [[.slot ⟨"first", [1]⟩, .word again], [.slot ⟨"who", [0]⟩]]] :
      List (List (List Item)))[id]? = some stored ∧ items ∈ stored :=
  stores_iff_of_paths (sound_ofCalls hails) (by cbv)

/-- The name is a hail and so is the name said again, but no walk stops behind the second: it would
begin the hail by way of the hail. -/
theorem exists_scopeWalk_leaving_hails :
    (1 < [ann, again, soon].length ∧ (ofCalls hails).LooplessSentence 1 [ann]) ∧
    2 < [ann, again, soon].length ∧ (ofCalls hails).Sentence 1 [ann, again] ∧
      ¬ (ofCalls hails).LooplessSentence 1 [ann, again] := by
  have hleft : ((ofCalls hails).scopeWalks 1 [ann, again, soon]).map (·.rest.length) = [2] := by
    cbv
  have hstops : ∀ r, (∃ w ∈ (ofCalls hails).scopeWalks 1 [ann, again, soon], w.rest.length = r) ↔
      r = 2 := by
    intro r
    rw [← List.mem_map, hleft, List.mem_singleton]
  have hfirst : 1 < [ann, again, soon].length := by decide
  have hsecond : 2 < [ann, again, soon].length := by decide
  have hname : (ofCalls hails).Sentence 1 [ann] :=
    ⟨[.slot ⟨"who", [0]⟩], stores_hails.2 ⟨_, rfl, by simp⟩,
      .fill (List.mem_singleton_self 0) (stores_hails.2 ⟨_, rfl, by simp⟩) (.word .nil) .nil⟩
  obtain ⟨items, stored, hspells⟩ := hname
  refine ⟨⟨hfirst, (exists_scopeWalk_leaving_iff hails hfirst).1 ((hstops _).2 rfl)⟩, hsecond,
    ⟨[.slot ⟨"first", [1]⟩, .word again], stores_hails.2 ⟨_, rfl, by simp⟩,
      .fill (List.mem_singleton_self 1) stored hspells (.word .nil)⟩, fun hsentence => ?_⟩
  have := (hstops _).1 ((exists_scopeWalk_leaving_iff hails hsecond).2 hsentence)
  simp at this

theorem Walks.live (hd : d.Sound) (hnumbered : d.Numbered) (h : d.Walks above n tokens w)
    (hn : n.Sound) (hg : n.Grown) (hlive : tokens = [] → n.paths ≠ []) :
    ∀ m ∈ w.top :: w.inner, m.paths ≠ [] := by
  induction h with
  | here => simpa using hlive rfl
  | stop spelled => simpa using (hg.spell hn.ordered spelled).2
  | word spelled _ ih =>
    obtain ⟨hstop, hlive⟩ := hg.spell hn.ordered spelled
    exact ih (hn.spell spelled).1 hstop fun _ => hlive
  | @leave above n place root p id tokens v typed slot named new entered _ ended ih =>
    have ha : n.Arc (.slot p) place := slot
    intro m hm
    rcases Walk.mem_leave hm with rfl | hm
    · exact hg.live ha
    · exact ih (hd.tree entered).boundary.sound (hnumbered.grown_root entered)
        (fun hnil => absurd hnil typed) m hm
  | @behind above n place root p id tokens v w slot named new entered _ more _ _ _ _ ih =>
    have ha : n.Arc (.slot p) place := slot
    exact ih (hn.slot slot).1.sound (hg.arc ha) fun hnil => absurd hnil more

theorem unwind_ne_nil_of_mem_scopeWalks (calls : List Call) (hne : tokens ≠ [])
    (h : w ∈ (ofCalls calls).scopeWalks id tokens) (input : List Word) : w.unwind input ≠ [] := by
  have hd := sound_ofCalls calls
  have hnumbered := Numbered.ofCalls calls
  obtain ⟨root, hroot, hw⟩ := mem_scopeWalks_iff.1 h
  exact Walk.unwindFrom_ne_nil (hw.live hd hnumbered (hd.tree hroot).boundary.sound
    (hnumbered.grown_root hroot) fun hnil => absurd hnil hne)

/-- Every walk over the whole input has something to say, so the scope answers if there is one. -/
theorem suggest_ne_nil_iff (calls : List Call) (hne : tokens ≠ []) :
    (∀ w ∈ (ofCalls calls).scopeWalks id tokens, w.isComplete = true → w.unwind tokens ≠ []) ∧
    ((ofCalls calls).suggest id tokens 0 ≠ [] ↔
      ∃ w ∈ (ofCalls calls).scopeWalks id tokens, w.isComplete = true) := by
  refine ⟨fun w hw _ => unwind_ne_nil_of_mem_scopeWalks calls hne hw tokens, ?_⟩
  constructor
  · intro h
    obtain ⟨s, hs⟩ := List.exists_mem_of_ne_nil _ h
    obtain ⟨w, hw, hrest, -⟩ := mem_continuations_iff_exists_walk.1 hs
    exact ⟨w, hw, (Walk.isComplete_iff w).2 hrest⟩
  · intro h
    obtain ⟨w, hw, hcomplete⟩ := h
    obtain ⟨s, hs⟩ := List.exists_mem_of_ne_nil _ (unwind_ne_nil_of_mem_scopeWalks calls hne hw tokens)
    exact List.ne_nil_of_mem (mem_continuations_iff_exists_walk.2
      ⟨w, hw, (Walk.isComplete_iff w).1 hcomplete, hs⟩)

theorem suggest_ne_nil_hails :
    ([ann] ≠ [] ∧ (ofCalls hails).suggest 1 [ann] 0 ≠ []) ∧
    [ann, again] ≠ [] ∧ (ofCalls hails).suggest 1 [ann, again] 0 = [] := by
  have hname : ((ofCalls hails).scopeWalks 1 [ann]).map Walk.isComplete = [true] := by cbv
  have hagain : ((ofCalls hails).scopeWalks 1 [ann, again]).map Walk.isComplete = [false] := by cbv
  obtain ⟨-, hfound⟩ := @suggest_ne_nil_iff 1 _ hails (List.cons_ne_nil ann [])
  obtain ⟨-, hmissed⟩ := @suggest_ne_nil_iff 1 _ hails (List.cons_ne_nil ann [again])
  refine ⟨⟨by simp, hfound.2 ?_⟩, by simp, not_not.1 fun hne => ?_⟩
  · rw [← List.mem_map, hname]
    exact List.mem_singleton_self true
  · have := List.mem_map.2 (hmissed.1 hne)
    rw [hagain] at this
    simp at this

end Dictionary
end Phrasebook
