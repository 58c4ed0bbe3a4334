import Phrasebook.Proofs.Walk.Reading

/-!
Every loopless derivation is found. A derivation of words leads a walk over exactly these words to
the end of a pattern, whatever words follow; one of an expansion that continues the words leads a
walk over all of them, whose unwinding has that continuation. Together with what every walk says
this tells the continuations of a scope exactly.
-/

namespace Phrasebook

namespace Dictionary

variable {d : Dictionary} {above : List ScopeId} {n place stop root : Node} {p : Placeholder}
  {t : Word} {tokens rest ws input : List Word} {w : Walk} {items out : List Item}
  {s : Suggestion} {id : ScopeId} {k lookahead : Nat}

theorem exists_spell_word (hn : n.Sound) (hheld : n.Holds (.word t :: items)) :
    ∃ stop, n.spell t.letters = some stop ∧ stop.Sound ∧ stop.Holds items := by
  have hletters : t.letters = t.letters ++ [] := by rw [List.append_nil]
  obtain ⟨stop, hs⟩ := hn.exists_spell hletters hheld
  obtain ⟨hstop, hafter⟩ := hn.spell hs
  exact ⟨stop, hs, hstop, (hafter [] items).2 ⟨t, hletters, hheld⟩⟩

theorem exists_walk_of_spells (hd : d.Sound) (h : d.SpellsLoopless above items ws) (hn : n.Sound)
    (hheld : n.Holds items) (hitems : items ≠ []) (hrest : rest ≠ []) :
    ∃ w, d.Walks above n (ws ++ rest) w ∧ w.rest = rest ∧ w.top.isEnd = true := by
  induction h generalizing n rest with
  | nil => exact absurd rfl hitems
  | @word above t items ws hinner ih =>
    obtain ⟨stop, hs, hstop, hheld⟩ := exists_spell_word hn hheld
    by_cases hmore : items = []
    · subst hmore
      cases hinner
      have hend := Node.holds_nil.1 hheld
      exact ⟨⟨stop, [], rest⟩, .stop hs hend hrest, rfl, hend⟩
    · obtain ⟨w, hw, hstops⟩ := ih hstop hheld hmore hrest
      exact ⟨w, .word hs hw, hstops⟩
  | @fill above p id body items us ws named new stored hinner hbehind ihi ihr =>
    obtain ⟨place, hslot⟩ := Node.exists_slot hheld
    obtain ⟨hplace, hafter⟩ := hn.slot hslot
    obtain ⟨root, hroot, hbody⟩ := (stores_iff hd).1 stored
    have hus := hinner.ne_nil hd (hd.ne_nil stored)
    have hlength := List.length_pos_of_ne_nil hus
    obtain ⟨v, hv, hvrest, hend⟩ := ihi (hd.tree hroot).boundary.sound hbody
      (hd.ne_nil stored) (List.append_ne_nil_of_right_ne_nil ws hrest)
    rw [← List.append_assoc] at hv
    have hne : us ++ ws ++ rest ≠ [] := List.append_ne_nil_of_right_ne_nil _ hrest
    -- Behind the last item the walk stays open below the place, otherwise it starts anew there.
    by_cases hmore : items = []
    · subst hmore
      cases hbehind
      have hplaceEnd := Node.holds_nil.1 ((hafter []).2 hheld)
      refine ⟨v.leave place, .leave hne hslot named new hroot hv (.inr ⟨hend, hplaceEnd⟩), ?_, ?_⟩
      · rw [Walk.rest_leave, hvrest, List.nil_append]
      · rwa [Walk.top_leave]
    · rw [if_neg hus] at ihr
      obtain ⟨w, hw, hstops⟩ := ihr hplace.sound ((hafter items).2 hheld) hmore hrest
      rw [← hvrest] at hw
      have hless : v.rest.length < (us ++ ws ++ rest).length := by
        simp only [hvrest, List.length_append]
        omega
      have hvne : v.rest ≠ [] := by
        rw [hvrest]
        exact List.append_ne_nil_of_right_ne_nil ws hrest
      exact ⟨w, .behind hslot named new hroot hv hvne hend hless hw, hstops⟩

theorem exists_walk_of_expands (hd : d.Sound) (h : d.ExpandsLoopless above k items out)
    (hk : k = tokens.length) (hn : n.Sound) (hheld : n.Holds items) (hne : tokens ≠ [])
    (hcontinues : Continues tokens out s) (hinput : input.getLast? = tokens.getLast?) :
    ∃ w, d.Walks above n tokens w ∧ w.rest = [] ∧ s ∈ w.unwind input := by
  induction h generalizing n tokens s with
  | nil => exact absurd (List.length_eq_zero_iff.1 (Nat.le_zero.1 hcontinues.length_le)) hne
  | @keep above k x items out hrest ih =>
    subst hk
    match tokens, hne with
    | [t], _ =>
      obtain ⟨w, r, out, heq, hw, rfl⟩ := hcontinues.exists_tail hinput
      obtain ⟨rfl, rfl⟩ := List.cons.inj heq
      obtain rfl := hrest.eq_of_zero
      obtain ⟨stop, hs⟩ := hn.exists_spell hw hheld
      obtain ⟨hstop, hafter⟩ := hn.spell hs
      refine ⟨⟨stop, [], []⟩, .word hs .here, rfl, ?_⟩
      exact hstop.mem_complete_iff.2 ⟨r, _, (hafter r _).2 ⟨w, hw, hheld⟩, rfl⟩
    | t :: t' :: tokens, _ =>
      cases hcontinues with
      | word later =>
        obtain ⟨stop, hs, hstop, hheld⟩ := exists_spell_word hn hheld
        obtain ⟨w, hw, hfinished⟩ := ih rfl hstop hheld (by simp) later
          (by rw [hinput, List.getLast?_cons_cons])
        exact ⟨w, .word hs hw, hfinished⟩
  | @fill above k p id body mid items out covers named new stored hinner hbehind ihi ihr =>
    subst hk
    obtain ⟨place, hslot⟩ := Node.exists_slot hheld
    obtain ⟨hplace, hafter⟩ := hn.slot hslot
    obtain ⟨root, hroot, hbody⟩ := (stores_iff hd).1 stored
    have hroots := (hd.tree hroot).boundary.sound
    by_cases hlength : mid.length < tokens.length
    · -- The filling ends before the last word: it spells some words and the others come behind it.
      obtain ⟨ws, rest, rfl, rfl, hrest, hlater⟩ := hcontinues.split hlength
      have hspells := hinner.spells hd rfl
      have hws := List.length_pos_of_ne_nil (hspells.ne_nil hd (hd.ne_nil stored))
      obtain ⟨v, hv, hvrest, hend⟩ := exists_walk_of_spells hd hspells hroots hbody
        (hd.ne_nil stored) hrest
      subst hvrest
      rw [List.getLast?_append_of_ne_nil _ hrest] at hinput
      obtain ⟨w, hw, hfinished⟩ := ihr (by simp) hplace.sound ((hafter items).2 hheld) hrest
        hlater hinput
      have hless : v.rest.length < (ws ++ v.rest).length := by
        rw [List.length_append]
        omega
      exact ⟨w, .behind hslot named new hroot hv hrest hend hless hw, hfinished⟩
    · -- The filling reaches the last word, so nothing behind it is filled.
      obtain ⟨head, hhead, rfl⟩ := hcontinues.of_append hne (Nat.le_of_not_lt hlength)
      rw [Nat.sub_eq_zero_of_le (Nat.le_of_not_lt hlength)] at hbehind
      obtain rfl := hbehind.eq_of_zero
      obtain ⟨v, hv, hvrest, hunwind⟩ := ihi rfl hroots hbody hne hhead hinput
      refine ⟨v.leave place, .leave hne hslot named new hroot hv (.inl hvrest), ?_, ?_⟩
      · rwa [Walk.rest_leave]
      · rw [Walk.unwind_leave hplace, ← Suggestion.concat_items]
        exact List.mem_flatMap.2 ⟨head, hunwind, List.mem_map.2
          ⟨_, hplace.mem_complete_iff.2 ⟨out, (hafter out).2 hheld, rfl⟩, rfl⟩⟩

theorem mem_distinct {seen l : List Suggestion} : s ∈ distinct seen l ↔ s ∈ l ∧ s ∉ seen := by
  induction l generalizing seen with
  | nil => simp [distinct]
  | cons x l ih =>
    rw [distinct]
    by_cases hx : x ∈ seen
    · rw [if_pos hx, ih, List.mem_cons]
      constructor
      · exact fun h => ⟨.inr h.1, h.2⟩
      · intro h
        obtain ⟨rfl | hmem, hnew⟩ := h
        · exact absurd hx hnew
        · exact ⟨hmem, hnew⟩
    · rw [if_neg hx, List.mem_cons, ih, List.mem_cons, List.mem_cons, not_or]
      by_cases hs : s = x
      · simp [hs, hx]
      · simp [hs]

theorem mem_continuations_iff_exists_walk : s ∈ d.continuations id tokens ↔
    ∃ w ∈ d.scopeWalks id tokens, w.rest = [] ∧ s ∈ w.unwind tokens := by
  simp only [continuations, mem_distinct, List.not_mem_nil, not_false_eq_true, and_true,
    List.mem_flatMap, List.mem_filter, Walk.isComplete_iff, and_assoc]

theorem mem_continuations_iff (hd : d.Sound) : s ∈ d.continuations id tokens ↔
    ∃ items out, d.Stores id items ∧ d.ExpandsLoopless [id] tokens.length items out ∧
      Continues tokens out s := by
  simp only [mem_continuations_iff_exists_walk, mem_scopeWalks_iff]
  constructor
  · intro h
    obtain ⟨w, ⟨root, hroot, hw⟩, hrest, hmem⟩ := h
    have htree := (hd.tree hroot).boundary
    by_cases hne : tokens = []
    · subst hne
      rw [hw.eq_here] at hmem
      obtain ⟨items, hheld, rfl⟩ := htree.mem_complete_iff.1 hmem
      exact ⟨items, items, (stores_iff hd).2 ⟨root, hroot, hheld⟩, .refl 0 items, .start items⟩
    · obtain ⟨items, out, hheld, h⟩ :=
        (hw.explains hd htree.sound hne).finished hrest tokens s rfl hmem
      exact ⟨items, out, (stores_iff hd).2 ⟨root, hroot, hheld⟩, h⟩
  · intro h
    obtain ⟨items, out, stored, hexpands, hcontinues⟩ := h
    obtain ⟨root, hroot, hheld⟩ := (stores_iff hd).1 stored
    have htree := (hd.tree hroot).boundary
    by_cases hne : tokens = []
    · subst hne
      obtain rfl := hexpands.eq_of_zero
      cases hcontinues
      exact ⟨_, ⟨root, hroot, .here⟩, rfl, htree.mem_complete_iff.2 ⟨out, hheld, rfl⟩⟩
    · obtain ⟨w, hw, hfinished⟩ :=
        exists_walk_of_expands hd hexpands rfl htree.sound hheld hne hcontinues rfl
      exact ⟨w, ⟨root, hroot, hw⟩, hfinished⟩

theorem mem_suggest_iff : s ∈ d.suggest id tokens lookahead ↔
    ∃ s₀ ∈ d.continuations id tokens,
      if lookahead = 0 then s = s₀ else s ∈ d.resolve s₀ lookahead := by
  rw [suggest]
  split_ifs
  · simp
  · simp [mem_distinct]

end Dictionary
end Phrasebook
