import Phrasebook.Proofs.Suggestion.Narrowing

/-!
Typing one more letter. The suggestions for the longer input are those for the shorter one that go on
with the letter, without it and in the same order. The walks over the two inputs differ in their last
step only: one that finishes on the shorter input goes on by the letter or ends there, and one that
stops earlier is there for both. What is joined behind the first segment does not depend on it.
-/

namespace Phrasebook

variable {c : Char} {t t' : Word} {input input' : List Word} {d : Dictionary} {place stop : Node}
  {w : Walk}

/-- What a walk comes to: a finished one to its suggestions, any other to itself. -/
def Walk.comesTo (input : List Word) (w : Walk) : List (Suggestion ⊕ Walk) :=
  if w.isComplete then (w.unwind input).map .inl else [.inr w]

def Walk.narrow (t : Word) (c : Char) : Suggestion ⊕ Walk → Option (Suggestion ⊕ Walk)
  | .inl s => (s.narrow t.text c).map .inl
  | .inr w => some (.inr { w with rest := w.rest.dropLast ++ [t] })

theorem Walk.narrow_stopped {w : Walk} {rest : List Word} (h : w.rest = rest ++ [t]) :
    Walk.narrow t' c (.inr w) = some (.inr { w with rest := rest ++ [t'] }) := by
  rw [Walk.narrow, h, List.dropLast_concat]

theorem filterMap_flatMap_of_elim {α β γ δ : Type} {f : α → List β} {g : β → Option δ}
    {f' : γ → List δ} {g' : α → Option γ} {l : List α}
    (h : ∀ x ∈ l, (f x).filterMap g = (g' x).elim [] f') :
    (l.flatMap f).filterMap g = (l.filterMap g').flatMap f' := by
  induction l with
  | nil => rfl
  | cons x l ih =>
    rw [List.forall_mem_cons] at h
    rw [List.flatMap_cons, List.filterMap_append, h.1, ih h.2]
    cases hx : g' x with
    | none => rw [List.filterMap_cons_none hx, Option.elim_none, List.nil_append]
    | some y => rw [List.filterMap_cons_some hx, Option.elim_some, List.flatMap_cons]

namespace Dictionary

def behind (d : Dictionary) (place : Node) (input : List Word) :
    Suggestion ⊕ Walk → List (Suggestion ⊕ Walk)
  | .inl s => (place.complete []).map fun later => .inl (s.concat later)
  | .inr w =>
    if w.top.isEnd then
      (if place.isEnd then [.inr (w.leave place)] else []) ++
        (d.walks d.ids place w.rest).flatMap (Walk.comesTo input)
    else []

theorem comesTo_walksThrough (free : List ScopeId) (p : Placeholder) (hplace : place.Boundary)
    (tokens input : List Word) : (d.walksThrough free p place tokens).flatMap (Walk.comesTo input) =
      p.contexts.flatMap fun id => if id ∈ free then
        (d.root? id).elim [] fun root =>
          ((d.walks (free.erase id) root tokens).flatMap (Walk.comesTo input)).flatMap
            (d.behind place input)
      else [] := by
  have honward : ∀ w : Walk, (d.onward place w).flatMap (Walk.comesTo input) =
      (w.comesTo input).flatMap (d.behind place input) := by
    intro w
    have hleave : (w.leave place).isComplete = w.isComplete := by
      rw [Walk.isComplete, Walk.isComplete, Walk.rest_leave]
    by_cases hw : w.isComplete = true
    · rw [onward, if_pos hw, List.flatMap_singleton, Walk.comesTo, Walk.comesTo, hleave, if_pos hw,
        if_pos hw, Walk.unwind_leave hplace, List.map_flatMap, List.flatMap_map]
      simp only [behind, List.map_map, Function.comp_def]
    · rw [onward, if_neg hw, Walk.comesTo, if_neg hw, List.flatMap_singleton, behind]
      split_ifs <;> simp [Walk.comesTo, hleave, hw]
  rw [walksThrough_eq, List.flatMap_assoc]
  refine List.flatMap_congr fun id _ => ?_
  split_ifs
  · cases d.root? id with
    | none => rfl
    | some root => simp only [Option.elim_some, List.flatMap_assoc, honward]
  · rfl

theorem filterMap_narrow_behind_said (hplace : place.Boundary) (s : Suggestion) :
    (d.behind place input (.inl s)).filterMap (Walk.narrow t' c) =
      (Walk.narrow t' c (.inl s)).elim [] (d.behind place input') := by
  have hnext : ∀ later ∈ place.complete [], Walk.narrow t' c (.inl (s.concat later)) =
      (s.narrow t'.text c).map fun r => .inl (r.concat later) := by
    intro later hlater
    obtain ⟨items, -, rfl⟩ := hplace.mem_complete_iff.1 hlater
    rw [Walk.narrow, Suggestion.narrow_concat, Option.map_map]
    rfl
  rw [behind, List.filterMap_map]
  refine (List.filterMap_congr hnext).trans ?_
  rw [Walk.narrow]
  cases s.narrow t'.text c with
  | none => simp
  | some r => exact congrFun List.filterMap_eq_map _

theorem filterMap_narrow_behind_stopped {rest : List Word} (h : w.rest = rest ++ [t])
    (hbehind : ((d.walks d.ids place (rest ++ [t])).flatMap (Walk.comesTo input)).filterMap
      (Walk.narrow t' c) = (d.walks d.ids place (rest ++ [t'])).flatMap (Walk.comesTo input')) :
    (d.behind place input (.inr w)).filterMap (Walk.narrow t' c) =
      (Walk.narrow t' c (.inr w)).elim [] (d.behind place input') := by
  have hleave : Walk.narrow t' c (.inr (w.leave place)) =
      some (.inr ({ w with rest := rest ++ [t'] }.leave place)) := by
    rw [Walk.narrow_stopped ((Walk.rest_leave w place).trans h), Walk.leave, Walk.leave]
    split_ifs <;> rfl
  rw [Walk.narrow_stopped h, Option.elim_some, behind, behind]
  dsimp only
  split_ifs with hend hplace
  · rw [List.filterMap_append, List.filterMap_cons_some hleave, h, hbehind]
    rfl
  · rw [h, List.nil_append, hbehind, List.nil_append]
  · rfl

theorem comesTo_walks_cons (free : List ScopeId) (n : Node) (token : Word)
    (rest input : List Word) : (d.walks free n (token :: rest)).flatMap (Walk.comesTo input) =
      ((n.spell token.letters).elim [] fun stop =>
        (if stop.isEnd && !rest.isEmpty then [.inr ⟨stop, [], rest⟩] else []) ++
          (d.walks d.ids stop rest).flatMap (Walk.comesTo input)) ++
      n.slots.flatMap fun slot =>
        (d.walksThrough free slot.1 slot.2 (token :: rest)).flatMap (Walk.comesTo input) := by
  rw [walks_cons, wordWalks, List.flatMap_append, List.flatMap_assoc]
  cases n.spell token.letters with
  | none => rfl
  | some stop =>
    rw [Option.elim_some, Option.elim_some, List.flatMap_append]
    refine congrArg (· ++ _ ++ _) ?_
    split_ifs with hend
    · rw [Bool.and_eq_true, Bool.not_eq_true'] at hend
      simp [Walk.comesTo, Walk.isComplete, hend.2]
    · rfl

theorem filterMap_narrow_finished (hinput : input'.getLast? = some t') (hstop : stop.Sound) :
    ((d.walks d.ids stop []).flatMap (Walk.comesTo input)).filterMap (Walk.narrow t' c) =
      (stop.chars.find? c).elim [] fun m =>
        (d.walks d.ids m []).flatMap (Walk.comesTo input') := by
  have hcomesTo : ∀ (m : Node) input, (d.walks d.ids m []).flatMap (Walk.comesTo input) =
      (m.complete input).map .inl := by
    intro m input
    rw [walks_nil, List.flatMap_singleton]
    rfl
  simp only [hcomesTo]
  rw [List.filterMap_map]
  refine Eq.trans (List.map_filterMap (f := Suggestion.narrow t'.text c)).symm ?_
  rw [hstop.filterMap_narrow_complete hinput]
  cases stop.chars.find? c <;> rfl

theorem exists_rest_of_stopped (hd : d.Sound) {free above : List ScopeId}
    (hfree : d.FreeOf free above) {n : Node} (hn : n.Sound) {tokens : List Word}
    (hw : .inr w ∈ (d.walks free n (tokens ++ [t])).flatMap (Walk.comesTo input)) :
    ∃ rest, w.rest = rest ++ [t] ∧ rest.length < tokens.length := by
  obtain ⟨v, hv, hw⟩ := List.mem_flatMap.1 hw
  rw [Walk.comesTo] at hw
  split_ifs at hw with hcomplete
  · simp at hw
  · cases List.mem_singleton.1 hw
    have hexplains := ((mem_walks_iff hfree).1 hv).explains hd hn (by simp)
    have hne : w.rest ≠ [] := fun hnil => hcomplete ((Walk.isComplete_iff w).2 hnil)
    obtain ⟨-, items, ws, -, -, hws, htokens⟩ := hexplains.stopped hne
    obtain ⟨rest, u, hrest⟩ := (List.eq_nil_or_concat w.rest).resolve_left hne
    rw [List.concat_eq_append] at hrest
    rw [hrest, ← List.append_assoc] at htokens
    obtain ⟨rfl, hlast⟩ := List.append_inj' htokens rfl
    refine ⟨rest, by rw [hrest, hlast], ?_⟩
    have hpos := List.length_pos_of_ne_nil hws
    rw [List.length_append]
    omega

mutual

theorem comesTo_walks_concat (hd : d.Sound) (hinput : input'.getLast? = some t')
    (hspell : ∀ n : Node, n.spell t'.letters = (n.spell t.letters).bind (·.chars.find? c))
    {free above : List ScopeId} (hfree : d.FreeOf free above) {n : Node} (hn : n.Sound)
    (tokens : List Word) :
    ((d.walks free n (tokens ++ [t])).flatMap (Walk.comesTo input)).filterMap (Walk.narrow t' c) =
      (d.walks free n (tokens ++ [t'])).flatMap (Walk.comesTo input') := by
  have hslots : ∀ slot ∈ n.slots,
      ((d.walksThrough free slot.1 slot.2 (tokens ++ [t])).flatMap
        (Walk.comesTo input)).filterMap (Walk.narrow t' c) =
      (d.walksThrough free slot.1 slot.2 (tokens ++ [t'])).flatMap (Walk.comesTo input') :=
    fun slot hslot =>
      comesTo_walksThrough_concat hd hinput hspell hfree (hn.slot hslot).1 slot.1 tokens
  cases tokens with
  | nil =>
    rw [List.nil_append, List.nil_append, comesTo_walks_cons, comesTo_walks_cons,
      List.filterMap_append, List.filterMap_flatMap]
    refine congrArg₂ (· ++ ·) ?_ (List.flatMap_congr hslots)
    rw [hspell]
    cases hs : n.spell t.letters with
    | none => rfl
    | some stop =>
      have hfinished :=
        @filterMap_narrow_finished c _ input _ d _ hinput (hn.spell hs).1
      simpa using hfinished
  | cons u tokens =>
    rw [List.cons_append, List.cons_append, comesTo_walks_cons, comesTo_walks_cons,
      List.filterMap_append, List.filterMap_flatMap]
    refine congrArg₂ (· ++ ·) ?_ (List.flatMap_congr hslots)
    cases hs : n.spell u.letters with
    | none => rfl
    | some stop =>
      rw [Option.elim_some, Option.elim_some, List.filterMap_append,
        comesTo_walks_concat hd hinput hspell (freeOf_ids d) (hn.spell hs).1 tokens]
      refine congrArg (· ++ _) ?_
      have hne : ∀ w : Word, (tokens ++ [w]).isEmpty = false := by simp
      rw [hne, hne]
      split_ifs
      · rw [List.filterMap_cons_some (Walk.narrow_stopped rfl)]
        rfl
      · rfl
termination_by (tokens.length, free.length, 1)

theorem comesTo_walksThrough_concat (hd : d.Sound) (hinput : input'.getLast? = some t')
    (hspell : ∀ n : Node, n.spell t'.letters = (n.spell t.letters).bind (·.chars.find? c))
    {free above : List ScopeId} (hfree : d.FreeOf free above) {place : Node}
    (hplace : place.Boundary) (p : Placeholder) (tokens : List Word) :
    ((d.walksThrough free p place (tokens ++ [t])).flatMap
      (Walk.comesTo input)).filterMap (Walk.narrow t' c) =
      (d.walksThrough free p place (tokens ++ [t'])).flatMap (Walk.comesTo input') := by
  rw [comesTo_walksThrough free p hplace, comesTo_walksThrough free p hplace,
    List.filterMap_flatMap]
  refine List.flatMap_congr fun id _ => ?_
  by_cases hid : id ∈ free
  · rw [if_pos hid, if_pos hid]
    cases hroot : d.root? id with
    | none => rfl
    | some root =>
      have hsound := (hd.tree hroot).boundary.sound
      rw [Option.elim_some, Option.elim_some, ← comesTo_walks_concat hd hinput hspell
        (hfree.erase id) hsound tokens]
      refine filterMap_flatMap_of_elim fun x hx => ?_
      cases x with
      | inl s => exact filterMap_narrow_behind_said hplace s
      | inr w =>
        obtain ⟨rest, hrest, hless⟩ := exists_rest_of_stopped hd (hfree.erase id) hsound hx
        exact filterMap_narrow_behind_stopped hrest
          (comesTo_walks_concat hd hinput hspell (freeOf_ids d) hplace.sound rest)
  · rw [if_neg hid, if_neg hid]
    rfl
termination_by (tokens.length, free.length, 0)
decreasing_by
  · exact .right _ (.left _ _ (length_erase_lt hid))
  · exact .left _ _ hless

end

theorem flatMap_unwind_eq (input : List Word) (l : List Walk) :
    (l.filter Walk.isComplete).flatMap (·.unwind input) =
      (l.flatMap (Walk.comesTo input)).filterMap Sum.getLeft? := by
  induction l with
  | nil => rfl
  | cons w l ih =>
    rw [List.flatMap_cons, List.filterMap_append, ← ih, Walk.comesTo]
    by_cases hw : w.isComplete = true
    · simp [hw, Function.comp_def]
    · simp [hw]

theorem getLeft?_narrow (x : Suggestion ⊕ Walk) : (Walk.narrow t' c x).bind Sum.getLeft? =
    x.getLeft?.bind (Suggestion.narrow t'.text c) := by
  cases x with
  | inl s =>
    rw [Walk.narrow, Option.bind_map, Sum.getLeft?_inl, Option.bind_some]
    exact Option.bind_fun_some _
  | inr w => rfl

theorem distinct_filterMap_narrow {l : List Suggestion}
    (h : ∀ a ∈ l, ∀ r, a.narrow t'.text c = some r → a.stem = some t.text) :
    distinct [] (l.filterMap (Suggestion.narrow t'.text c)) =
      (distinct [] l).filterMap (Suggestion.narrow t'.text c) := by
  refine @distinct_filterMap _ [] l fun a b r ha hb har hbr => ?_
  have ha := ha.resolve_left List.not_mem_nil
  have hb := hb.resolve_left List.not_mem_nil
  exact Suggestion.narrow_injective har hbr ((h a ha r har).trans (h b hb r hbr).symm)

theorem stem_of_narrow (hd : d.Sound) {id : ScopeId} {tokens : List Word} {a r : Suggestion}
    (ha : a ∈ d.continuations id (tokens ++ [t])) (hr : a.narrow t'.text c = some r) :
    a.stem = some t.text := by
  obtain ⟨items, out, -, -, hcontinues⟩ := (mem_continuations_iff hd).1 ha
  obtain ⟨letters, rest, hsegments, -⟩ := Suggestion.segments_of_narrow hr
  rw [hcontinues.stem_eq, hsegments]
  simp

theorem continuations_concat (hd : d.Sound) (id : ScopeId) (tokens : List Word)
    (hspell : ∀ n : Node, n.spell t'.letters = (n.spell t.letters).bind (·.chars.find? c)) :
    d.continuations id (tokens ++ [t']) =
      (d.continuations id (tokens ++ [t])).filterMap (Suggestion.narrow t'.text c) := by
  have hwalks : (d.scopeWalks id (tokens ++ [t'])).flatMap (Walk.comesTo (tokens ++ [t'])) =
      ((d.scopeWalks id (tokens ++ [t])).flatMap (Walk.comesTo (tokens ++ [t]))).filterMap
        (Walk.narrow t' c) := by
    rw [scopeWalks, scopeWalks]
    cases hroot : d.root? id with
    | none => rfl
    | some root =>
      exact (comesTo_walks_concat hd (by simp) hspell ((freeOf_ids d).erase id)
        (hd.tree hroot).boundary.sound tokens).symm
  rw [continuations, continuations, ← distinct_filterMap_narrow, flatMap_unwind_eq,
    flatMap_unwind_eq, hwalks, List.filterMap_filterMap, List.filterMap_filterMap]
  · simp only [getLeft?_narrow]
  · intro a ha r hr
    exact stem_of_narrow hd (mem_distinct.2 ⟨ha, List.not_mem_nil⟩) hr

/-- One more letter leaves of the suggestions those that begin with it, without the letter. -/
theorem suggest_push (calls : List Call) (id : ScopeId) (tokens : List Word) (t : Word) {c : Char}
    (h : Text.isBlank c = false) (lookahead : Nat) :
    (ofCalls calls).suggest id (tokens ++ [t.push c h]) lookahead =
      ((ofCalls calls).suggest id (tokens ++ [t]) lookahead).filterMap
        (Suggestion.narrow (t.push c h).text c) := by
  have hd := sound_ofCalls calls
  have hcontinuations := continuations_concat hd id tokens fun n => n.spell_push t h
  rw [suggest, suggest, hcontinuations]
  split_ifs
  · rfl
  · have hresolve : ∀ s, ((ofCalls calls).resolve s lookahead).filterMap
        (Suggestion.narrow (t.push c h).text c) =
          (s.narrow (t.push c h).text c).elim [] fun r => (ofCalls calls).resolve r lookahead :=
      fun s => filterMap_narrow_resolve hd s lookahead _
    rw [← filterMap_flatMap_of_elim fun s _ => hresolve s]
    refine @distinct_filterMap_narrow _ t _ _ fun a ha r hr => ?_
    -- What an open place is filled with changes neither the stem nor the first letters.
    obtain ⟨s, hs, ha⟩ := List.mem_flatMap.1 ha
    have hmem := List.mem_filterMap.2 ⟨a, ha, hr⟩
    rw [hresolve] at hmem
    cases hnarrow : s.narrow (t.push c h).text c with
    | none =>
      rw [hnarrow] at hmem
      cases hmem
    | some r' => rw [(mem_resolve_iff.1 ha).1, stem_of_narrow hd hs hnarrow]

def bring : Word := ⟨"bring", by decide, Word.any_isBlank_eq_false.1 (by decide)⟩

def sip : Word := ⟨"t", by decide, Word.any_isBlank_eq_false.1 (by decide)⟩

def orders : List Call :=
  [.define "drink" [.written "tea", .written "tonic <with:drink>"],
    .define "order" [.written "bring <what:drink> please"]]

theorem suggest_push_orders : Text.isBlank 'e' = false ∧
    (ofCalls orders).suggest 1 [bring, sip] 1 =
      [⟨some "t", [.text "ea", .word "please"]⟩,
        ⟨some "t", [.text "onic", .word "tea", .word "please"]⟩,
        ⟨some "t", [.text "onic", .slot ⟨"with", [0]⟩, .word "please"]⟩] ∧
    (ofCalls orders).suggest 1 [bring, sip.push 'e' (by decide)] 1 =
      [⟨some "te", [.text "a", .word "please"]⟩] := by
  have hshorter : (ofCalls orders).suggest 1 [bring, sip] 1 =
      [⟨some "t", [.text "ea", .word "please"]⟩,
        ⟨some "t", [.text "onic", .word "tea", .word "please"]⟩,
        ⟨some "t", [.text "onic", .slot ⟨"with", [0]⟩, .word "please"]⟩] := by cbv
  refine ⟨by decide, hshorter, ?_⟩
  refine (suggest_push orders 1 [bring] sip (by decide) 1).trans ?_
  rw [List.singleton_append, hshorter]
  decide

end Dictionary
end Phrasebook
