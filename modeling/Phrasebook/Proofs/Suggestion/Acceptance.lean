import Phrasebook.Proofs.Dictionary.Grafting
import Phrasebook.Proofs.Lookahead.Resolution
import Phrasebook.Proofs.Suggestion.Answers

/-!
What follows when a suggestion is taken: the typed words and the text of the suggestion, cut at their
blanks, are a sentence of the scope. The scope knows it for one, so nothing is left to be said. Only
where nothing was typed a scope that begins with itself may suggest sentences it does not find again.
-/

namespace Phrasebook

def accepted (tokens : List Word) (s : Suggestion) : String :=
  String.intercalate " " (tokens.map (·.text)) ++ s.render

theorem toList_render_phrase (stem : Option String) (us : List Word) :
    (Suggestion.render ⟨stem, phrase us⟩).toList = Word.spaced us := by
  induction us with
  | nil => rfl
  | cons u us ih =>
    simp only [Suggestion.render, phrase_cons, List.map_cons, String.join_cons, String.toList_append,
      Segment.render, Word.spaced, List.flatMap_cons] at ih ⊢
    rw [ih]
    rfl

theorem toList_render_text (stem : Option String) (r : List Char) (us : List Word) :
    (Suggestion.render ⟨stem, .text (String.ofList r) :: phrase us⟩).toList =
      r ++ Word.spaced us := by
  rw [← toList_render_phrase none us]
  simp [Suggestion.render, Segment.render, String.join_cons]

theorem toList_accepted_nil (s : Suggestion) : (accepted [] s).toList = s.render.toList := by
  simp [accepted]

theorem toList_accepted_singleton (t : Word) (s : Suggestion) :
    (accepted [t] s).toList = t.letters ++ s.render.toList := by
  simp [accepted, Word.letters]

theorem toList_accepted_cons (t t' : Word) (tokens : List Word) (s : Suggestion) :
    (accepted (t :: t' :: tokens) s).toList = t.letters ++ ' ' :: (accepted (t' :: tokens) s).toList := by
  simp [accepted, Word.letters, String.intercalate_cons_cons]

namespace Dictionary

variable {d : Dictionary} {id : ScopeId} {tokens ws : List Word} {items out : List Item}
  {segments : List Segment} {s s' : Suggestion} {k lookahead : Nat}

theorem exists_phrase_of_fills (h : Fills d.LooplessSentence (items.map Item.segment) segments k) :
    ∃ us, segments = phrase us ∧ d.SpellsLoopless [] items us := by
  induction items generalizing segments k with
  | nil =>
    cases h
    exact ⟨[], rfl, .nil⟩
  | cons x items ih =>
    cases x with
    | word w =>
      obtain ⟨tail, rfl, htail⟩ := (Fills.cons_iff rfl).1 h
      obtain ⟨us, rfl, hus⟩ := ih htail
      exact ⟨w :: us, rfl, .word hus⟩
    | slot p =>
      obtain ⟨a, named, us, tail, m, ⟨body, stored, hus⟩, rfl, -, htail⟩ := Fills.slot_iff.1 h
      obtain ⟨vs, rfl, hvs⟩ := ih htail
      exact ⟨us ++ vs, (phrase_append us vs).symm, .fill named (by simp) stored hus (by rwa [ite_self])⟩

theorem spellsLoopless_accepted (h : Continues tokens out s)
    (hfills : Fills d.LooplessSentence s.segments s'.segments k) :
    d.SpellsLoopless [] out (Word.ofText (accepted tokens s')) := by
  obtain ⟨stem', segments'⟩ := s'
  induction h with
  | start rest =>
    obtain ⟨us, rfl, hus⟩ := exists_phrase_of_fills hfills
    rw [Word.ofText, toList_accepted_nil, toList_render_phrase, Word.cut_spaced]
    exact hus
  | whole t rest =>
    obtain ⟨us, rfl, hus⟩ := exists_phrase_of_fills hfills
    rw [Word.ofText, toList_accepted_singleton, toList_render_phrase, Word.cut_append_spaced]
    exact .word hus
  | @part t w r rest more begun =>
    obtain ⟨tail, rfl, htail⟩ := (Fills.cons_iff rfl).1 hfills
    obtain ⟨us, rfl, hus⟩ := exists_phrase_of_fills htail
    rw [Word.ofText, toList_accepted_singleton, toList_render_text, ← List.append_assoc, ← begun,
      Word.cut_append_spaced]
    exact .word hus
  | word _ ih =>
    rw [Word.ofText, toList_accepted_cons, Word.cut_append _ (by simp [Text.isBlank]),
      Word.cut_blank (by decide)]
    exact .word (ih hfills)

theorem exists_fills (hd : d.Sound) (hs : if lookahead = 0 then s' = s else s' ∈ d.resolve s lookahead)
    (hresolved : s'.isResolved = true) :
    ∃ k, Fills d.LooplessSentence s.segments s'.segments k := by
  have hplain : ∀ x ∈ s'.segments, x.isSlot = false := by
    simpa [Suggestion.isResolved] using hresolved
  split_ifs at hs
  · rw [← hs]
    exact ⟨0, .of_plain hplain⟩
  · obtain ⟨k, -, hk⟩ := (mem_resolveSegments_resolved_iff hd).1 ⟨(mem_resolve_iff.1 hs).2, hplain⟩
    exact ⟨k, hk⟩

theorem sentence_accepted (hd : d.Sound) (hs : s ∈ d.suggest id tokens lookahead)
    (hresolved : s.isResolved = true) :
    d.Sentence id (Word.ofText (accepted tokens s)) ∧
      ((tokens = [] → 0 < lookahead → d.UnitLoopsAt id) →
        d.LooplessSentence id (Word.ofText (accepted tokens s))) := by
  obtain ⟨s₀, hs₀, hfrom⟩ := mem_suggest_iff.1 hs
  obtain ⟨items, out, stored, hexpands, hcontinues⟩ := (mem_continuations_iff hd).1 hs₀
  obtain ⟨k, hfills⟩ := exists_fills hd hfrom hresolved
  have hout := spellsLoopless_accepted hcontinues hfills
  by_cases hnil : tokens = []
  · subst hnil
    obtain rfl := hexpands.eq_of_zero
    refine ⟨⟨out, stored, hout.spells⟩, fun hloops => ?_⟩
    by_cases hzero : lookahead = 0
    · -- Nothing was filled, so the pattern is all words and enters no scope.
      rw [if_pos hzero] at hfrom
      subst hfrom
      cases hcontinues
      obtain ⟨x, rest, rfl⟩ := List.exists_cons_of_ne_nil (hd.ne_nil stored)
      cases x with
      | word w =>
        obtain ⟨ws, heq, hrest⟩ := SpellsLoopless.word_iff.1 hout
        exact ⟨_, stored, heq ▸ .word hrest⟩
      | slot p => simp [Suggestion.isResolved, Item.segment, Segment.isSlot] at hresolved
    · exact (hloops rfl (Nat.pos_of_ne_zero hzero)).looplessSentence hd stored hout
  · have hpos := List.length_pos_of_ne_nil hnil
    have hsentence : d.LooplessSentence id (Word.ofText (accepted tokens s)) :=
      ⟨items, stored, hexpands.graft hd hcontinues.take_words (by omega) hout⟩
    exact ⟨hsentence.sentence, fun _ => hsentence⟩

theorem mem_continuations_nil_iff (hd : d.Sound) :
    ⟨none, []⟩ ∈ d.continuations id ws ↔ d.LooplessSentence id ws := by
  rw [mem_continuations_iff hd]
  constructor
  · intro h
    obtain ⟨items, out, stored, hexpands, hcontinues⟩ := h
    exact ⟨items, stored, hexpands.spells hd (hcontinues.eq_words rfl)⟩
  · intro h
    have hne := h.sentence.ne_nil hd
    obtain ⟨items, stored, hspells⟩ := h
    exact ⟨items, _, stored, hspells.expands hd le_rfl, .sentence hne⟩

/-- Nothing is asked of the scope where a word was typed, or where no place was filled. -/
theorem suggest_accepted (calls : List Call) {id : ScopeId} {tokens : List Word} {lookahead : Nat}
    {s : Suggestion} (hs : s ∈ (ofCalls calls).suggest id tokens lookahead)
    (hresolved : s.isResolved = true) :
    (ofCalls calls).Sentence id (Word.ofText (accepted tokens s)) ∧
    (⟨none, []⟩ ∈ (ofCalls calls).suggest id (Word.ofText (accepted tokens s)) 0 ↔
      (ofCalls calls).LooplessSentence id (Word.ofText (accepted tokens s))) ∧
    ((tokens = [] → 0 < lookahead → (ofCalls calls).UnitLoopsAt id) →
      ⟨none, []⟩ ∈ (ofCalls calls).suggest id (Word.ofText (accepted tokens s)) 0) := by
  have hd := sound_ofCalls calls
  obtain ⟨hsentence, hloopless⟩ := sentence_accepted hd hs hresolved
  exact ⟨hsentence, mem_continuations_nil_iff hd,
    fun hloops => (mem_continuations_nil_iff hd).2 (hloopless hloops)⟩

def begun : Word := ⟨"sa", by decide, Word.any_isBlank_eq_false.1 (by decide)⟩

def stutters : List Call :=
  [.define "stutter" [.written "<first:stutter> again", .written "once"],
    .define "speech" [.written "say <what:stutter> only"]]

theorem suggest_accepted_stutters :
    (⟨some "sa", [.text "y", .word "once", .word "only"]⟩ ∈ (ofCalls stutters).suggest 1 [begun] 1 ∧
      ⟨none, []⟩ ∈ (ofCalls stutters).suggest 1 (Word.ofText "say once only") 0) ∧
    (⟨none, [.word "go", .word "home"]⟩ ∈ (ofCalls errands).suggest 1 [] 2 ∧
      (ofCalls errands).UnitLoopsAt 1 ∧
      ⟨none, []⟩ ∈ (ofCalls errands).suggest 1 (Word.ofText " go home") 0) := by
  have hstutters : (ofCalls stutters).suggest 1 [begun] 1 =
      [⟨some "sa", [.text "y", .word "once", .word "only"]⟩,
        ⟨some "sa", [.text "y", .slot ⟨"what", [0]⟩, .word "only"]⟩] := by cbv
  have herrands : (ofCalls errands).suggest 1 [] 2 =
      [⟨none, [.word "go", .word "home"]⟩, ⟨none, [.slot ⟨"it", [0]⟩]⟩] := by cbv
  have hsay : ⟨some "sa", [.text "y", .word "once", .word "only"]⟩ ∈
      (ofCalls stutters).suggest 1 [begun] 1 := by
    rw [hstutters]
    exact List.mem_cons_self
  have hgo : ⟨none, [.word "go", .word "home"]⟩ ∈ (ofCalls errands).suggest 1 [] 2 := by
    rw [herrands]
    exact List.mem_cons_self
  have hloops := onlyUnitLoops_errands.at 1
  have hfound := (suggest_accepted stutters hsay rfl).2.2 (by simp)
  have hfound' := (suggest_accepted errands hgo rfl).2.2 fun _ _ => hloops
  rw [show accepted [begun] ⟨some "sa", [.text "y", .word "once", .word "only"]⟩ = "say once only" by
    decide +kernel] at hfound
  rw [show accepted [] ⟨none, [.word "go", .word "home"]⟩ = " go home" by
    decide +kernel] at hfound'
  exact ⟨⟨hsay, hfound⟩, hgo, hloops, hfound'⟩

/-- A scope that begins with itself suggests, where nothing was typed, what it does not find. -/
theorem not_suggest_accepted_stutters :
    ⟨none, [.word "once", .word "again"]⟩ ∈ (ofCalls stutters).suggest 0 [] 2 ∧
    Suggestion.isResolved ⟨none, [.word "once", .word "again"]⟩ = true ∧
    ⟨none, []⟩ ∉ (ofCalls stutters).suggest 0
      (Word.ofText (accepted [] ⟨none, [.word "once", .word "again"]⟩)) 0 := by
  have hsuggested : (ofCalls stutters).suggest 0 [] 2 =
      [⟨none, [.word "once"]⟩, ⟨none, [.word "once", .word "again"]⟩,
        ⟨none, [.slot ⟨"first", [0]⟩, .word "again"]⟩] := by cbv
  have htyped : Word.ofText (accepted [] ⟨none, [.word "once", .word "again"]⟩) =
      [⟨"once", by decide, Word.any_isBlank_eq_false.1 (by decide)⟩,
        ⟨"again", by decide, Word.any_isBlank_eq_false.1 (by decide)⟩] := by decide +kernel
  have hfound : (ofCalls stutters).suggest 0
      (Word.ofText (accepted [] ⟨none, [.word "once", .word "again"]⟩)) 0 = [] := by
    rw [htyped]
    cbv
  rw [hsuggested, hfound]
  exact ⟨by simp, rfl, by simp⟩

end Dictionary
end Phrasebook
