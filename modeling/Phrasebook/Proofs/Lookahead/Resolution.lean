import Phrasebook.Proofs.Lookahead.Filling
import Phrasebook.Query

/-!
What lookahead makes of a suggestion. A phrase of a suggestion has a sentence in every open place.
Whatever the budget, the resolved suggestions have the phrases of the suggestion between them: a
place whose search was cut also stays open. Those without an open place are the phrases that
loopless sentences within the budget give.
-/

namespace Phrasebook

/-- Every open place is filled by a sentence of one of its scopes; the number counts the words put
in. -/
inductive Fills (sentence : ScopeId → List Word → Prop) :
    List Segment → List Segment → Nat → Prop
  | nil : Fills sentence [] [] 0
  | keep {x : Segment} {segments out : List Segment} {k : Nat} (plain : x.isSlot = false)
      (rest : Fills sentence segments out k) : Fills sentence (x :: segments) (x :: out) k
  | fill {p : Placeholder} {id : ScopeId} {us : List Word} {segments out : List Segment} {k : Nat}
      (named : id ∈ p.contexts) (filled : sentence id us) (rest : Fills sentence segments out k) :
      Fills sentence (.slot p :: segments) (phrase us ++ out) (us.length + k)

namespace Fills
variable {sentence : ScopeId → List Word → Prop} {segments out : List Segment} {x : Segment}
  {p : Placeholder} {us : List Word} {k : Nat}

theorem cons_iff (plain : x.isSlot = false) : Fills sentence (x :: segments) out k ↔
    ∃ tail, out = x :: tail ∧ Fills sentence segments tail k := by
  constructor
  · intro h
    cases h with
    | keep _ rest => exact ⟨_, rfl, rest⟩
    | fill => cases plain
  · intro h
    obtain ⟨tail, rfl, rest⟩ := h
    exact .keep plain rest

theorem slot_iff : Fills sentence (.slot p :: segments) out k ↔
    ∃ id ∈ p.contexts, ∃ us tail m, sentence id us ∧ out = phrase us ++ tail ∧
      k = us.length + m ∧ Fills sentence segments tail m := by
  constructor
  · intro h
    cases h with
    | keep plain => cases plain
    | fill named filled rest => exact ⟨_, named, _, _, _, filled, rfl, rfl, rest⟩
  · intro h
    obtain ⟨id, named, us, tail, m, filled, rfl, rfl, rest⟩ := h
    exact .fill named filled rest

theorem phrase_iff : Fills sentence (phrase us ++ segments) out k ↔
    ∃ tail, out = phrase us ++ tail ∧ Fills sentence segments tail k := by
  induction us generalizing out with
  | nil => simp
  | cons w us ih =>
    rw [phrase_cons, List.cons_append, cons_iff rfl]
    constructor
    · intro h
      obtain ⟨out, rfl, hout⟩ := h
      obtain ⟨tail, rfl, htail⟩ := ih.1 hout
      exact ⟨tail, rfl, htail⟩
    · intro h
      obtain ⟨tail, rfl, rest⟩ := h
      exact ⟨_, rfl, ih.2 ⟨tail, rfl, rest⟩⟩

theorem of_plain (h : ∀ x ∈ segments, x.isSlot = false) : Fills sentence segments segments 0 := by
  induction segments with
  | nil => exact .nil
  | cons x segments ih =>
    rw [List.forall_mem_cons] at h
    exact .keep h.1 (ih h.2)

end Fills

namespace Dictionary
variable {d : Dictionary} {segments resolved out : List Segment} {x : Segment} {p : Placeholder}
  {budget k : Nat}

theorem resolveSegments_plain (plain : x.isSlot = false) (segments : List Segment) (budget : Nat) :
    d.resolveSegments (x :: segments) budget = (d.resolveSegments segments budget).map (x :: ·) := by
  cases x with
  | slot p => cases plain
  | _ => simp [resolveSegments]

theorem mem_resolveSegments_cons_iff (plain : x.isSlot = false) :
    resolved ∈ d.resolveSegments (x :: segments) budget ↔
      ∃ rest ∈ d.resolveSegments segments budget, resolved = x :: rest := by
  simp [resolveSegments_plain plain, eq_comm]

theorem mem_resolveSegments_slot_iff (hd : d.Sound) :
    resolved ∈ d.resolveSegments (.slot p :: segments) budget ↔
      (∃ id ∈ p.contexts, ∃ us, d.LooplessSentence id us ∧ us.length ≤ budget ∧
        ∃ rest ∈ d.resolveSegments segments (budget - us.length), resolved = phrase us ++ rest) ∨
      (d.fill d.ids p budget).cut = true ∧ resolved = .slot p :: segments := by
  rw [resolveSegments, List.mem_append]
  apply or_congr
  · simp only [List.mem_flatMap, List.mem_map, mem_fill_ids_iff hd]
    constructor
    · intro h
      obtain ⟨w, ⟨id, named, us, hus, hle, rfl⟩, rest, hrest, rfl⟩ := h
      exact ⟨id, named, us, hus, hle, rest, hrest, rfl⟩
    · intro h
      obtain ⟨id, named, us, hus, hle, rest, hrest, rfl⟩ := h
      exact ⟨_, ⟨id, named, us, hus, hle, rfl⟩, rest, hrest, rfl⟩
  · cases (d.fill d.ids p budget).cut <;> simp

inductive Begins (d : Dictionary) : Segment → Segment → Prop
  | stay (x : Segment) : d.Begins x x
  | fill {p : Placeholder} {id : ScopeId} {w : Word} {us : List Word} (named : id ∈ p.contexts)
      (sentence : d.LooplessSentence id (w :: us)) : d.Begins (.slot p) (.word w.text)

theorem begins_of_mem_resolveSegments (hd : d.Sound)
    (h : x :: resolved ∈ d.resolveSegments segments budget) :
    ∃ y rest, segments = y :: rest ∧ d.Begins y x := by
  cases segments with
  | nil => simp [resolveSegments] at h
  | cons y rest =>
    refine ⟨y, rest, rfl, ?_⟩
    cases y with
    | slot p =>
      rcases (mem_resolveSegments_slot_iff hd).1 h with hfilled | ⟨-, heq⟩
      · obtain ⟨id, named, us, hus, -, tail, -, heq⟩ := hfilled
        obtain ⟨w, us, rfl⟩ := List.exists_cons_of_ne_nil (hus.sentence.ne_nil hd)
        rw [(List.cons.inj heq).1]
        exact .fill named hus
      · rw [(List.cons.inj heq).1]
        exact .stay _
    | _ =>
      obtain ⟨tail, -, heq⟩ := (mem_resolveSegments_cons_iff rfl).1 h
      rw [(List.cons.inj heq).1]
      exact .stay _

theorem fills_of_mem_resolveSegments (hd : d.Sound)
    (h : resolved ∈ d.resolveSegments segments budget) (hout : Fills d.Sentence resolved out k) :
    ∃ k, Fills d.Sentence segments out k := by
  induction segments generalizing resolved budget out k with
  | nil =>
    rw [resolveSegments, List.mem_singleton] at h
    exact ⟨k, h ▸ hout⟩
  | cons x segments ih =>
    cases x with
    | slot p =>
      rcases (mem_resolveSegments_slot_iff hd).1 h with hfilled | ⟨-, rfl⟩
      · obtain ⟨id, named, us, hus, -, rest, hrest, rfl⟩ := hfilled
        obtain ⟨tail, rfl, htail⟩ := Fills.phrase_iff.1 hout
        obtain ⟨m, hm⟩ := ih hrest htail
        exact ⟨_, .fill named hus.sentence hm⟩
      · exact ⟨k, hout⟩
    | _ =>
      obtain ⟨rest, hrest, rfl⟩ := (mem_resolveSegments_cons_iff rfl).1 h
      obtain ⟨tail, rfl, htail⟩ := (Fills.cons_iff rfl).1 hout
      obtain ⟨m, hm⟩ := ih hrest htail
      exact ⟨m, .keep rfl hm⟩

theorem exists_mem_resolveSegments (hd : d.Sound) (h : Fills d.Sentence segments out k) :
    ∃ resolved ∈ d.resolveSegments segments budget, ∃ k, Fills d.Sentence resolved out k := by
  induction h generalizing budget with
  | nil => exact ⟨[], by simp [resolveSegments], 0, .nil⟩
  | keep plain _ ih =>
    obtain ⟨rest, hrest, m, hm⟩ := @ih budget
    exact ⟨_, (mem_resolveSegments_cons_iff plain).2 ⟨rest, hrest, rfl⟩, m, .keep plain hm⟩
  | @fill p id us segments out k named filled hrest ih =>
    by_cases hcut : (d.fill d.ids p budget).cut = true
    · exact ⟨_, (mem_resolveSegments_slot_iff hd).2 (.inr ⟨hcut, rfl⟩), _,
        .fill named filled hrest⟩
    · have hways := filled.mem_fill hd named (Bool.eq_false_iff.2 hcut)
      obtain ⟨id', named', us', hus', hle, heq⟩ := (mem_fill_ids_iff hd).1 hways
      obtain ⟨rest, hrest, m, hm⟩ := @ih (budget - us'.length)
      refine ⟨phrase us' ++ rest, (mem_resolveSegments_slot_iff hd).2
        (.inl ⟨id', named', us', hus', hle, rest, hrest, rfl⟩), m, ?_⟩
      rw [(Prod.mk.inj heq).1]
      exact Fills.phrase_iff.2 ⟨_, rfl, hm⟩

theorem mem_resolveSegments_resolved_iff (hd : d.Sound) :
    resolved ∈ d.resolveSegments segments budget ∧ (∀ x ∈ resolved, x.isSlot = false) ↔
      ∃ k ≤ budget, Fills d.LooplessSentence segments resolved k := by
  induction segments generalizing resolved budget with
  | nil =>
    rw [resolveSegments, List.mem_singleton]
    constructor
    · intro h
      obtain ⟨rfl, -⟩ := h
      exact ⟨0, Nat.zero_le _, .nil⟩
    · intro h
      obtain ⟨k, -, hk⟩ := h
      cases hk
      exact ⟨rfl, by simp⟩
  | cons x segments ih =>
    cases x with
    | slot p =>
      rw [mem_resolveSegments_slot_iff hd]
      constructor
      · intro h
        obtain ⟨hfilled | ⟨-, rfl⟩, hplain⟩ := h
        · obtain ⟨id, named, us, hus, hle, rest, hrest, rfl⟩ := hfilled
          obtain ⟨k, hk, hfills⟩ := ih.1 ⟨hrest, fun x hx => hplain x (by simp [hx])⟩
          exact ⟨us.length + k, by omega, .fill named hus hfills⟩
        · exact absurd (hplain (.slot p) List.mem_cons_self) (by simp [Segment.isSlot])
      · intro h
        obtain ⟨k, hk, hfills⟩ := h
        obtain ⟨id, named, us, tail, m, hus, rfl, rfl, htail⟩ := Fills.slot_iff.1 hfills
        obtain ⟨hrest, hplain⟩ := (@ih tail (budget - us.length)).2 ⟨m, by omega, htail⟩
        refine ⟨.inl ⟨id, named, us, hus, by omega, tail, hrest, rfl⟩, ?_⟩
        intro x hx
        rcases List.mem_append.1 hx with hx | hx
        · exact isSlot_of_mem_phrase hx
        · exact hplain x hx
    | _ =>
      rw [mem_resolveSegments_cons_iff rfl]
      constructor
      · intro h
        obtain ⟨⟨rest, hrest, rfl⟩, hplain⟩ := h
        obtain ⟨k, hk, hfills⟩ := ih.1 ⟨hrest, fun x hx => hplain x (by simp [hx])⟩
        exact ⟨k, hk, .keep rfl hfills⟩
      · intro h
        obtain ⟨k, hk, hfills⟩ := h
        obtain ⟨tail, rfl, htail⟩ := (Fills.cons_iff rfl).1 hfills
        obtain ⟨hrest, hplain⟩ := ih.2 ⟨k, hk, htail⟩
        refine ⟨⟨tail, hrest, rfl⟩, ?_⟩
        intro x hx
        rcases List.mem_cons.1 hx with rfl | hx
        · rfl
        · exact hplain x hx

/-- A complete phrase of the suggestion: a sentence in every open place. -/
def IsPhrase (d : Dictionary) (s : Suggestion) (out : List Segment) : Prop :=
  ∃ k, Fills d.Sentence s.segments out k

theorem mem_resolve_iff {s s' : Suggestion} {lookahead : Nat} : s' ∈ d.resolve s lookahead ↔
    s'.stem = s.stem ∧ s'.segments ∈ d.resolveSegments s.segments lookahead := by
  rw [resolve, List.mem_map]
  constructor
  · intro h
    obtain ⟨segments, hsegments, rfl⟩ := h
    exact ⟨rfl, hsegments⟩
  · intro h
    exact ⟨s'.segments, h.2, by rw [← h.1]⟩

/-- Looking ahead neither loses a complete phrase nor makes up one. -/
theorem isPhrase_resolve_iff (calls : List Call) (s : Suggestion) (lookahead : Nat)
    (out : List Segment) :
    (∃ s' ∈ (ofCalls calls).resolve s lookahead, (ofCalls calls).IsPhrase s' out) ↔
      (ofCalls calls).IsPhrase s out := by
  have hd := sound_ofCalls calls
  constructor
  · intro h
    obtain ⟨s', hs', k, hk⟩ := h
    exact fills_of_mem_resolveSegments hd (mem_resolve_iff.1 hs').2 hk
  · intro h
    obtain ⟨k, hk⟩ := h
    obtain ⟨resolved, hresolved, hphrase⟩ := @exists_mem_resolveSegments _ _ _ lookahead _ hd hk
    exact ⟨⟨s.stem, resolved⟩, mem_resolve_iff.2 ⟨rfl, hresolved⟩, hphrase⟩

/-- What comes out without open places are the loopless sentences that the lookahead pays for, each word
paid once. -/
theorem mem_resolve_isResolved_iff (calls : List Call) (s : Suggestion) (lookahead : Nat) :
    (∀ s', s' ∈ (ofCalls calls).resolve s lookahead ∧ s'.isResolved = true ↔
      s'.stem = s.stem ∧
        ∃ k ≤ lookahead, Fills (ofCalls calls).LooplessSentence s.segments s'.segments k) ∧
    (∀ free p budget, ∀ w ∈ ((ofCalls calls).fill free p budget).ways,
      ∃ ws : List Word, w = (phrase ws, ws.length) ∧ ws.length ≤ budget) ∧
    ∀ free (items : List Item) budget,
      ∀ w ∈ ((ofCalls calls).fillAll free (items.map Item.segment) budget).ways,
        ∃ ws : List Word, w = (phrase ws, ws.length) ∧ ws.length ≤ budget := by
  have hd := sound_ofCalls calls
  refine ⟨?_, ?_, ?_⟩
  · intro s'
    have hplain : s'.isResolved = true ↔ ∀ x ∈ s'.segments, x.isSlot = false := by
      simp [Suggestion.isResolved]
    rw [mem_resolve_iff, hplain, and_assoc, mem_resolveSegments_resolved_iff hd]
  · intro free p budget w hw
    obtain ⟨id, -, -, body, ws, -, -, hle, heq⟩ := affords_of_mem_fill hd hw
    exact ⟨ws, heq, hle⟩
  · intro free items budget w hw
    obtain ⟨ws, -, hle, heq⟩ := (mem_fillAll_iff hd).1 hw
    exact ⟨ws, heq, hle⟩

end Dictionary
end Phrasebook
