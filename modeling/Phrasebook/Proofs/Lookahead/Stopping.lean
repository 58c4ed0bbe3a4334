import Mathlib.Data.List.Permutation
import Phrasebook.Proofs.Lookahead.Resolution

/-!
Where resolution stops. A place whose search was cut stays open, and everything after it is kept as
it is, also a place that nothing can fill. Such a place drops exactly the suggestions that it is
reached in.
-/

namespace Phrasebook
namespace Dictionary

variable {d : Dictionary} {segments resolved pre post before rest out : List Segment}
  {p q : Placeholder} {id : ScopeId} {body : List Item} {budget lookahead : Nat} {s : Suggestion}

/-- No scope of the place stores a pattern; a number that belongs to no scope does not either. -/
def Barren (d : Dictionary) (p : Placeholder) : Prop := ∀ id ∈ p.contexts, d.patterns id = []

theorem any_isSlot_phrase (us : List Word) : (phrase us).any Segment.isSlot = false :=
  List.any_eq_false.2 fun _ hx => Bool.eq_false_iff.1 (isSlot_of_mem_phrase hx)

theorem Barren.not_stores (h : d.Barren p) (named : id ∈ p.contexts) : ¬ d.Stores id body := by
  intro stored
  obtain ⟨pattern, hpattern, -⟩ := stored
  rw [h id named] at hpattern
  cases hpattern

theorem Barren.fill_eq (hd : d.Sound) (h : d.Barren p) : d.fill d.ids p budget = {} := by
  refine Fillings.ext (List.eq_nil_iff_forall_not_mem.2 fun w hw => ?_) ?_
  · obtain ⟨id, named, -, body, stored, -⟩ := (mem_fill_iff hd).1 hw
    exact h.not_stores named stored
  · refine (cut_fill_eq_false_iff hd).2 fun id named root hroot => ⟨?_, fun body stored => ?_⟩
    · exact (freeOf_ids d).mem hroot List.not_mem_nil
    · exact absurd stored (h.not_stores named)

theorem Barren.resolveSegments_eq (hd : d.Sound) (h : d.Barren p) (segments : List Segment)
    (budget : Nat) : d.resolveSegments (.slot p :: segments) budget = [] := by
  rw [resolveSegments, h.fill_eq hd]
  rfl

/-- The place after `before` stays open: its search is cut by what the words of `out` leave of the
budget. -/
def StopsAt (d : Dictionary) (budget : Nat) (before : List Segment) (q : Placeholder)
    (out : List Segment) : Prop :=
  ∃ k ≤ budget, Fills d.LooplessSentence before out k ∧ (d.fill d.ids q (budget - k)).cut = true

theorem stopsAt_nil_iff :
    d.StopsAt budget [] q out ↔ out = [] ∧ (d.fill d.ids q budget).cut = true := by
  constructor
  · intro h
    obtain ⟨k, -, hfills, hcut⟩ := h
    cases hfills
    exact ⟨rfl, hcut⟩
  · intro h
    obtain ⟨rfl, hcut⟩ := h
    exact ⟨0, Nat.zero_le _, .nil, hcut⟩

theorem stopsAt_cons_iff {x : Segment} (plain : x.isSlot = false) :
    d.StopsAt budget (x :: before) q out ↔
      ∃ tail, out = x :: tail ∧ d.StopsAt budget before q tail := by
  simp only [StopsAt, Fills.cons_iff plain]
  grind

theorem stopsAt_slot_iff : d.StopsAt budget (.slot p :: before) q out ↔
    ∃ id ∈ p.contexts, ∃ us tail, d.LooplessSentence id us ∧ us.length ≤ budget ∧
      out = phrase us ++ tail ∧ d.StopsAt (budget - us.length) before q tail := by
  constructor
  · intro h
    obtain ⟨k, hk, hfills, hcut⟩ := h
    obtain ⟨id, named, us, tail, m, hus, rfl, rfl, htail⟩ := Fills.slot_iff.1 hfills
    rw [← Nat.sub_sub] at hcut
    exact ⟨id, named, us, tail, hus, by omega, rfl, m, by omega, htail, hcut⟩
  · intro h
    obtain ⟨id, named, us, tail, hus, hle, rfl, m, hm, htail, hcut⟩ := h
    rw [Nat.sub_sub] at hcut
    exact ⟨us.length + m, by omega, .fill named hus htail, hcut⟩

theorem mem_resolveSegments_open_iff (hd : d.Sound) :
    resolved ∈ d.resolveSegments segments budget ∧ resolved.any Segment.isSlot = true ↔
      ∃ before q rest out, segments = before ++ .slot q :: rest ∧ d.StopsAt budget before q out ∧
        resolved = out ++ .slot q :: rest := by
  induction segments generalizing resolved budget with
  | nil => simp_all [resolveSegments]
  | cons x segments ih =>
    cases x with
    | slot p =>
      rw [mem_resolveSegments_slot_iff hd]
      constructor
      · intro h
        obtain ⟨hfilled | ⟨hcut, rfl⟩, hopen⟩ := h
        · obtain ⟨id, named, us, hus, hle, rest, hrest, rfl⟩ := hfilled
          rw [List.any_append, any_isSlot_phrase, Bool.false_or] at hopen
          obtain ⟨before, q, rest, out, rfl, hstops, rfl⟩ := ih.1 ⟨hrest, hopen⟩
          exact ⟨.slot p :: before, q, rest, phrase us ++ out, rfl,
            stopsAt_slot_iff.2 ⟨id, named, us, out, hus, hle, rfl, hstops⟩, by simp⟩
        · exact ⟨[], p, segments, [], rfl, stopsAt_nil_iff.2 ⟨rfl, hcut⟩, rfl⟩
      · intro h
        obtain ⟨before, q, rest, out, heq, hstops, rfl⟩ := h
        refine ⟨?_, by simp [Segment.isSlot]⟩
        cases before with
        | nil =>
          obtain ⟨hq, rfl⟩ := List.cons.inj heq
          obtain ⟨rfl, hcut⟩ := stopsAt_nil_iff.1 hstops
          exact .inr ⟨Segment.slot.inj hq ▸ hcut, by rw [hq]; rfl⟩
        | cons y before =>
          obtain ⟨rfl, rfl⟩ := List.cons.inj heq
          obtain ⟨id, named, us, tail, hus, hle, rfl, htail⟩ := stopsAt_slot_iff.1 hstops
          have hrest := (ih.2 ⟨before, q, rest, tail, rfl, htail, rfl⟩).1
          exact .inl ⟨id, named, us, hus, hle, _, hrest, List.append_assoc ..⟩
    | _ =>
      rw [mem_resolveSegments_cons_iff rfl]
      constructor
      · intro h
        obtain ⟨⟨rest, hrest, rfl⟩, hopen⟩ := h
        obtain ⟨before, q, rest, out, rfl, hstops, rfl⟩ := ih.1 ⟨hrest, hopen⟩
        exact ⟨_ :: before, q, rest, _ :: out, rfl, (stopsAt_cons_iff rfl).2 ⟨out, rfl, hstops⟩,
          rfl⟩
      · intro h
        obtain ⟨before, q, rest, out, heq, hstops, rfl⟩ := h
        cases before with
        | nil => cases heq
        | cons y before =>
          obtain ⟨rfl, rfl⟩ := List.cons.inj heq
          obtain ⟨tail, rfl, htail⟩ := (stopsAt_cons_iff rfl).1 hstops
          obtain ⟨hrest, hopen⟩ := ih.2 ⟨before, q, rest, tail, rfl, htail, rfl⟩
          exact ⟨⟨_, hrest, rfl⟩, hopen⟩

theorem resolveSegments_append_of_nil (hd : d.Sound) (hpost : ∀ k, d.resolveSegments post k = [])
    (pre : List Segment) (budget : Nat) : d.resolveSegments (pre ++ post) budget =
      ((d.resolveSegments pre budget).filter (·.any Segment.isSlot)).map (· ++ post) := by
  induction pre generalizing budget with
  | nil => rw [List.nil_append, hpost, resolveSegments]; rfl
  | cons x pre ih =>
    cases x with
    | slot q =>
      rw [List.cons_append, resolveSegments, resolveSegments, List.filter_append, List.map_append,
        List.filter_flatMap, List.map_flatMap]
      refine congrArg₂ (· ++ ·) (List.flatMap_congr fun w hw => ?_) ?_
      · -- What is put in leaves nothing open, so the result is open where its rest is.
        obtain ⟨id, -, us, -, -, rfl⟩ := (mem_fill_ids_iff hd).1 hw
        simp [ih, List.filter_map, any_isSlot_phrase, Function.comp_def]
      · cases (d.fill d.ids q budget).cut <;> rfl
    | _ =>
      rw [List.cons_append, resolveSegments_plain rfl, resolveSegments_plain rfl, ih]
      simp [List.filter_map, Segment.isSlot, Function.comp_def]

theorem resolveSegments_append_eq_nil_iff (hd : d.Sound)
    (hpost : ∀ k, d.resolveSegments post k = []) : d.resolveSegments (pre ++ post) budget = [] ↔
      ¬ ∃ before q rest out, pre = before ++ .slot q :: rest ∧ d.StopsAt budget before q out := by
  rw [resolveSegments_append_of_nil hd hpost, List.map_eq_nil_iff, List.filter_eq_nil_iff]
  constructor
  · intro h hstops
    obtain ⟨before, q, rest, out, heq, hstops⟩ := hstops
    obtain ⟨hmem, hopen⟩ :=
      (mem_resolveSegments_open_iff hd).2 ⟨before, q, rest, out, heq, hstops, rfl⟩
    exact h _ hmem hopen
  · intro h resolved hmem hopen
    obtain ⟨before, q, rest, out, heq, hstops, -⟩ :=
      (mem_resolveSegments_open_iff hd).1 ⟨hmem, hopen⟩
    exact h ⟨before, q, rest, out, heq, hstops⟩

/-- In front of a place that nothing can fill, exactly what has stopped at an earlier place is kept;
what follows that place is kept with it as it is. -/
theorem resolve_of_barren (calls : List Call) (lookahead : Nat)
    (hs : s.segments = pre ++ .slot p :: post) (hp : (ofCalls calls).Barren p) :
    (ofCalls calls).resolve s lookahead =
      (((ofCalls calls).resolve { s with segments := pre } lookahead).filter (!·.isResolved)).map
        (fun r => { r with segments := r.segments ++ .slot p :: post }) ∧
    ((ofCalls calls).resolve s lookahead = [] ↔
      ¬ ∃ before q rest out, pre = before ++ .slot q :: rest ∧
        (ofCalls calls).StopsAt lookahead before q out) ∧
    ((∀ x ∈ pre, x.isSlot = false) → (ofCalls calls).resolve s lookahead = []) := by
  have hd := sound_ofCalls calls
  have hpost := hp.resolveSegments_eq hd post
  have hempty := @resolveSegments_append_eq_nil_iff _ pre _ lookahead hd hpost
  rw [← hs, ← List.map_eq_nil_iff (f := fun segments => { s with segments }), ← resolve] at hempty
  refine ⟨?_, hempty, fun hplain => hempty.2 fun hstops => ?_⟩
  · rw [resolve, hs, resolveSegments_append_of_nil hd hpost]
    simp [resolve, List.filter_map, Function.comp_def, Suggestion.isResolved,
      List.any_eq_not_all_not]
  · obtain ⟨before, q, rest, out, rfl, -⟩ := hstops
    cases hplain (.slot q) (by simp)

def larder : List Call := [.define "fruit" [.written "ripe fig"], .declare "spice"]

def platter : Suggestion := ⟨none, [.slot ⟨"what", [0]⟩, .slot ⟨"with", [1, 5]⟩, .word "please"]⟩

theorem larder_barren : (ofCalls larder).Barren ⟨"with", [1, 5]⟩ := by
  intro id named
  rcases List.mem_pair.1 named with rfl | rfl <;> cbv

theorem resolve_of_barren_larder :
    platter.segments = [.slot ⟨"what", [0]⟩] ++ .slot ⟨"with", [1, 5]⟩ :: [.word "please"] ∧
    (ofCalls larder).Barren ⟨"with", [1, 5]⟩ ∧
    (ofCalls larder).resolve platter 1 = [platter] ∧
    (ofCalls larder).resolve platter 2 = [] := by
  have hs : platter.segments =
    [.slot ⟨"what", [0]⟩] ++ .slot ⟨"with", [1, 5]⟩ :: [.word "please"] := rfl
  obtain ⟨hone, -⟩ := resolve_of_barren larder 1 hs larder_barren
  obtain ⟨htwo, -⟩ := resolve_of_barren larder 2 hs larder_barren
  exact ⟨hs, larder_barren, hone.trans (by cbv), htwo.trans (by cbv)⟩

/-- The place that nothing can fill is kept where the fruit before it stays open. -/
theorem not_forall_resolve_eq_nil_of_barren :
    ¬ ∀ (calls : List Call) (s : Suggestion) (lookahead : Nat),
      (∃ p, .slot p ∈ s.segments ∧ (ofCalls calls).Barren p) →
        (ofCalls calls).resolve s lookahead = [] := by
  intro h
  have hdropped := h larder platter 1 ⟨_, by decide, larder_barren⟩
  have hkept : (ofCalls larder).resolve platter 1 = [platter] := by cbv
  rw [hkept] at hdropped
  cases hdropped

end Dictionary
end Phrasebook
