import Phrasebook.Proofs.Grammar.Building
import Phrasebook.Proofs.Grammar.Documents

/-!
What the readers of documents let through. Each way of writing a pattern down is checked on its own:
a written text where it is read, a list of elements where its words and lookups are put together. What
is refused is exactly what holds a text that is no word, or a lookup that could not be filled.
-/

namespace Phrasebook
open Text (Bytes isBlank)

def IsWord (text : String) : Prop := text.toList ≠ [] ∧ ∀ c ∈ text.toList, isBlank c = false

theorem Word.exists_ofString_iff {text : String} :
    (∃ w, Word.ofString text = .ok w) ↔ IsWord text := by
  constructor
  · intro h
    obtain ⟨w, hw⟩ := h
    rw [← Word.text_of_ofString hw]
    exact ⟨w.ne_empty, w.no_blank⟩
  · intro h
    exact ⟨_, Word.ofString_text ⟨text, h.1, h.2⟩⟩

theorem exists_forall₂_iff {α β : Type} {R : α → β → Prop} {l : List α} :
    (∃ l', List.Forall₂ R l l') ↔ ∀ a ∈ l, ∃ b, R a b := by
  induction l with
  | nil => simp
  | cons a l ih => simp [List.forall₂_cons_left_iff, ← ih]

theorem Lookup.filled_ofList_iff {bindings : List (String × List String)} :
    (⟨.ofList bindings⟩ : Lookup).Filled ↔
      bindings ≠ [] ∧ ∀ b, NameMap.LastOf bindings b → b.2 ≠ [] := by
  simp only [Filled, NameMap.mem_ofList_iff_lastOf, ne_eq, NameMap.entries_ofList_eq_nil_iff]

namespace Grammar

namespace StoredElement

def Valid : StoredElement → Prop
  | .word text => IsWord text
  | .lookup aliases => aliases ≠ [] ∧ ∀ b ∈ aliases, b.2 ≠ []

theorem exists_element_iff {e : StoredElement} :
    (∃ x, e.element = .ok x ∧ x.Filled) ↔ e.Valid := by
  cases e with
  | word text => simp [element, map_eq_ok_iff, Valid, ← Word.exists_ofString_iff, Element.Filled]
  | lookup aliases =>
    constructor
    · intro h
      obtain ⟨x, hx, hfilled⟩ := h
      obtain ⟨l, hl, rfl⟩ := map_eq_ok_iff.1 hx
      obtain ⟨hcontexts, rfl⟩ := Lookup.ofList_eq_ok_iff.1 hl
      exact ⟨(Lookup.filled_ofList_iff.1 hfilled).1, hcontexts⟩
    · intro h
      refine ⟨_, map_eq_ok_iff.2 ⟨_, Lookup.ofList_eq_ok_iff.2 ⟨h.2, rfl⟩, rfl⟩, ?_⟩
      exact Lookup.filled_ofList_iff.2 ⟨h.1, fun b hb => h.2 b hb.mem⟩

theorem valid_ofElement {x : Element} (h : x.Filled) : (ofElement x).Valid := by
  cases x with
  | word w => exact ⟨w.ne_empty, w.no_blank⟩
  | lookup l => exact h

end StoredElement

theorem exists_elementsOfStored_iff {stored : List StoredElement} :
    (∃ p : Pattern, elementsOfStored stored = .ok p.elements ∧ p.Filled) ↔
      ∀ e ∈ stored, e.Valid := by
  induction stored with
  | nil => exact iff_of_true ⟨.empty, rfl, by simp [Pattern.Filled, Pattern.empty]⟩ (by simp)
  | cons e stored ih =>
    rw [List.forall_mem_cons, ← StoredElement.exists_element_iff, ← ih]
    constructor
    · intro h
      obtain ⟨⟨elements⟩, helements, hfilled⟩ := h
      obtain ⟨x, hx, h⟩ := bind_eq_ok_iff.1 helements
      obtain ⟨xs, hxs, h⟩ := bind_eq_ok_iff.1 h
      cases h
      obtain ⟨hhead, htail⟩ := List.forall_mem_cons.1 hfilled
      exact ⟨⟨x, hx, hhead⟩, ⟨xs⟩, hxs, htail⟩
    · intro h
      obtain ⟨⟨x, hx, hhead⟩, p, hp, htail⟩ := h
      refine ⟨⟨x :: p.elements⟩, ?_, List.forall_mem_cons.2 ⟨hhead, htail⟩⟩
      exact bind_eq_ok_iff.2 ⟨x, hx, bind_eq_ok_iff.2 ⟨_, hp, rfl⟩⟩

theorem exists_patternsOfStored_iff {stored : List (List StoredElement)} :
    (∃ patterns, patternsOfStored stored = .ok patterns) ↔ ∀ p ∈ stored, ∀ e ∈ p, e.Valid := by
  simp only [patternsOfStored_eq_ok_iff, exists_forall₂_iff, exists_elementsOfStored_iff]

theorem exists_scopesOfStored_iff {stored : List (String × List (List StoredElement))} :
    (∃ scopes, scopesOfStored stored = .ok scopes) ↔
      ∀ scope ∈ stored, ∀ p ∈ scope.2, ∀ e ∈ p, e.Valid := by
  simp only [scopesOfStored_eq_ok_iff, exists_forall₂_iff, ← exists_patternsOfStored_iff]
  simp

/-- Of scopes with the same name only the last one counts. -/
theorem exists_ofBinary_iff {s : Bytes} : (∃ g, ofBinary s = .ok g) ↔
    ∃ stored rest, readScopes s = .ok (stored, rest) ∧
      ∀ scope, NameMap.LastOf stored scope → ∀ p ∈ scope.2, ∀ e ∈ p, e.Valid := by
  simp only [← NameMap.mem_ofList_iff_lastOf, ← exists_scopesOfStored_iff]
  constructor
  · intro h
    obtain ⟨g, hg⟩ := h
    obtain ⟨stored, rest, scopes, hread, hscopes, -⟩ := exists_of_ofBinary hg
    exact ⟨stored, rest, hread, scopes, hscopes⟩
  · intro h
    obtain ⟨stored, rest, hread, scopes, hscopes⟩ := h
    refine ⟨⟨.ofList scopes⟩, ?_⟩
    simp only [ofBinary, hread, hscopes]

end Grammar

namespace Json
variable {v : Json} {members : List (String × Json)}

def IsContexts : Json → Prop
  | .string _ => True
  | .array items => ∀ v ∈ items, ∃ name, v = .string name
  | _ => False

def IsElement : Json → Prop
  | .string text => IsWord text
  | .object members => members ≠ [] ∧ (∀ m ∈ members, m.2.IsContexts) ∧
      ∀ m, NameMap.LastOf members m → m.2 ≠ .array []
  | _ => False

def IsPattern : Json → Prop
  | .string text => ∃ p, Pattern.ofText text = .ok p
  | .array items => ∀ v ∈ items, v.IsElement
  | _ => False

theorem exists_contextsOfJson?_iff :
    (∃ contexts, Lookup.contextsOfJson? v = some contexts) ↔ v.IsContexts := by
  cases v with
  | string name => simp [Lookup.contextsOfJson?, IsContexts]
  | array items =>
    rw [Lookup.contextsOfJson?, exists_mapM_iff, IsContexts]
    refine forall₂_congr fun v _ => ?_
    cases v <;> simp [string?]
  | _ => simp [Lookup.contextsOfJson?, IsContexts]

theorem contextsOfJson?_eq_nil_iff : Lookup.contextsOfJson? v = some [] ↔ v = .array [] := by
  cases v with
  | array items => simp [Lookup.contextsOfJson?, mapM_eq_some_iff]
  | _ => simp [Lookup.contextsOfJson?]

def binding (m : String × Json) : String × List String :=
  (m.1, (Lookup.contextsOfJson? m.2).getD [])

theorem map_contextsOfJson?_eq_iff {bindings : List (String × List String)} :
    members.map (fun m => (Lookup.contextsOfJson? m.2).map (m.1, ·)) = bindings.map some ↔
      (∀ m ∈ members, m.2.IsContexts) ∧ bindings = members.map binding := by
  induction members generalizing bindings with
  | nil => cases bindings <;> simp
  | cons m members ih =>
    cases bindings with
    | nil => simp
    | cons b bindings =>
      rw [List.map_cons, List.map_cons, List.cons.injEq, ih, List.forall_mem_cons, List.map_cons,
        List.cons.injEq, ← exists_contextsOfJson?_iff]
      cases hread : Lookup.contextsOfJson? m.2 with
      | none => simp
      | some contexts => simp [binding, hread, @eq_comm _ b, and_left_comm]

theorem exists_ofMembers?_iff :
    (∃ l, Lookup.ofMembers? members = some l) ↔ (Json.object members).IsElement := by
  -- Whether contexts are named is asked of what is left when equal names have been merged.
  have hlast : (∀ m ∈ members, m.2.IsContexts) →
      ((∀ b, NameMap.LastOf (members.map binding) b → b.2 ≠ []) ↔
        ∀ m, NameMap.LastOf members m → m.2 ≠ .array []) := by
    intro hread
    simp only [NameMap.lastOf_map_iff (f := binding) fun _ => rfl, forall_exists_index, and_imp,
      forall_apply_eq_imp_iff₂]
    refine forall₂_congr fun m hm => not_congr ?_
    obtain ⟨contexts, hcontexts⟩ := exists_contextsOfJson?_iff.2 (hread m hm.mem)
    rw [← contextsOfJson?_eq_nil_iff, binding, hcontexts]
    simp
  simp only [Lookup.ofMembers?_eq_some_iff, map_contextsOfJson?_eq_iff]
  constructor
  · intro h
    obtain ⟨⟨aliases⟩, hfilled, bindings, rfl, hread, rfl⟩ := h
    obtain ⟨hne, hcontexts⟩ := Lookup.filled_ofList_iff.1 hfilled
    exact ⟨by simpa using hne, hread, (hlast hread).1 hcontexts⟩
  · intro h
    obtain ⟨hne, hread, hcontexts⟩ := h
    refine ⟨_, Lookup.filled_ofList_iff.2 ⟨?_, (hlast hread).2 hcontexts⟩, _, rfl, hread, rfl⟩
    simpa using hne

theorem exists_elementOfJson?_iff : (∃ e, Element.ofJson? v = some e) ↔ v.IsElement := by
  cases v with
  | string text =>
    rw [IsElement, ← Word.exists_ofString_iff, Element.ofJson?]
    cases Word.ofString text <;> simp
  | object members =>
    rw [← exists_ofMembers?_iff]
    simp [Element.ofJson?, Functor.map]
  | _ => simp [Element.ofJson?, IsElement]

theorem exists_patternOfJson_iff : (∃ p, Pattern.ofJson v = .ok p) ↔ v.IsPattern := by
  cases v with
  | string text =>
    rw [IsPattern, Pattern.ofJson]
    cases Pattern.ofText text <;> simp
  | array items =>
    simp only [IsPattern, ← exists_elementOfJson?_iff, ← exists_mapM_iff, Pattern.ofJson]
    cases items.mapM Element.ofJson? <;> simp
  | _ => simp [Pattern.ofJson, IsPattern]

end Json

namespace Grammar

def Valid (g : Grammar) : Prop :=
  ∀ s ∈ g.scopes.entries, ∀ p ∈ s.2, ∀ e ∈ p.elements, (StoredElement.ofElement e).Valid

/-- Nothing else is let through, and what is let through builds unless it mentions a scope that it
does not have. -/
theorem decode_checked :
    (∀ (format : Format) (s : Bytes) (g : Grammar), decode format s = .ok g →
      g.Valid ∧ ((∃ d, g.build = .ok d) ↔ ∀ m ∈ g.mentions, m.2 ∈ g.scopes.names) ∧
        StopsAtUnknown g.scopes.names g.mentions g.build) ∧
    (∀ s : Bytes, (∃ g, ofBinary s = .ok g) ↔ ∃ stored rest, readScopes s = .ok (stored, rest) ∧
      ∀ scope, NameMap.LastOf stored scope → ∀ p ∈ scope.2, ∀ e ∈ p, e.Valid) ∧
    ∀ v : Json, (∃ p, Pattern.ofJson v = .ok p) ↔ v.IsPattern := by
  refine ⟨fun format s g h => ?_, fun s => exists_ofBinary_iff,
    fun v => Json.exists_patternOfJson_iff⟩
  have hfilled := filled_of_decode h
  have hbuild := stopsAtUnknown_build hfilled
  refine ⟨fun s hs p hp e he => ?_, hbuild.exists_eq_ok_iff, hbuild⟩
  exact StoredElement.valid_ofElement (hfilled s hs p hp e he)

def calendar : Grammar := ⟨.ofList [("day", [⟨[.lookup (.single "then" ["night"])]⟩]),
  ("night", [⟨[.lookup (.single "then" ["day", "night"])]⟩])]⟩

def twilight : Grammar :=
  ⟨.ofList [("day", [⟨[.lookup ⟨.ofList [("to", ["day", "dusk"]), ("from", ["dawn"])]⟩]⟩])]⟩

theorem decode_checked_calendar :
    decode .json (calendar.encode .json) = .ok calendar ∧
    calendar.Valid ∧ (∃ d, calendar.build = .ok d) ∧
    decode .binary (twilight.encode .binary) = .ok twilight ∧
    twilight.build = .error (.unknownContext "from" "dawn") := by
  have hfilled : ∀ g ∈ [calendar, twilight], g.Filled := by
    have hchecked : ∀ g ∈ [calendar, twilight], ∀ s ∈ g.scopes.entries, ∀ p ∈ s.2,
        Pattern.checkAll p.elements = .ok () := by decide
    exact fun g hg s hs p hp => (Pattern.checkAll_eq_ok_iff _).1 (hchecked g hg s hs p hp)
  have hcalendar : decode .json (calendar.encode .json) = .ok calendar :=
    decode_encode (hfilled calendar (by simp)) trivial
  have htwilight : decode .binary (twilight.encode .binary) = .ok twilight :=
    decode_encode (hfilled twilight (by simp)) (show twilight.Short by decide)
  obtain ⟨hvalid, hbuilds, -⟩ := decode_checked.1 _ _ _ hcalendar
  obtain ⟨-, -, hstops⟩ := decode_checked.1 _ _ _ htwilight
  exact ⟨hcalendar, hvalid, hbuilds.2 (by decide), htwilight,
    (hstops _).2 ⟨("from", "dawn"), by decide, rfl⟩⟩

end Grammar
end Phrasebook
