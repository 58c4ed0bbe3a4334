import Phrasebook.Grammar.Binary
import Phrasebook.Proofs.Binary
import Phrasebook.Proofs.NameMap
import Phrasebook.Proofs.Pattern.Reading

/-!
Grammars in the binary layout. What is stored of a grammar is read back, as long as no text and no list
in it is too long for its length to be written; the words and lookups stored are then checked and are
those of the grammar. Whatever bytes a grammar is read from, it is no longer than that, and all its
lookups can be filled.
-/

namespace Phrasebook
open Binary (Reads Short ShortText Steady Yields)
open Text (Bytes)

namespace Grammar

theorem short_ofList {β : Type} {P : String × β → Prop} {l : List (String × β)} (h : Short P l) :
    Short P (NameMap.ofList l).entries :=
  ⟨Nat.lt_of_le_of_lt (NameMap.length_ofList_le l) h.1,
    fun e he => h.2 e (NameMap.mem_of_mem_ofList he)⟩

namespace StoredElement

def Short : StoredElement → Prop
  | .word text => ShortText text
  | .lookup aliases => Binary.Short (fun b => ShortText b.1 ∧ Binary.Short ShortText b.2) aliases

instance : DecidablePred Short
  | .word text => inferInstanceAs (Decidable (ShortText text))
  | .lookup _ => inferInstanceAs (Decidable (Binary.Short _ _))

variable {e : StoredElement} {x : Element}

theorem reads_put (h : e.Short) : Reads read e.put e := by
  intro rest
  cases e with
  | word text =>
    rw [put, List.append_assoc]
    exact bind_eq_ok_iff.2 ⟨_, Reads.tag (by decide) _, bind_eq_ok_iff.2 ⟨_, Reads.text h rest, rfl⟩⟩
  | lookup aliases =>
    have hitem : ∀ b : String × List String, ShortText b.1 ∧ Binary.Short ShortText b.2 →
        Reads (Binary.both Binary.text (Binary.list Binary.text)) (putAlias b) (id b) :=
      fun b hb => (Reads.text hb.1).both (Reads.texts hb.2)
    have haliases := Reads.list h hitem
    rw [List.map_id] at haliases
    rw [put, List.append_assoc]
    exact bind_eq_ok_iff.2 ⟨_, Reads.tag (by decide) _, bind_eq_ok_iff.2 ⟨_, haliases rest, rfl⟩⟩

theorem yields_read : Yields read Short := by
  intro s e rest h
  obtain ⟨⟨tag, _⟩, -, h⟩ := bind_eq_ok_iff.1 h
  simp only at h
  split at h
  · obtain ⟨⟨text, _⟩, htext, h⟩ := bind_eq_ok_iff.1 h
    cases h
    exact Yields.text _ _ _ htext
  · obtain ⟨⟨aliases, _⟩, haliases, h⟩ := bind_eq_ok_iff.1 h
    cases h
    exact (Yields.text.both Yields.text.list).list _ _ _ haliases
  · cases h

theorem steady_read : Steady read := by
  intro s e rest more h
  obtain ⟨⟨tag, _⟩, htag, h⟩ := bind_eq_ok_iff.1 h
  refine bind_eq_ok_iff.2 ⟨_, Steady.tag _ _ _ more htag, ?_⟩
  simp only at h ⊢
  split at h
  · obtain ⟨⟨text, _⟩, htext, h⟩ := bind_eq_ok_iff.1 h
    cases h
    exact bind_eq_ok_iff.2 ⟨_, Steady.text _ _ _ more htext, rfl⟩
  · obtain ⟨⟨aliases, _⟩, haliases, h⟩ := bind_eq_ok_iff.1 h
    cases h
    exact bind_eq_ok_iff.2 ⟨_, (Steady.text.both Steady.text.list).list _ _ _ more haliases, rfl⟩
  · cases h

theorem element_ofElement (h : x.Filled) : (ofElement x).element = .ok x := by
  cases x with
  | word w => exact map_eq_ok_iff.2 ⟨w, w.ofString_text, rfl⟩
  | lookup l =>
    refine map_eq_ok_iff.2 ⟨l, Lookup.ofList_eq_ok_iff.2 ⟨h.2, ?_⟩, rfl⟩
    exact congrArg Lookup.mk l.aliases.ofList_entries.symm

theorem short_ofElement (h : e.element = .ok x) (he : e.Short) : (ofElement x).Short := by
  cases e with
  | word text =>
    obtain ⟨w, hw, rfl⟩ := map_eq_ok_iff.1 h
    rw [ofElement, Short, Word.text_of_ofString hw]
    exact he
  | lookup aliases =>
    obtain ⟨l, hl, rfl⟩ := map_eq_ok_iff.1 h
    obtain ⟨-, rfl⟩ := Lookup.ofList_eq_ok_iff.1 hl
    exact short_ofList he

end StoredElement

variable {g : Grammar} {elements : List Element} {patterns : List Pattern}
  {scopes : List (String × List Pattern)}

theorem elementsOfStored_eq_ok_iff {stored : List StoredElement} :
    elementsOfStored stored = .ok elements ↔
      List.Forall₂ (fun x e => x.element = .ok e) stored elements := by
  induction stored generalizing elements with
  | nil => cases elements <;> simp [elementsOfStored]
  | cons x stored ih =>
    constructor
    · intro h
      obtain ⟨e, he, h⟩ := bind_eq_ok_iff.1 h
      obtain ⟨es, hes, h⟩ := bind_eq_ok_iff.1 h
      cases h
      exact .cons he (ih.1 hes)
    · intro h
      cases h with
      | cons he hes => exact bind_eq_ok_iff.2 ⟨_, he, bind_eq_ok_iff.2 ⟨_, ih.2 hes, rfl⟩⟩

theorem patternsOfStored_eq_ok_iff {stored : List (List StoredElement)} :
    patternsOfStored stored = .ok patterns ↔ List.Forall₂
      (fun x p => elementsOfStored x = .ok p.elements ∧ p.Filled) stored patterns := by
  induction stored generalizing patterns with
  | nil => cases patterns <;> simp [patternsOfStored]
  | cons x stored ih =>
    constructor
    · intro h
      obtain ⟨es, hes, h⟩ := bind_eq_ok_iff.1 h
      obtain ⟨p, hp, h⟩ := bind_eq_ok_iff.1 h
      obtain ⟨ps, hps, h⟩ := bind_eq_ok_iff.1 h
      cases h
      obtain ⟨hfilled, rfl⟩ := (Pattern.checked_eq_ok_iff _ _).1 hp
      exact .cons ⟨hes, hfilled⟩ (ih.1 hps)
    · intro h
      cases h with
      | cons hp hps =>
        exact bind_eq_ok_iff.2 ⟨_, hp.1, bind_eq_ok_iff.2 ⟨_,
          (Pattern.checked_eq_ok_iff _ _).2 ⟨hp.2, rfl⟩, bind_eq_ok_iff.2 ⟨_, ih.2 hps, rfl⟩⟩⟩

theorem scopesOfStored_eq_ok_iff {stored : List (String × List (List StoredElement))} :
    scopesOfStored stored = .ok scopes ↔ List.Forall₂
      (fun x s => x.1 = s.1 ∧ patternsOfStored x.2 = .ok s.2) stored scopes := by
  induction stored generalizing scopes with
  | nil => cases scopes <;> simp [scopesOfStored]
  | cons x stored ih =>
    constructor
    · intro h
      obtain ⟨ps, hps, h⟩ := bind_eq_ok_iff.1 h
      obtain ⟨rest, hrest, h⟩ := bind_eq_ok_iff.1 h
      cases h
      exact .cons ⟨rfl, hps⟩ (ih.1 hrest)
    · intro h
      cases h with
      | @cons _ s _ _ hs hrest =>
        obtain ⟨name, ps⟩ := s
        obtain ⟨rfl, hps⟩ := hs
        exact bind_eq_ok_iff.2 ⟨ps, hps, bind_eq_ok_iff.2 ⟨_, ih.2 hrest, rfl⟩⟩

def ShortPattern (p : Pattern) : Prop :=
  Binary.Short (fun e => (StoredElement.ofElement e).Short) p.elements

instance : DecidablePred ShortPattern := fun _ => inferInstanceAs (Decidable (Binary.Short _ _))

def Short (g : Grammar) : Prop :=
  Binary.Short (fun s => ShortText s.1 ∧ Binary.Short ShortPattern s.2) g.scopes.entries

instance : DecidablePred Short := fun _ => inferInstanceAs (Decidable (Binary.Short _ _))

def stored (patterns : List Pattern) : List (List StoredElement) :=
  patterns.map fun p => p.elements.map StoredElement.ofElement

theorem reads_binary (h : g.Short) : Reads readScopes g.binary (g.scopes.map stored).entries := by
  refine Reads.list h fun s hs => (Reads.text hs.1).both ?_
  refine Reads.list hs.2 fun p hp => ?_
  exact Reads.list hp fun e he => StoredElement.reads_put he

theorem patternsOfStored_stored (h : ∀ p ∈ patterns, p.Filled) :
    patternsOfStored (stored patterns) = .ok patterns := by
  rw [patternsOfStored_eq_ok_iff, stored, List.forall₂_map_left_iff, List.forall₂_same]
  refine fun p hp => ⟨?_, h p hp⟩
  rw [elementsOfStored_eq_ok_iff, List.forall₂_map_left_iff, List.forall₂_same]
  exact fun e he => StoredElement.element_ofElement (h p hp e he)

theorem ofBinary_binary (hfilled : g.Filled) (hshort : g.Short) : ofBinary g.binary = .ok g := by
  have hread := reads_binary hshort []
  have hscopes : scopesOfStored (g.scopes.map stored).entries = .ok g.scopes.entries := by
    rw [scopesOfStored_eq_ok_iff, NameMap.map, List.forall₂_map_left_iff, List.forall₂_same]
    exact fun s hs => ⟨rfl, patternsOfStored_stored (hfilled s hs)⟩
  rw [List.append_nil] at hread
  simp only [ofBinary, hread, NameMap.ofList_entries, hscopes]

theorem exists_of_ofBinary {s : Bytes} (h : ofBinary s = .ok g) : ∃ stored rest scopes,
    readScopes s = .ok (stored, rest) ∧
      scopesOfStored (NameMap.ofList stored).entries = .ok scopes ∧ g = ⟨.ofList scopes⟩ := by
  unfold ofBinary at h
  split at h
  · cases h
  · split at h <;> cases h
    exact ⟨_, _, _, ‹_›, ‹_›, rfl⟩

theorem filled_of_patternsOfStored {stored : List (List StoredElement)}
    (h : patternsOfStored stored = .ok patterns) : ∀ p ∈ patterns, p.Filled :=
  Binary.forall_mem_right (P := fun _ => True) (patternsOfStored_eq_ok_iff.1 h) (fun _ _ => trivial)
    fun _ _ hp _ => hp.2

theorem filled_of_ofBinary {s : Bytes} (h : ofBinary s = .ok g) : g.Filled := by
  obtain ⟨stored, _, scopes, -, hscopes, rfl⟩ := exists_of_ofBinary h
  have hall : ∀ s ∈ scopes, ∀ p ∈ s.2, p.Filled :=
    Binary.forall_mem_right (P := fun _ => True) (scopesOfStored_eq_ok_iff.1 hscopes)
      (fun _ _ => trivial) fun _ _ hs _ => filled_of_patternsOfStored hs.2
  exact fun s hs => hall s (NameMap.mem_of_mem_ofList hs)

theorem yields_readScopes : Yields readScopes (Binary.Short fun x =>
    ShortText x.1 ∧ Binary.Short (Binary.Short StoredElement.Short) x.2) :=
  (Yields.text.both StoredElement.yields_read.list.list).list

theorem short_of_ofBinary {s : Bytes} (h : ofBinary s = .ok g) : g.Short := by
  obtain ⟨stored, rest, scopes, hread, hscopes, rfl⟩ := exists_of_ofBinary h
  have hstored := short_ofList (yields_readScopes _ _ _ hread)
  refine short_ofList (hstored.forall₂ (scopesOfStored_eq_ok_iff.1 hscopes) ?_)
  intro x s hxs hx
  refine ⟨hxs.1 ▸ hx.1, hx.2.forall₂ (patternsOfStored_eq_ok_iff.1 hxs.2) fun y p hyp hy => ?_⟩
  exact hy.forall₂ (elementsOfStored_eq_ok_iff.1 hyp.1) fun _ _ => StoredElement.short_ofElement

theorem steady_readScopes : Steady readScopes :=
  (Steady.text.both StoredElement.steady_read.list.list).list

theorem ofBinary_append {s : Bytes} (h : ofBinary s = .ok g) (more : Bytes) :
    ofBinary (s ++ more) = .ok g := by
  obtain ⟨stored, rest, scopes, hread, hscopes, rfl⟩ := exists_of_ofBinary h
  simp only [ofBinary, steady_readScopes _ _ _ more hread, hscopes]

theorem eq_nil_of_ofBinary {g' : Grammar} {s more : Bytes} (hshort : g.Short)
    (hdocument : s ++ more = g.binary) (h : ofBinary s = .ok g') : more = [] := by
  obtain ⟨stored, rest, -, hread, -⟩ := exists_of_ofBinary h
  exact steady_readScopes.eq_nil_of_reads (hdocument ▸ reads_binary hshort) hread

end Grammar
end Phrasebook
