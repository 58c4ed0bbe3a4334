import Mathlib.Tactic.SplitIfs
import Phrasebook.Pattern.Text
import Phrasebook.Proofs.NameMap
import Phrasebook.Proofs.Sequencing
import Phrasebook.Proofs.Text.Split

/-!
What a pattern is that has been read. Whether it was written out or put together, each of its lookups
has an alias and each alias a context.
-/

namespace Phrasebook

namespace Lookup

theorem ofList_eq_ok_iff {bindings : List (String × List String)} {l : Lookup} :
    ofList bindings = .ok l ↔ (∀ b ∈ bindings, b.2 ≠ []) ∧ l = ⟨.ofList bindings⟩ := by
  have hfold : ∀ l₀ : Lookup, bindings.foldlM (fun l b => l.declare b.1 b.2) l₀ = .ok l ↔
      (∀ b ∈ bindings, b.2 ≠ []) ∧
        l = ⟨bindings.foldl (fun m b => m.insert b.1 b.2) l₀.aliases⟩ := by
    induction bindings with
    | nil => simp [pure, Except.pure, eq_comm]
    | cons b bindings ih =>
      intro l₀
      rw [List.foldlM_cons, bind_eq_ok_iff, List.forall_mem_cons, List.foldl_cons]
      by_cases hb : b.2 = []
      · simp [declare, hb]
      · have hdeclare : l₀.declare b.1 b.2 = .ok ⟨l₀.aliases.insert b.1 b.2⟩ := if_neg hb
        simp [hdeclare, hb, ih]
  exact hfold empty

theorem filled_of_declare {l l' : Lookup} {name : String} {contexts : List String}
    (hl : ∀ b ∈ l.aliases.entries, b.2 ≠ []) (h : l.declare name contexts = .ok l') :
    l'.Filled := by
  rw [declare] at h
  split_ifs at h with hnone
  cases h
  refine ⟨?_, fun b hb => ?_⟩
  · show NameMap.put name contexts l.aliases.entries ≠ []
    cases l.aliases.entries with
    | nil => simp [NameMap.put]
    | cons e rest =>
      rw [NameMap.put]
      split_ifs <;> simp
  · rcases NameMap.mem_put hb with rfl | hb
    · exact hnone
    · exact hl b hb

end Lookup

namespace Pattern
open Text (pieces pieces_ne_nil)

theorem filled_of_readBinding {token : String} {l l' : Lookup} {binding : List Char}
    (hl : ∀ b ∈ l.aliases.entries, b.2 ≠ []) (h : readBinding token l binding = .ok l') :
    l'.Filled := by
  simp only [readBinding] at h
  split_ifs at h
  exact Lookup.filled_of_declare hl h

theorem filled_of_foldlM_readBinding {token : String} {bindings : List (List Char)} {l l' : Lookup}
    (hl : ∀ b ∈ l.aliases.entries, b.2 ≠ []) (hne : bindings ≠ [])
    (h : bindings.foldlM (readBinding token) l = .ok l') : l'.Filled := by
  obtain ⟨b, rest, rfl⟩ := List.exists_cons_of_ne_nil hne
  rw [List.foldlM_cons] at h
  obtain ⟨l₁, h₁, h⟩ := bind_eq_ok_iff.1 h
  have hkept : ∀ b ∈ rest, ∀ l l' : Lookup, l.Filled → readBinding token l b = .ok l' → l'.Filled :=
    fun _ _ _ _ hl h => filled_of_readBinding hl.2 h
  exact of_foldlM_eq_ok hkept (filled_of_readBinding hl h₁) h

theorem filled_of_readLookup {token : String} {s : List Char} {l : Lookup}
    (h : readLookup token s = .ok l) : l.Filled := by
  simp only [readLookup] at h
  split_ifs at h
  exact filled_of_foldlM_readBinding (by simp [Lookup.empty, NameMap.empty]) (pieces_ne_nil _ _) h

theorem filled_of_readToken {token : Word} {e : Element} (h : readToken token = .ok e) :
    e.Filled := by
  rw [readToken] at h
  split at h
  · obtain ⟨l, hl, rfl⟩ := map_eq_ok_iff.1 h
    exact filled_of_readLookup hl
  · split_ifs at h
    cases h
    trivial

theorem exists_token_of_mem {tokens : List Word} {elements : List Element}
    (h : readTokens tokens = .ok elements) : ∀ e ∈ elements, ∃ t, readToken t = .ok e := by
  induction tokens generalizing elements with
  | nil =>
    cases h
    simp
  | cons t ts ih =>
    obtain ⟨e, he, h⟩ := bind_eq_ok_iff.1 h
    obtain ⟨es, hes, h⟩ := bind_eq_ok_iff.1 h
    cases h
    exact List.forall_mem_cons.2 ⟨⟨t, he⟩, ih hes⟩

theorem exists_token_of_ofText {text : String} {p : Pattern} (h : ofText text = .ok p) :
    ∀ e ∈ p.elements, ∃ t, readToken t = .ok e := by
  obtain ⟨elements, helements, rfl⟩ := map_eq_ok_iff.1 h
  exact exists_token_of_mem helements

theorem filled_of_ofText {text : String} {p : Pattern} (h : ofText text = .ok p) : p.Filled := by
  intro e he
  obtain ⟨t, ht⟩ := exists_token_of_ofText h e he
  exact filled_of_readToken ht

theorem filled_of_read {form : Form} {p : Pattern} (h : form.read = .ok p) : p.Filled := by
  cases form with
  | written text => exact filled_of_ofText h
  | built pattern =>
    obtain ⟨hfilled, rfl⟩ := (checked_eq_ok_iff _ _).1 h
    exact hfilled

end Pattern
end Phrasebook
