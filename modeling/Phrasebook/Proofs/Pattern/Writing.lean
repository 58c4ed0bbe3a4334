import Mathlib.Data.List.Permutation
import Phrasebook.Proofs.Pattern.Reading
import Phrasebook.Proofs.Word

/-!
Which patterns are read back from their written form. A word may not hold a bracket, and in a lookup
no name may hold what parts it from what stands around it: a colon ends an alias but not a context,
a bar parts contexts but not aliases. Whatever has been read is written so.
-/

namespace Phrasebook
open Text (isBlank pieces halves?)
open Pattern (isBracket readBinding readLookup readToken readTokens ofText)

def Clear (marks s : List Char) : Prop := ∀ c ∈ s, isBlank c = false ∧ c ∉ marks

instance (marks s : List Char) : Decidable (Clear marks s) :=
  List.decidableBAll (fun c => isBlank c = false ∧ c ∉ marks) s

def Legible (marks s : List Char) : Prop := s ≠ [] ∧ Clear marks s

instance (marks s : List Char) : Decidable (Legible marks s) := inferInstanceAs (Decidable (_ ∧ _))

structure Lookup.WritableBinding (name : String) (contexts : List String) : Prop where
  name : Legible ['<', '>', ',', ':'] name.toList
  contexts : ∀ c ∈ contexts, Legible ['<', '>', ',', '|'] c.toList

instance (name : String) (contexts : List String) :
    Decidable (Lookup.WritableBinding name contexts) :=
  decidable_of_iff (_ ∧ ∀ c ∈ contexts, _) ⟨fun h => ⟨h.1, h.2⟩, fun h => ⟨h.name, h.contexts⟩⟩

def Lookup.Writable (l : Lookup) : Prop := ∀ b ∈ l.aliases.entries, WritableBinding b.1 b.2

instance (l : Lookup) : Decidable l.Writable :=
  inferInstanceAs (Decidable (∀ b ∈ l.aliases.entries, _))

def Element.Writable : Element → Prop
  | .word w => Legible ['<', '>'] w.letters
  | .lookup l => l.Writable

instance : DecidablePred Element.Writable
  | .word w => inferInstanceAs (Decidable (Legible ['<', '>'] w.letters))
  | .lookup l => inferInstanceAs (Decidable l.Writable)

def Pattern.Writable (p : Pattern) : Prop := ∀ e ∈ p.elements, e.Writable

instance (p : Pattern) : Decidable p.Writable := inferInstanceAs (Decidable (∀ e ∈ p.elements, _))

theorem Pattern.isBracket_iff {c : Char} : isBracket c = true ↔ c ∈ ['<', '>'] := by
  simp [isBracket]

section
variable {marks marks' s t : List Char} {sep : Char} {ps : List (List Char)}

theorem Clear.subset (h : Clear marks t) (hsub : s ⊆ t) : Clear marks s :=
  fun c hc => h c (hsub hc)

theorem Clear.concat (h : Clear marks s) (hsep : sep ∉ s) : Clear (marks ++ [sep]) s := by
  refine fun c hc => ⟨(h c hc).1, fun hmem => ?_⟩
  rcases List.mem_append.1 hmem with hmem | hmem
  · exact (h c hc).2 hmem
  · exact hsep (List.mem_singleton.1 hmem ▸ hc)

theorem Clear.pieces (h : Clear marks s) : ∀ t ∈ pieces sep s, Clear (marks ++ [sep]) t := by
  intro t ht
  have hsub : t ⊆ s := fun c hc => (Text.mem_of_mem_pieces ht hc).1
  exact (h.subset hsub).concat fun hmem => (Text.mem_of_mem_pieces ht hmem).2 rfl

namespace Legible

theorem weaken (h : Legible marks s) (hsub : marks' ⊆ marks) : Legible marks' s :=
  ⟨h.1, fun c hc => ⟨(h.2 c hc).1, fun hmem => (h.2 c hc).2 (hsub hmem)⟩⟩

theorem append (hs : Legible marks s) (ht : Legible marks t) : Legible marks (s ++ t) :=
  ⟨List.append_ne_nil_of_left_ne_nil hs.1 t, List.forall_mem_append.2 ⟨hs.2, ht.2⟩⟩

theorem not_mem (h : Legible marks s) (hsep : sep ∈ marks) : sep ∉ s :=
  fun hmem => (h.2 sep hmem).2 hsep

theorem any_isBracket (h : Legible marks s) (hsub : ['<', '>'] ⊆ marks) :
    s.any isBracket = false := by
  refine List.any_eq_false.2 fun c hc hbracket => ?_
  exact (h.2 c hc).2 (hsub (Pattern.isBracket_iff.1 hbracket))

theorem intercalate (hne : ps ≠ []) (hsep : Legible marks [sep]) (h : ∀ p ∈ ps, Legible marks p) :
    Legible marks ([sep].intercalate ps) := by
  induction ps with
  | nil => exact absurd rfl hne
  | cons p rest ih =>
    obtain ⟨hp, hrest⟩ := List.forall_mem_cons.1 h
    cases rest with
    | nil => rwa [List.intercalate_singleton]
    | cons q rest =>
      rw [List.intercalate_cons_cons]
      exact (hp.append hsep).append (ih (List.cons_ne_nil _ _) hrest)

end Legible
end

section
variable {token name : String} {contexts : List String} {binding rest inner : List Char}
  {l l' : Lookup} {e : Element} {p : Pattern}

namespace Lookup

theorem readBinding_eq (rest : List Char)
    (hsplit : (halves? ':' binding).getD (binding, binding) = (name.toList, rest))
    (hpieces : pieces '|' rest = contexts.map String.toList) (hname : name.toList ≠ [])
    (hcontexts : ∀ c ∈ contexts, c.toList ≠ []) :
    readBinding token l binding = l.declare name contexts := by
  have hempty : [] ∉ contexts.map String.toList := by
    intro hmem
    obtain ⟨c, hc, heq⟩ := List.mem_map.1 hmem
    exact hcontexts c hc heq
  simp only [readBinding, hsplit, hpieces]
  rw [if_neg hname, if_neg hempty, String.ofList_toList, List.map_map]
  simp [Function.comp_def]

theorem readBinding_bindingText (hne : contexts ≠ []) (h : WritableBinding name contexts) :
    readBinding token l (bindingText name contexts).toList = l.declare name contexts := by
  have hcontexts := fun c hc => (h.contexts c hc).1
  rw [bindingText]
  split_ifs with hself
  · -- The alias alone is read as its own context, so here it may not have a bar either.
    refine readBinding_eq name.toList ?_ ?_ h.name.1 hcontexts
    · rw [Text.halves?_of_not_mem (h.name.not_mem (by decide)), Option.getD_none]
    · rw [hself, List.map_singleton]
      exact Text.pieces_of_not_mem ((h.contexts name (by simp [hself])).not_mem (by decide))
  · -- The first colon is the one behind the alias; the contexts may have others.
    refine readBinding_eq (['|'].intercalate (contexts.map String.toList)) ?_ ?_ h.name.1 hcontexts
    · have htext : (name ++ ":" ++ String.intercalate "|" contexts).toList =
          name.toList ++ ':' :: ['|'].intercalate (contexts.map String.toList) := by simp
      rw [htext, Text.halves?_append_cons (h.name.not_mem (by decide)), Option.getD_some]
    · refine Text.pieces_intercalate (by simpa using hne) fun p hp => ?_
      obtain ⟨c, hc, rfl⟩ := List.mem_map.1 hp
      exact (h.contexts c hc).not_mem (by decide)

theorem foldlM_readBinding_bindingText {bindings : List (String × List String)}
    (h : ∀ b ∈ bindings, b.2 ≠ [] ∧ WritableBinding b.1 b.2) :
    (bindings.map fun b => (bindingText b.1 b.2).toList).foldlM (readBinding token) l =
      bindings.foldlM (fun l b => l.declare b.1 b.2) l := by
  induction bindings generalizing l with
  | nil => rfl
  | cons b bindings ih =>
    obtain ⟨⟨hne, hb⟩, hrest⟩ := List.forall_mem_cons.1 h
    rw [List.map_cons, List.foldlM_cons, List.foldlM_cons, readBinding_bindingText hne hb]
    exact congrArg _ (funext fun _ => ih hrest)

theorem legible_bindingText (hne : contexts ≠ []) (h : WritableBinding name contexts) :
    Legible ['<', '>', ','] (bindingText name contexts).toList := by
  have hname : Legible ['<', '>', ','] name.toList := h.name.weaken (by decide)
  rw [bindingText]
  split_ifs
  · exact hname
  · rw [String.toList_append, String.toList_append, String.toList_intercalate]
    refine (hname.append (by decide)).append (.intercalate (by simpa using hne) (by decide) ?_)
    intro p hp
    obtain ⟨c, hc, rfl⟩ := List.mem_map.1 hp
    exact (h.contexts c hc).weaken (by decide)

def inside (l : Lookup) : List Char :=
  [','].intercalate (l.aliases.entries.map fun b => (bindingText b.1 b.2).toList)

theorem toList_text (l : Lookup) : l.text.toList = '<' :: (l.inside ++ ['>']) := by
  simp [text, inside, Function.comp_def]

theorem legible_inside (hl : l.Filled) (hw : l.Writable) : Legible ['<', '>'] l.inside := by
  refine .intercalate (by simpa using hl.1) (by decide) fun p hp => ?_
  obtain ⟨b, hb, rfl⟩ := List.mem_map.1 hp
  exact (legible_bindingText (hl.2 b hb) (hw b hb)).weaken (by decide)

theorem readLookup_inside (hl : l.Filled) (hw : l.Writable) :
    readLookup token (l.inside ++ ['>']) = .ok l := by
  have hinside := legible_inside hl hw
  have hpieces : pieces ',' l.inside =
      l.aliases.entries.map fun b => (bindingText b.1 b.2).toList := by
    refine Text.pieces_intercalate (by simpa using hl.1) fun p hp => ?_
    obtain ⟨b, hb, rfl⟩ := List.mem_map.1 hp
    exact (legible_bindingText (hl.2 b hb) (hw b hb)).not_mem (by decide)
  have hread : readLookup token (l.inside ++ ['>']) =
      (pieces ',' l.inside).foldlM (readBinding token) .empty := by
    simp [readLookup, hinside.1, hinside.any_isBracket]
  rw [hread, hpieces, foldlM_readBinding_bindingText fun b hb => ⟨hl.2 b hb, hw b hb⟩]
  exact ofList_eq_ok_iff.2 ⟨hl.2, congrArg Lookup.mk l.aliases.ofList_entries.symm⟩

end Lookup

theorem readToken_word {t : Word} (h : Legible ['<', '>'] t.letters) :
    readToken t = .ok (.word t) := by
  rw [readToken]
  split
  · rename_i s hs
    exact absurd (hs ▸ List.mem_cons_self) (h.not_mem (show '<' ∈ ['<', '>'] by decide))
  · rw [h.any_isBracket (List.Subset.refl _)]
    rfl

theorem readToken_lookup {t : Word} {s : List Char} (h : t.letters = '<' :: s) :
    readToken t = Element.lookup <$> readLookup t.text s := by
  rw [readToken, h]
  rfl

theorem Element.exists_token (he : e.Filled) (hw : e.Writable) :
    ∃ t : Word, t.text = e.text ∧ readToken t = .ok e := by
  cases e with
  | word w => exact ⟨w, rfl, readToken_word hw⟩
  | lookup l =>
    have hlegible : Legible [] l.text.toList := by
      rw [Lookup.toList_text, ← List.singleton_append]
      have hinside := (Lookup.legible_inside he hw).weaken (List.nil_subset _)
      exact .append (by decide) (hinside.append (by decide))
    obtain ⟨t, ht⟩ : ∃ t : Word, t.text = l.text :=
      ⟨⟨l.text, hlegible.1, fun c hc => (hlegible.2 c hc).1⟩, rfl⟩
    have hletters : t.letters = '<' :: (l.inside ++ ['>']) := by
      rw [Word.letters, ht, Lookup.toList_text]
    refine ⟨t, ht, ?_⟩
    rw [readToken_lookup hletters, Lookup.readLookup_inside he hw]
    rfl

namespace Pattern

theorem exists_tokens {elements : List Element} (h : ∀ e ∈ elements, e.Filled)
    (hw : ∀ e ∈ elements, e.Writable) : ∃ ts : List Word,
      ts.map (·.text) = elements.map Element.text ∧ readTokens ts = .ok elements := by
  induction elements with
  | nil => exact ⟨[], rfl, rfl⟩
  | cons e elements ih =>
    obtain ⟨he, helements⟩ := List.forall_mem_cons.1 h
    obtain ⟨hwe, hwelements⟩ := List.forall_mem_cons.1 hw
    obtain ⟨t, ht, hread⟩ := Element.exists_token he hwe
    obtain ⟨ts, hts, hreads⟩ := ih helements hwelements
    refine ⟨t :: ts, by rw [List.map_cons, List.map_cons, ht, hts], ?_⟩
    exact bind_eq_ok_iff.2 ⟨e, hread, bind_eq_ok_iff.2 ⟨elements, hreads, rfl⟩⟩

theorem ofText_text (hp : p.Filled) (hw : p.Writable) : ofText p.text = .ok p := by
  obtain ⟨ts, hts, hreads⟩ := exists_tokens hp hw
  rw [ofText, text, ← hts, Word.ofText_intercalate, hreads]
  rfl

theorem split_binding {s : List Char}
    (h : (halves? ':' binding).getD (binding, binding) = (s, rest)) :
    ':' ∉ s ∧ s ⊆ binding ∧ rest ⊆ binding := by
  cases hhalves : halves? ':' binding with
  | none =>
    rw [hhalves] at h
    cases h
    exact ⟨Text.not_mem_of_halves?_eq_none hhalves, List.Subset.refl _, List.Subset.refl _⟩
  | some ab =>
    rw [hhalves] at h
    cases h
    obtain ⟨rfl, hcolon⟩ := Text.split_of_halves? hhalves
    exact ⟨hcolon, List.subset_append_left _ _, fun c hc => by simp [hc]⟩

theorem writable_of_readBinding (hl : l.Writable) (hbinding : Clear ['<', '>', ','] binding)
    (h : readBinding token l binding = .ok l') : l'.Writable := by
  obtain ⟨s, rest, hsplit⟩ : ∃ s rest, (halves? ':' binding).getD (binding, binding) = (s, rest) :=
    ⟨_, _, rfl⟩
  obtain ⟨hcolon, hs, hrest⟩ := split_binding hsplit
  simp only [readBinding, hsplit] at h
  split_ifs at h with hname hnames
  rw [Lookup.declare] at h
  split_ifs at h
  cases h
  intro b hb
  rcases NameMap.mem_put hb with rfl | hb
  · refine ⟨?_, fun c hc => ?_⟩
    · rw [String.toList_ofList]
      exact ⟨hname, (hbinding.subset hs).concat hcolon⟩
    · obtain ⟨piece, hpiece, rfl⟩ := List.mem_map.1 hc
      rw [String.toList_ofList]
      exact ⟨fun hempty => hnames (hempty ▸ hpiece), (hbinding.subset hrest).pieces piece hpiece⟩
  · exact hl b hb

theorem clear_of_any_isBracket {s : List Char} (h : Clear [] s)
    (hbracket : s.any isBracket = false) : Clear ['<', '>'] s :=
  fun c hc => ⟨(h c hc).1, fun hmem => List.any_eq_false.1 hbracket c hc (isBracket_iff.2 hmem)⟩

theorem writable_of_readLookup {s : List Char} (hs : Clear [] s)
    (h : readLookup token s = .ok l) : l.Writable := by
  simp only [readLookup] at h
  split_ifs at h with _ _ hbracket
  have hinner := clear_of_any_isBracket (hs.subset s.dropLast_subset) (Bool.eq_false_iff.2 hbracket)
  refine of_foldlM_eq_ok (fun binding hbinding _ _ hl h => ?_) ?_ h
  · exact writable_of_readBinding hl (hinner.pieces binding hbinding) h
  · simp [Lookup.Writable, Lookup.empty, NameMap.empty]

theorem writable_of_readToken {t : Word} (h : readToken t = .ok e) : e.Writable := by
  have hclear : Clear [] t.letters := fun c hc => ⟨t.no_blank c hc, List.not_mem_nil⟩
  rw [readToken] at h
  split at h
  · rename_i s hs
    obtain ⟨l, hl, rfl⟩ := map_eq_ok_iff.1 h
    rw [hs] at hclear
    exact writable_of_readLookup (hclear.subset (List.subset_cons_self _ _)) hl
  · split_ifs at h with hbracket
    cases h
    exact ⟨t.ne_empty, clear_of_any_isBracket hclear (Bool.eq_false_iff.2 hbracket)⟩

theorem writable_of_ofText {text : String} (h : ofText text = .ok p) : p.Writable := by
  intro e he
  obtain ⟨t, ht⟩ := exists_token_of_ofText h e he
  exact writable_of_readToken ht

/-- The written form of a pattern is read back as the pattern exactly where its words and names can be
written; this holds of every pattern that has been read. -/
theorem ofText_text_eq_ok_iff :
    (∀ p : Pattern, p.Filled → (ofText p.text = .ok p ↔ p.Writable)) ∧
    ∀ (text : String) (p : Pattern), ofText text = .ok p →
      p.Filled ∧ p.Writable ∧ ofText p.text = .ok p := by
  refine ⟨fun p hp => ⟨writable_of_ofText, ofText_text hp⟩, fun text p h => ?_⟩
  have hp := filled_of_ofText h
  have hw := writable_of_ofText h
  exact ⟨hp, hw, ofText_text hp hw⟩

def order : Pattern :=
  ⟨[.lookup ⟨.ofList [("what", ["what"]), ("to|for", ["guest:late", "crew"])]⟩]⟩

theorem ofText_text_order : order.Filled ∧ order.Writable ∧ ofText order.text = .ok order ∧
    (∃ p, ofText "<what:tea,to|for:guest:late|crew,what>" = .ok p) ∧
    ∀ p, ofText "<what:tea,to|for:guest:late|crew,what>" = .ok p → ofText p.text = .ok p := by
  have hfilled : order.Filled := (checkAll_eq_ok_iff _).1 (by decide)
  have hwritable : order.Writable := by decide
  refine ⟨hfilled, hwritable, (ofText_text_eq_ok_iff.1 order hfilled).2 hwritable, ?_, ?_⟩
  · exact ⟨order, by cbv⟩
  · exact fun p hp => (ofText_text_eq_ok_iff.2 _ p hp).2.2

end Pattern
end
end Phrasebook
