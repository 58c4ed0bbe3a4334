import Phrasebook.Proofs.Dictionary.Stored

/-!
What the stored patterns of a dictionary derive. A sentence of a scope is one of its patterns with
every place filled, again and again; an expansion fills only places that cover one of the first
items of what comes out, and leaves the others open. The loopless forms forbid a scope below itself
where no word stands between the starts of the two; they are what a search that never enters a scope
twice between two words can find.
-/

namespace Phrasebook.Dictionary

/-- Every place is filled by a sentence of one of its scopes. -/
inductive Spells (d : Dictionary) : List Item → List Word → Prop
  | nil : d.Spells [] []
  | word {w : Word} {items : List Item} {ws : List Word} (rest : d.Spells items ws) :
      d.Spells (.word w :: items) (w :: ws)
  | fill {p : Placeholder} {id : ScopeId} {body items : List Item} {us ws : List Word}
      (named : id ∈ p.contexts) (stored : d.Stores id body) (inner : d.Spells body us)
      (rest : d.Spells items ws) : d.Spells (.slot p :: items) (us ++ ws)

/-- A stored pattern of the scope with every place filled by a sentence. -/
def Sentence (d : Dictionary) (id : ScopeId) (ws : List Word) : Prop :=
  ∃ items, d.Stores id items ∧ d.Spells items ws

/-- As `Spells`, where `above` lists the scopes around that begin with the same word. None of them
fills a place again before that word is produced. -/
inductive SpellsLoopless (d : Dictionary) : List ScopeId → List Item → List Word → Prop
  | nil {above : List ScopeId} : d.SpellsLoopless above [] []
  | word {above : List ScopeId} {w : Word} {items : List Item} {ws : List Word}
      (rest : d.SpellsLoopless [] items ws) : d.SpellsLoopless above (.word w :: items) (w :: ws)
  | fill {above : List ScopeId} {p : Placeholder} {id : ScopeId} {body items : List Item}
      {us ws : List Word} (named : id ∈ p.contexts) (new : id ∉ above) (stored : d.Stores id body)
      (inner : d.SpellsLoopless (id :: above) body us)
      (rest : d.SpellsLoopless (if us = [] then above else []) items ws) :
      d.SpellsLoopless above (.slot p :: items) (us ++ ws)

def LooplessSentence (d : Dictionary) (id : ScopeId) (ws : List Word) : Prop :=
  ∃ items, d.Stores id items ∧ d.SpellsLoopless [id] items ws

/-- Some places are filled by expanded patterns of one of their scopes, only such that cover at
least one of the first `n` items that come out. -/
inductive Expands (d : Dictionary) : Nat → List Item → List Item → Prop
  | nil {n : Nat} : d.Expands n [] []
  | keep {n : Nat} {x : Item} {items out : List Item} (rest : d.Expands (n - 1) items out) :
      d.Expands n (x :: items) (x :: out)
  | fill {n : Nat} {p : Placeholder} {id : ScopeId} {body mid items out : List Item}
      (covers : 0 < n) (named : id ∈ p.contexts) (stored : d.Stores id body)
      (inner : d.Expands n body mid) (rest : d.Expands (n - mid.length) items out) :
      d.Expands n (.slot p :: items) (mid ++ out)

inductive ExpandsLoopless (d : Dictionary) : List ScopeId → Nat → List Item → List Item → Prop
  | nil {above : List ScopeId} {n : Nat} : d.ExpandsLoopless above n [] []
  | keep {above : List ScopeId} {n : Nat} {x : Item} {items out : List Item}
      (rest : d.ExpandsLoopless [] (n - 1) items out) :
      d.ExpandsLoopless above n (x :: items) (x :: out)
  | fill {above : List ScopeId} {n : Nat} {p : Placeholder} {id : ScopeId}
      {body mid items out : List Item} (covers : 0 < n) (named : id ∈ p.contexts)
      (new : id ∉ above) (stored : d.Stores id body)
      (inner : d.ExpandsLoopless (id :: above) n body mid)
      (rest : d.ExpandsLoopless [] (n - mid.length) items out) :
      d.ExpandsLoopless above n (.slot p :: items) (mid ++ out)

variable {d : Dictionary} {above : List ScopeId} {n : Nat} {items out : List Item}
  {us ws : List Word}

theorem Spells.length_le (hd : d.Sound) (h : d.Spells items ws) : items.length ≤ ws.length := by
  induction h with
  | nil => exact le_rfl
  | word _ ih => exact Nat.succ_le_succ ih
  | @fill p id body items us ws _ stored _ _ ihi ihr =>
    have hbody := List.length_pos_of_ne_nil (hd.ne_nil stored)
    simp only [List.length_cons, List.length_append]
    omega

theorem Sentence.ne_nil (hd : d.Sound) {id : ScopeId} (h : d.Sentence id ws) : ws ≠ [] := by
  obtain ⟨items, stored, hspells⟩ := h
  have hpos := List.length_pos_of_ne_nil (hd.ne_nil stored)
  exact List.ne_nil_of_length_pos (hpos.trans_le (hspells.length_le hd))

theorem SpellsLoopless.spells (h : d.SpellsLoopless above items ws) : d.Spells items ws := by
  induction h with
  | nil => exact .nil
  | word _ ih => exact .word ih
  | fill named _ stored _ _ ihi ihr => exact .fill named stored ihi ihr

theorem LooplessSentence.sentence {id : ScopeId} (h : d.LooplessSentence id ws) :
    d.Sentence id ws := by
  obtain ⟨items, stored, h⟩ := h
  exact ⟨items, stored, h.spells⟩

theorem ExpandsLoopless.expands (h : d.ExpandsLoopless above n items out) :
    d.Expands n items out := by
  induction h with
  | nil => exact .nil
  | keep _ ih => exact .keep ih
  | fill covers named _ stored _ _ ihi ihr => exact .fill covers named stored ihi ihr

theorem SpellsLoopless.ne_nil (hd : d.Sound) (h : d.SpellsLoopless above items ws)
    (hne : items ≠ []) : ws ≠ [] := by
  have hlength := h.spells.length_le hd
  have hpos := List.length_pos_of_ne_nil hne
  exact List.ne_nil_of_length_pos (by omega)

theorem Spells.expands (hd : d.Sound) (h : d.Spells items ws) (hn : ws.length ≤ n) :
    d.Expands n items (ws.map .word) := by
  induction h generalizing n with
  | nil => exact .nil
  | word _ ih => exact .keep (ih (by rw [List.length_cons] at hn; omega))
  | @fill p id body items us ws named stored inner _ ihi ihr =>
    have hbody := List.length_pos_of_ne_nil (hd.ne_nil stored)
    have hus := inner.length_le hd
    rw [List.length_append] at hn
    rw [List.map_append]
    refine .fill (by omega) named stored (ihi (by omega)) (ihr ?_)
    rw [List.length_map]
    omega

theorem SpellsLoopless.expands (hd : d.Sound) (h : d.SpellsLoopless above items ws)
    (hn : ws.length ≤ n) : d.ExpandsLoopless above n items (ws.map .word) := by
  induction h generalizing n with
  | nil => exact .nil
  | word _ ih => exact .keep (ih (by rw [List.length_cons] at hn; omega))
  | @fill above p id body items us ws named new stored inner _ ihi ihr =>
    have hus := inner.ne_nil hd (hd.ne_nil stored)
    have hpos := List.length_pos_of_ne_nil hus
    rw [if_neg hus] at ihr
    rw [List.length_append] at hn
    rw [List.map_append]
    refine .fill (by omega) named new stored (ihi (by omega)) (ihr ?_)
    rw [List.length_map]
    omega

theorem ExpandsLoopless.spells (h : d.ExpandsLoopless above n items out) (hd : d.Sound)
    (hout : out = ws.map .word) : d.SpellsLoopless above items ws := by
  induction h generalizing ws with
  | nil =>
    rw [List.map_eq_nil_iff.1 hout.symm]
    exact .nil
  | keep _ ih =>
    obtain ⟨w, ws, rfl, rfl, hws⟩ := List.map_eq_cons_iff.1 hout.symm
    exact .word (ih hws.symm)
  | fill _ named new stored _ _ ihi ihr =>
    obtain ⟨us, ws, rfl, hus, hws⟩ := List.map_eq_append_iff.1 hout.symm
    have hinner := ihi hus.symm
    refine .fill named new stored hinner ?_
    rw [if_neg (hinner.ne_nil hd (hd.ne_nil stored))]
    exact ihr hws.symm

theorem ExpandsLoopless.eq_of_zero (h : d.ExpandsLoopless above 0 items out) : out = items := by
  generalize hn : 0 = n at h
  induction h with
  | nil => rfl
  | keep _ ih =>
    subst hn
    rw [ih rfl]
  | fill covers => omega

theorem ExpandsLoopless.refl (n : Nat) (items : List Item) : d.ExpandsLoopless above n items items := by
  induction items generalizing above n with
  | nil => exact .nil
  | cons x items ih => exact .keep (ih (n - 1))

/-- The free scopes are the registered ones without those around. -/
structure FreeOf (d : Dictionary) (free above : List ScopeId) : Prop where
  nodup : free.Nodup
  mem_iff : ∀ id, id ∈ free ↔ id < d.scopes.length ∧ id ∉ above

theorem freeOf_ids (d : Dictionary) : d.FreeOf d.ids [] where
  nodup := List.nodup_range
  mem_iff := by simp [ids]

theorem FreeOf.erase {free : List ScopeId} (h : d.FreeOf free above) (id : ScopeId) :
    d.FreeOf (free.erase id) (id :: above) where
  nodup := h.nodup.erase id
  mem_iff := by
    intro i
    rw [h.nodup.mem_erase_iff, h.mem_iff, List.mem_cons, not_or]
    exact and_left_comm

theorem FreeOf.mem {free : List ScopeId} {id : ScopeId} {root : Node} (h : d.FreeOf free above)
    (hroot : d.root? id = some root) (hnew : id ∉ above) : id ∈ free :=
  (h.mem_iff id).2 ⟨lt_of_root? hroot, hnew⟩

end Phrasebook.Dictionary
