import Phrasebook.Proofs.Dictionary.LeftRecursion

/-!
Filling the places that an expansion leaves open. Behind the first words a place may be filled
whatever stands around it, so there the whole stays loopless, whether the places are expanded further
or sentences are put into them. With no word before it the place may be filled by way of the scope it
stands in: then that scope has the sentence too, provided it comes back to itself through patterns of
one element only.
-/

open Relation

namespace Phrasebook.Dictionary

variable {d : Dictionary} {above above' : List ScopeId} {n : Nat} {items out mid : List Item}
  {w : Word} {ws us : List Word} {id : ScopeId}

theorem SpellsLoopless.mono (h : d.SpellsLoopless above items ws) (hsub : above' ⊆ above) :
    d.SpellsLoopless above' items ws := by
  induction h generalizing above' with
  | nil => exact .nil
  | word rest _ => exact .word rest
  | fill named new stored _ _ ihi ihr =>
    refine .fill named (fun hmem => new (hsub hmem)) stored (ihi (List.cons_subset_cons _ hsub))
      (ihr ?_)
    split_ifs
    · exact hsub
    · exact List.Subset.refl _

theorem SpellsLoopless.word_iff : d.SpellsLoopless above (.word w :: items) ws ↔
    ∃ rest, ws = w :: rest ∧ d.SpellsLoopless [] items rest := by
  constructor
  · intro h
    cases h with
    | word rest => exact ⟨_, rfl, rest⟩
  · intro h
    obtain ⟨rest, rfl, h⟩ := h
    exact .word h

theorem ExpandsLoopless.split (h : d.ExpandsLoopless [] n (mid ++ out) items) :
    ∃ mid' out', items = mid' ++ out' ∧ d.ExpandsLoopless [] n mid mid' ∧
      d.ExpandsLoopless [] (n - mid'.length) out out' := by
  induction mid generalizing n items with
  | nil => exact ⟨[], items, rfl, .nil, h⟩
  | cons x mid ih =>
    cases h with
    | keep rest =>
      obtain ⟨mid', out', rfl, hmid, hout⟩ := ih rest
      refine ⟨x :: mid', out', rfl, .keep hmid, ?_⟩
      rwa [Nat.sub_sub, Nat.add_comm 1] at hout
    | fill covers named new stored inner rest =>
      obtain ⟨mid', out', rfl, hmid, hout⟩ := ih rest
      refine ⟨_ ++ mid', out', (List.append_assoc _ _ _).symm,
        .fill covers named new stored inner hmid, ?_⟩
      rwa [Nat.sub_sub, ← List.length_append] at hout

theorem ExpandsLoopless.eq_of_words (h : d.ExpandsLoopless above n items out)
    (hwords : ∀ x ∈ items, ∃ w, x = .word w) : out = items := by
  induction h with
  | nil => rfl
  | keep _ ih => rw [ih fun x hx => hwords x (List.mem_cons_of_mem _ hx)]
  | fill =>
    obtain ⟨w, hw⟩ := hwords _ List.mem_cons_self
    cases hw

theorem ExpandsLoopless.words_append (h : d.ExpandsLoopless [] n items out) (ws : List Word) :
    d.ExpandsLoopless [] (ws.length + n) (ws.map .word ++ items) (ws.map .word ++ out) := by
  induction ws with
  | nil => rwa [List.length_nil, Nat.zero_add]
  | cons w ws ih =>
    refine .keep ?_
    rwa [List.length_cons, Nat.succ_add, Nat.succ_sub_one]

theorem ExpandsLoopless.trans {m : Nat} (h : d.ExpandsLoopless above n items mid)
    (hwords : ∀ x ∈ mid.take n, ∃ w, x = .word w) (habove : n = 0 → above = []) (hle : n ≤ m)
    (hout : d.ExpandsLoopless [] m mid out) : d.ExpandsLoopless above m items out := by
  induction h generalizing m out with
  | nil =>
    cases hout
    exact .nil
  | @keep above n x items mid rest ih =>
    cases n with
    | zero =>
      rw [habove rfl, ← rest.eq_of_zero]
      exact hout
    | succ n =>
      obtain ⟨w, rfl⟩ := hwords x (by simp)
      cases hout with
      | keep hout =>
        exact .keep (ih (fun y hy => hwords y (List.mem_cons_of_mem _ hy)) (fun _ => rfl)
          (by omega) hout)
  | @fill above n p id body mid items tail covers named new stored _ _ ihi ihr =>
    obtain ⟨mid', tail', rfl, hmid, htail⟩ := hout.split
    rw [List.take_append] at hwords
    have hbody := ihi (fun x hx => hwords x (List.mem_append_left _ hx)) (by omega) hle hmid
    refine .fill (by omega) named new stored hbody
      (ihr (fun x hx => hwords x (List.mem_append_right _ hx)) (fun _ => rfl) ?_ htail)
    -- A pattern that comes before the last of the first words is words and was not filled further.
    by_cases hlength : mid.length < n
    · rw [List.take_of_length_le hlength.le] at hwords
      rw [hmid.eq_of_words fun x hx => hwords x (List.mem_append_left _ hx)]
      omega
    · omega

theorem ExpandsLoopless.graft (hd : d.Sound) (h : d.ExpandsLoopless above n items out)
    (hwords : ∀ x ∈ out.take n, ∃ w, x = .word w) (habove : n = 0 → above = [])
    (hws : d.SpellsLoopless [] out ws) : d.SpellsLoopless above items ws :=
  (h.trans hwords habove (Nat.le_max_left n ws.length)
    (hws.expands hd (Nat.le_max_right n ws.length))).spells hd rfl

theorem SpellsLoopless.exists_expands (hd : d.Sound) (h : d.SpellsLoopless above items (w :: ws)) :
    ∃ out, d.ExpandsLoopless above 1 items (.word w :: out) := by
  generalize heq : w :: ws = us at h
  induction h generalizing ws with
  | nil => cases heq
  | @word above v items us _ _ =>
    obtain ⟨rfl, -⟩ := List.cons.inj heq
    exact ⟨items, .keep (.refl 0 items)⟩
  | @fill above p id body items us vs named new stored inner _ ihi _ =>
    obtain ⟨u, us, rfl⟩ := List.exists_cons_of_ne_nil (inner.ne_nil hd (hd.ne_nil stored))
    obtain ⟨rfl, -⟩ := List.cons.inj heq
    obtain ⟨mid, hmid⟩ := ihi rfl
    exact ⟨mid ++ items, .fill Nat.one_pos named new stored hmid (.refl _ items)⟩

/-- Every pattern on a chain of leading places from the scope back to itself has one element. -/
def UnitLoopsAt (d : Dictionary) (id : ScopeId) : Prop :=
  ∀ a b p rest, ReflTransGen d.LeadsTo id a → d.Stores a (.slot p :: rest) → b ∈ p.contexts →
    ReflTransGen d.LeadsTo b id → rest = []

theorem OnlyUnitLoops.at (h : d.OnlyUnitLoops) (id : ScopeId) : d.UnitLoopsAt id :=
  fun a b p rest hto stored hb hback => h a b p rest stored hb (hback.trans hto)

def Returns (d : Dictionary) (id : ScopeId) (items : List Item) (ws : List Word) : Prop :=
  ∃ p rest c us tail body, items = .slot p :: rest ∧ c ∈ p.contexts ∧
    ReflTransGen d.LeadsTo c id ∧ ws = us ++ tail ∧ (rest = [] → tail = []) ∧
    d.Stores id body ∧ d.SpellsLoopless [id] body us

theorem SpellsLoopless.avoids (hd : d.Sound) (hloops : d.UnitLoopsAt id)
    (h : d.SpellsLoopless above items ws)
    (hleads : ∀ p rest c, items = .slot p :: rest → c ∈ p.contexts → ReflTransGen d.LeadsTo id c) :
    d.SpellsLoopless (id :: above) items ws ∨ d.Returns id items ws := by
  induction h with
  | nil => exact .inl .nil
  | word rest _ => exact .inl (.word rest)
  | @fill above p a body items us ws named new stored inner rest ihi _ =>
    have ha := hleads p items a rfl named
    have htail : items = [] → ws = [] := by
      intro hnil
      subst hnil
      cases rest
      rfl
    by_cases heq : a = id
    · subst heq
      exact .inr ⟨p, items, a, us, ws, body, rfl, named, .refl, rfl, htail, stored,
        inner.mono (by simp)⟩
    · rcases ihi (fun q rest c hbody hc => ha.tail ⟨q, rest, hbody ▸ stored, hc⟩) with h | h
      · refine .inl (.fill named (by simp [new, heq]) stored (h.mono (by simp)) ?_)
        rwa [if_neg (inner.ne_nil hd (hd.ne_nil stored))] at rest ⊢
      · obtain ⟨q, rest', c, vs, tail, body', rfl, hc, hback, rfl, hnil, hbody', hvs⟩ := h
        -- The pattern of `a` lies on a chain from the scope back to itself: it is the place alone.
        rw [hnil (hloops a c q rest' ha stored hc hback), List.append_nil]
        exact .inr ⟨p, items, a, vs, ws, body', rfl, named, hback.head ⟨q, rest', stored, hc⟩, rfl,
          htail, hbody', hvs⟩

/-- Where a scope comes back to itself through patterns of one element only, its patterns with
loopless sentences in all their places are loopless sentences. -/
theorem UnitLoopsAt.looplessSentence (hd : d.Sound) (hloops : d.UnitLoopsAt id)
    (stored : d.Stores id items) (h : d.SpellsLoopless [] items ws) : d.LooplessSentence id ws := by
  rcases h.avoids hd hloops (fun p rest c heq hc => .single ⟨p, rest, heq ▸ stored, hc⟩) with h | h
  · exact ⟨items, stored, h⟩
  · obtain ⟨p, rest, c, us, tail, body, rfl, hc, hback, rfl, hnil, hbody, hus⟩ := h
    rw [hnil (hloops id c p rest .refl stored hc hback), List.append_nil]
    exact ⟨body, hbody, hus⟩

end Phrasebook.Dictionary
