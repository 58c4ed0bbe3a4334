import Phrasebook.Proofs.Dictionary.Derivation

/-!
The ways to fill one open place. The search draws on a budget and enters free scopes only; what it
finds within the budget is told by derivations that give up a scope until the next word. Where the
free scopes are all but those around these are the loopless derivations, so filling a place finds
the loopless sentences of its scopes that the budget pays for. A search that reports no cut has
found every sentence.
-/

namespace Phrasebook

def phrase (ws : List Word) : List Segment := ws.map fun w => .word w.text

@[simp] theorem phrase_nil : phrase [] = [] := rfl

@[simp] theorem phrase_cons (w : Word) (ws : List Word) :
    phrase (w :: ws) = .word w.text :: phrase ws := rfl

theorem phrase_append (us ws : List Word) : phrase (us ++ ws) = phrase us ++ phrase ws :=
  List.map_append

theorem isSlot_of_mem_phrase {us : List Word} {x : Segment} (h : x ∈ phrase us) :
    x.isSlot = false := by
  obtain ⟨w, -, rfl⟩ := List.mem_map.1 h
  rfl

namespace Fillings
variable {f g : Fillings} {k k' : List Segment × Nat → Fillings} {w : List Segment × Nat}
  {head : List Segment} {cost : Nat}

def bind (f : Fillings) (k : List Segment × Nat → Fillings) : Fillings :=
  { join (f.ways.map k) with cut := f.cut || (join (f.ways.map k)).cut }

theorem ext (hways : f.ways = g.ways) (hcut : f.cut = g.cut) : f = g := by
  cases f; cases g; simp_all

theorem mem_after_iff : w ∈ (f.after head cost).ways ↔
    ∃ v ∈ f.ways, w = (head ++ v.1, cost + v.2) := by
  simp [after, eq_comm]

theorem mem_bind_iff : w ∈ (f.bind k).ways ↔ ∃ u ∈ f.ways, w ∈ (k u).ways := by
  simp [bind, join]

theorem cut_bind_eq_false_iff :
    (f.bind k).cut = false ↔ f.cut = false ∧ ∀ u ∈ f.ways, (k u).cut = false := by
  simp [bind, join]

theorem bind_congr (h : ∀ w ∈ f.ways, k w = k' w) : f.bind k = f.bind k' := by
  rw [bind, bind, List.map_congr_left h]

theorem bind_assoc : (f.bind k).bind k' = f.bind fun w => (k w).bind k' := by
  have hbool : ∀ a b : Bool, (a = false ↔ b = false) → a = b := by decide
  refine ext ?_ (hbool _ _ ?_)
  · simp [bind, join, List.flatMap_map, List.flatMap_assoc]
  · simp only [cut_bind_eq_false_iff, mem_bind_iff]
    grind

end Fillings

namespace Dictionary

/-- As `SpellsLoopless`, told by the scopes that may still be entered. -/
inductive SpellsFrom (d : Dictionary) : List ScopeId → List Item → List Word → Prop
  | nil {free : List ScopeId} : d.SpellsFrom free [] []
  | word {free : List ScopeId} {w : Word} {items : List Item} {ws : List Word}
      (rest : d.SpellsFrom d.ids items ws) : d.SpellsFrom free (.word w :: items) (w :: ws)
  | fill {free : List ScopeId} {p : Placeholder} {id : ScopeId} {body items : List Item}
      {us ws : List Word} (named : id ∈ p.contexts) (open_ : id ∈ free) (stored : d.Stores id body)
      (inner : d.SpellsFrom (free.erase id) body us) (rest : d.SpellsFrom d.ids items ws) :
      d.SpellsFrom free (.slot p :: items) (us ++ ws)

variable {d : Dictionary} {free above : List ScopeId} {p : Placeholder} {id : ScopeId}
  {items body : List Item} {us ws : List Word} {w : List Segment × Nat} {budget : Nat}

theorem SpellsFrom.spells (h : d.SpellsFrom free items ws) : d.Spells items ws := by
  induction h with
  | nil => exact .nil
  | word _ ih => exact .word ih
  | fill named _ stored _ _ ihi ihr => exact .fill named stored ihi ihr

theorem SpellsFrom.ne_nil (hd : d.Sound) (stored : d.Stores id body)
    (h : d.SpellsFrom free body us) : us ≠ [] := by
  have hlength := h.spells.length_le hd
  have hpos := List.length_pos_of_ne_nil (hd.ne_nil stored)
  exact List.ne_nil_of_length_pos (by omega)

theorem SpellsFrom.loopless (hd : d.Sound) (h : d.SpellsFrom free items ws)
    (hfree : d.FreeOf free above) : d.SpellsLoopless above items ws := by
  induction h generalizing above with
  | nil => exact .nil
  | word _ ih => exact .word (ih (freeOf_ids d))
  | fill named open_ stored inner _ ihi ihr =>
    refine .fill named ((hfree.mem_iff _).1 open_).2 stored (ihi (hfree.erase _)) ?_
    rw [if_neg (inner.ne_nil hd stored)]
    exact ihr (freeOf_ids d)

theorem SpellsLoopless.spellsFrom (hd : d.Sound) (h : d.SpellsLoopless above items ws)
    (hfree : d.FreeOf free above) : d.SpellsFrom free items ws := by
  induction h generalizing free with
  | nil => exact .nil
  | word _ ih => exact .word (ih (freeOf_ids d))
  | fill named new stored inner _ ihi ihr =>
    obtain ⟨root, hroot, -⟩ := (stores_iff hd).1 stored
    rw [if_neg (inner.ne_nil hd (hd.ne_nil stored))] at ihr
    exact .fill named (hfree.mem hroot new) stored (ihi (hfree.erase _)) (ihr (freeOf_ids d))

theorem mem_fill_iff (hd : d.Sound) : w ∈ (d.fill free p budget).ways ↔
    ∃ id ∈ p.contexts, id ∈ free ∧ ∃ body, d.Stores id body ∧
      w ∈ (d.fillAll (free.erase id) (body.map Item.segment) budget).ways := by
  rw [fill]
  simp only [Fillings.join, List.flatMap_map, List.mem_flatMap]
  apply exists_congr
  intro id
  apply and_congr_right
  intro _
  cases hroot : d.root? id with
  | none => simp [stores_iff hd, hroot]
  | some root =>
    by_cases hid : id ∈ free
    · have hclose := @(hd.tree hroot).boundary.mem_map_close_iff
      simp only [List.mem_map] at hclose
      dsimp only
      rw [dif_pos hid]
      simp only [List.mem_flatMap, hid, true_and, stores_iff hd, hroot, Option.some.injEq,
        exists_eq_left']
      constructor
      · intro h
        obtain ⟨t, ht, hw⟩ := h
        obtain ⟨body, hheld, heq⟩ := hclose.1 ⟨t, ht, rfl⟩
        exact ⟨body, hheld, heq ▸ hw⟩
      · intro h
        obtain ⟨body, hheld, hw⟩ := h
        obtain ⟨t, ht, heq⟩ := hclose.2 ⟨body, hheld, rfl⟩
        exact ⟨t, ht, heq ▸ hw⟩
    · simp [hid]

theorem cut_fill_eq_false_iff (hd : d.Sound) : (d.fill free p budget).cut = false ↔
    ∀ id ∈ p.contexts, ∀ root, d.root? id = some root → id ∈ free ∧ ∀ body, d.Stores id body →
      (d.fillAll (free.erase id) (body.map Item.segment) budget).cut = false := by
  rw [fill]
  simp only [Fillings.join, List.any_map, List.any_eq_false, Function.comp_apply, Bool.not_eq_true]
  apply forall₂_congr
  intro id _
  cases hroot : d.root? id with
  | none => simp
  | some root =>
    by_cases hid : id ∈ free
    · have hclose := @(hd.tree hroot).boundary.mem_map_close_iff
      simp only [List.mem_map] at hclose
      dsimp only
      rw [dif_pos hid]
      simp only [hid, true_and, stores_iff hd, hroot, Option.some.injEq, exists_eq_left',
        List.any_eq_false, Function.comp_apply, Bool.not_eq_true, forall_eq']
      constructor
      · intro h body hheld
        obtain ⟨t, ht, heq⟩ := hclose.2 ⟨body, hheld, rfl⟩
        rw [← heq]
        exact h t ht
      · intro h t ht
        obtain ⟨body, hheld, heq⟩ := hclose.1 ⟨t, ht, rfl⟩
        rw [heq]
        exact h body hheld
    · simp [hid]

theorem cut_of_stores (hd : d.Sound) (hcut : (d.fill free p budget).cut = false)
    (named : id ∈ p.contexts) (stored : d.Stores id body) :
    id ∈ free ∧ (d.fillAll (free.erase id) (body.map Item.segment) budget).cut = false := by
  obtain ⟨root, hroot, -⟩ := (stores_iff hd).1 stored
  obtain ⟨hid, hbodies⟩ := (cut_fill_eq_false_iff hd).1 hcut id named root hroot
  exact ⟨hid, hbodies body stored⟩

theorem fillAll_nil (d : Dictionary) (free : List ScopeId) (budget : Nat) :
    d.fillAll free [] budget = ⟨[([], 0)], false⟩ := by rw [fillAll.eq_def]

theorem fillAll_plain_zero (d : Dictionary) (free : List ScopeId) {x : Segment}
    (plain : x.isSlot = false) (rest : List Segment) :
    d.fillAll free (x :: rest) 0 = ⟨[], true⟩ := by
  rw [fillAll.eq_def]
  cases x with
  | slot p => cases plain
  | _ => rfl

theorem fillAll_plain_succ (d : Dictionary) (free : List ScopeId) {x : Segment}
    (plain : x.isSlot = false) (rest : List Segment) (left : Nat) :
    d.fillAll free (x :: rest) (left + 1) = (d.fillAll d.ids rest left).after [x] 1 := by
  rw [fillAll.eq_def]
  cases x with
  | slot p => cases plain
  | _ => rfl

theorem fillAll_slot_eq {rest : List Segment}
    (hcost : ∀ u ∈ (d.fill free p budget).ways, 0 < u.2 ∧ u.2 ≤ budget) :
    d.fillAll free (.slot p :: rest) budget = (d.fill free p budget).bind fun u =>
      (d.fillAll d.ids rest (budget - u.2)).after u.1 u.2 := by
  rw [fillAll.eq_def]
  refine Fillings.bind_congr fun u hu => ?_
  obtain ⟨hpos, hle⟩ := hcost u hu
  rw [if_pos (Nat.sub_lt (hpos.trans_le hle) hpos)]

theorem mem_fillAll_slot_iff {rest : List Segment}
    (hcost : ∀ u ∈ (d.fill free p budget).ways, 0 < u.2 ∧ u.2 ≤ budget) :
    w ∈ (d.fillAll free (.slot p :: rest) budget).ways ↔ ∃ u ∈ (d.fill free p budget).ways,
      ∃ v ∈ (d.fillAll d.ids rest (budget - u.2)).ways, w = (u.1 ++ v.1, u.2 + v.2) := by
  simp only [fillAll_slot_eq hcost, Fillings.mem_bind_iff, Fillings.mem_after_iff]

def Affords (d : Dictionary) (free : List ScopeId) (p : Placeholder) (budget : Nat)
    (w : List Segment × Nat) : Prop :=
  ∃ id ∈ p.contexts, id ∈ free ∧ ∃ body us, d.Stores id body ∧
    d.SpellsFrom (free.erase id) body us ∧ us.length ≤ budget ∧ w = (phrase us, us.length)

theorem Affords.cost (hd : d.Sound) (h : d.Affords free p budget w) : 0 < w.2 ∧ w.2 ≤ budget := by
  obtain ⟨id, -, -, body, us, stored, hus, hle, rfl⟩ := h
  exact ⟨List.length_pos_of_ne_nil (hus.ne_nil hd stored), hle⟩

mutual

theorem affords_of_mem_fill (hd : d.Sound) {free : List ScopeId} {p : Placeholder} {budget : Nat}
    {w : List Segment × Nat} (h : w ∈ (d.fill free p budget).ways) :
    d.Affords free p budget w := by
  obtain ⟨id, named, hid, body, stored, h⟩ := (mem_fill_iff hd).1 h
  obtain ⟨us, hus⟩ := spellsFrom_of_mem_fillAll hd h
  exact ⟨id, named, hid, body, us, stored, hus⟩
termination_by (budget, free.length, 0)
decreasing_by exact .right _ (.left _ _ (length_erase_lt hid))

theorem spellsFrom_of_mem_fillAll (hd : d.Sound) {free : List ScopeId} {items : List Item}
    {budget : Nat} {w : List Segment × Nat}
    (h : w ∈ (d.fillAll free (items.map Item.segment) budget).ways) :
    ∃ ws, d.SpellsFrom free items ws ∧ ws.length ≤ budget ∧ w = (phrase ws, ws.length) := by
  match items, budget with
  | [], budget =>
    rw [List.map_nil, fillAll_nil, List.mem_singleton] at h
    exact ⟨[], .nil, Nat.zero_le _, h⟩
  | .word t :: items, 0 =>
    rw [List.map_cons, Item.segment, fillAll_plain_zero _ _ rfl] at h
    cases h
  | .word t :: items, left + 1 =>
    rw [List.map_cons, Item.segment, fillAll_plain_succ _ _ rfl, Fillings.mem_after_iff] at h
    obtain ⟨v, hv, rfl⟩ := h
    obtain ⟨ws, hws, hle, rfl⟩ := spellsFrom_of_mem_fillAll hd hv
    refine ⟨t :: ws, .word hws, Nat.succ_le_succ hle, ?_⟩
    rw [phrase_cons, List.length_cons, Nat.add_comm]
    rfl
  | .slot p :: items, budget =>
    have hfilled : ∀ u ∈ (d.fill free p budget).ways, d.Affords free p budget u :=
      fun u hu => affords_of_mem_fill hd hu
    have hcost := fun u hu => (hfilled u hu).cost hd
    rw [List.map_cons, Item.segment, mem_fillAll_slot_iff hcost] at h
    obtain ⟨u, hu, v, hv, rfl⟩ := h
    obtain ⟨hpos, hafford⟩ := hcost u hu
    have hless : budget - u.2 < budget := Nat.sub_lt (hpos.trans_le hafford) hpos
    obtain ⟨ws, hws, hle', rfl⟩ := spellsFrom_of_mem_fillAll hd hv
    obtain ⟨id, named, hid, body, us, stored, hus, hle, rfl⟩ := hfilled u hu
    dsimp only at hle'
    refine ⟨us ++ ws, .fill named hid stored hus hws, ?_, ?_⟩
    · rw [List.length_append]
      omega
    · rw [phrase_append, List.length_append]
termination_by (budget, free.length, items.length)

end

theorem cost_of_mem_fill (hd : d.Sound) :
    ∀ u ∈ (d.fill free p budget).ways, 0 < u.2 ∧ u.2 ≤ budget :=
  fun _ hu => (affords_of_mem_fill hd hu).cost hd

theorem cut_fillAll_slot_eq_false_iff (hd : d.Sound) {rest : List Segment} :
    (d.fillAll free (.slot p :: rest) budget).cut = false ↔
      (d.fill free p budget).cut = false ∧ ∀ u ∈ (d.fill free p budget).ways,
        (d.fillAll d.ids rest (budget - u.2)).cut = false := by
  rw [fillAll_slot_eq (cost_of_mem_fill hd), Fillings.cut_bind_eq_false_iff]
  rfl

theorem SpellsFrom.mem_fillAll (hd : d.Sound) (h : d.SpellsFrom free items ws)
    (hle : ws.length ≤ budget) :
    (phrase ws, ws.length) ∈ (d.fillAll free (items.map Item.segment) budget).ways := by
  induction h generalizing budget with
  | nil => simp [fillAll_nil]
  | @word free t items ws _ ih =>
    cases budget with
    | zero => simp at hle
    | succ left =>
      rw [List.map_cons, Item.segment, fillAll_plain_succ _ _ rfl, Fillings.mem_after_iff]
      exact ⟨_, ih (Nat.le_of_succ_le_succ hle), by simp [Nat.add_comm]⟩
  | @fill free p id body items us ws named open_ stored _ _ ihi ihr =>
    rw [List.length_append] at hle
    have hus : us.length ≤ budget := by omega
    have hws : ws.length ≤ budget - us.length := by omega
    have hu := (mem_fill_iff hd).2 ⟨id, named, open_, body, stored, ihi hus⟩
    rw [List.map_cons, Item.segment, mem_fillAll_slot_iff (cost_of_mem_fill hd)]
    exact ⟨_, hu, _, ihr hws, by rw [phrase_append, List.length_append]⟩

theorem mem_fillAll_iff (hd : d.Sound) :
    w ∈ (d.fillAll free (items.map Item.segment) budget).ways ↔
      ∃ ws, d.SpellsFrom free items ws ∧ ws.length ≤ budget ∧ w = (phrase ws, ws.length) := by
  constructor
  · exact spellsFrom_of_mem_fillAll hd
  · intro h
    obtain ⟨ws, hws, hle, rfl⟩ := h
    exact hws.mem_fillAll hd hle

theorem mem_fill_ids_iff (hd : d.Sound) : w ∈ (d.fill d.ids p budget).ways ↔
    ∃ id ∈ p.contexts, ∃ us, d.LooplessSentence id us ∧ us.length ≤ budget ∧
      w = (phrase us, us.length) := by
  have hfree := fun id => (freeOf_ids d).erase id
  constructor
  · intro h
    obtain ⟨id, named, -, body, us, stored, hus, hle, rfl⟩ := affords_of_mem_fill hd h
    exact ⟨id, named, us, ⟨body, stored, hus.loopless hd (hfree id)⟩, hle, rfl⟩
  · intro h
    obtain ⟨id, named, us, ⟨body, stored, hus⟩, hle, rfl⟩ := h
    obtain ⟨root, hroot, -⟩ := (stores_iff hd).1 stored
    have hid := (freeOf_ids d).mem hroot List.not_mem_nil
    have hfound := (hus.spellsFrom hd (hfree id)).mem_fillAll hd hle
    exact (mem_fill_iff hd).2 ⟨id, named, hid, body, stored, hfound⟩

theorem Spells.mem_fillAll (hd : d.Sound) (h : d.Spells items ws)
    (hcut : (d.fillAll free (items.map Item.segment) budget).cut = false) :
    (phrase ws, ws.length) ∈ (d.fillAll free (items.map Item.segment) budget).ways := by
  induction h generalizing free budget with
  | nil => simp [fillAll_nil]
  | @word t items ws _ ih =>
    rw [List.map_cons, Item.segment] at hcut ⊢
    cases budget with
    | zero =>
      rw [fillAll_plain_zero _ _ rfl] at hcut
      cases hcut
    | succ left =>
      rw [fillAll_plain_succ _ _ rfl] at hcut
      rw [fillAll_plain_succ _ _ rfl, Fillings.mem_after_iff]
      exact ⟨_, ih hcut, by simp [Nat.add_comm]⟩
  | @fill p id body items us ws named stored _ _ ihi ihr =>
    rw [List.map_cons, Item.segment] at hcut ⊢
    obtain ⟨hfilled, hrests⟩ := (cut_fillAll_slot_eq_false_iff hd).1 hcut
    obtain ⟨hid, hbody⟩ := cut_of_stores hd hfilled named stored
    have hu := (mem_fill_iff hd).2 ⟨id, named, hid, body, stored, ihi hbody⟩
    rw [mem_fillAll_slot_iff (cost_of_mem_fill hd)]
    exact ⟨_, hu, _, ihr (hrests _ hu), by rw [phrase_append, List.length_append]⟩

theorem Sentence.mem_fill (hd : d.Sound) (h : d.Sentence id us) (named : id ∈ p.contexts)
    (hcut : (d.fill free p budget).cut = false) :
    (phrase us, us.length) ∈ (d.fill free p budget).ways := by
  obtain ⟨body, stored, hus⟩ := h
  obtain ⟨hid, hbody⟩ := cut_of_stores hd hcut named stored
  exact (mem_fill_iff hd).2 ⟨id, named, hid, body, stored, hus.mem_fillAll hd hbody⟩

end Dictionary
end Phrasebook
