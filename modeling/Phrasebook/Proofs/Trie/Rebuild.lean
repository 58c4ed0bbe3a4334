import Phrasebook.Proofs.Trie.Numbering
import Phrasebook.Proofs.Trie.Shape

/-!
A tree out of its paths. The paths of a tree, stored one after the other in an empty tree, give a
tree of the same shape: all paths that share their first step stand together, so each step is put
once and behind those before it, and the steps come to stand in their old order.
-/

namespace Phrasebook

namespace Edges
variable {α : Type} {c : Char} {a b : α} {edges acc : Edges α}

theorem put_cons_self (c : Char) (a b : α) (rest : Edges α) :
    put c b ((c, a) :: rest) = (c, b) :: rest := by
  rw [put, if_neg (Char.lt_irrefl c), if_pos rfl]

theorem put_put : put c b (put c a edges) = put c b edges := by
  induction edges with
  | nil => exact put_cons_self c a b []
  | cons e rest ih =>
    simp only [put]
    split_ifs with hlt heq
    · exact put_cons_self c a b (e :: rest)
    · exact put_cons_self c a b rest
    · simp [put, hlt, heq, ih]

theorem put_last (h : ∀ e ∈ edges, e.1 < c) : put c a edges = edges ++ [(c, a)] := by
  induction edges with
  | nil => rfl
  | cons e rest ih =>
    obtain ⟨he, hrest⟩ := List.forall_mem_cons.1 h
    rw [put, if_neg (Char.lt_asymm he), if_neg (Char.ne_of_lt he).symm, ih hrest, List.cons_append]

theorem foldl_put (h : Sorted (acc ++ edges)) :
    edges.foldl (fun acc e => put e.1 e.2 acc) acc = acc ++ edges := by
  induction edges generalizing acc with
  | nil => simp
  | cons e rest ih =>
    have hlast : ∀ x ∈ acc, x.1 < e.1 := fun x hx =>
      (List.pairwise_append.1 h).2.2 x hx e List.mem_cons_self
    rw [List.append_cons] at h
    rw [List.foldl_cons, put_last hlast, List.append_cons acc e rest]
    exact ih h

end Edges

namespace Slots
variable {α : Type} {p : Placeholder} {a b : α} {slots acc : Slots α}

theorem put_put : put p b (put p a slots) = put p b slots := by
  induction slots with
  | nil => simp [put]
  | cons s rest ih =>
    simp only [put]
    split_ifs with heq hlt
    · simp [put]
    · simp [put]
    · simp [put, hlt, heq, ih]

theorem put_last (h : ∀ s ∈ slots, s.1.name ≤ p.name ∧ s.1 ≠ p) :
    put p a slots = slots ++ [(p, a)] := by
  induction slots with
  | nil => rfl
  | cons s rest ih =>
    obtain ⟨hs, hrest⟩ := List.forall_mem_cons.1 h
    rw [put, if_neg hs.2, if_neg (String.not_lt.2 hs.1), ih hrest, List.cons_append]

theorem foldl_put (h : Sorted (acc ++ slots)) :
    slots.foldl (fun acc s => put s.1 s.2 acc) acc = acc ++ slots := by
  induction slots generalizing acc with
  | nil => simp
  | cons s rest ih =>
    have hlast : ∀ x ∈ acc, x.1.name ≤ s.1.name ∧ x.1 ≠ s.1 := fun x hx =>
      (List.pairwise_append.1 h).2.2 x hx s List.mem_cons_self
    rw [List.append_cons] at h
    rw [List.foldl_cons, put_last hlast, List.append_cons acc s rest]
    exact ih h

end Slots

namespace Node

variable {n n' m : Node} {l : Label} {path : List Label} {paths : List (List Label)}
  {next next' : Nat} {arcs : List (Label × Node)}

theorem put_put {m' : Node} : (n.put l m).put l m' = n.put l m' := by
  cases n
  cases l with
  | more c => simp only [put, Edges.put_put]
  | start c => simp only [put, Edges.put_put]
  | slot p => simp only [put, Slots.put_put]

def putAll (arcs : List (Label × Node)) (n : Node) : Node :=
  arcs.foldl (fun n a => n.put a.1 a.2) n

theorem putAll_chars (number : Nat) (isEnd : Bool) (chars words : Edges Node) (slots : Slots Node)
    (edges : Edges Node) :
    putAll (edges.map fun e => (.more e.1, e.2)) (mk number isEnd chars words slots) =
      mk number isEnd (edges.foldl (fun acc e => Edges.put e.1 e.2 acc) chars) words slots := by
  induction edges generalizing chars with
  | nil => rfl
  | cons e rest ih => exact ih _

theorem putAll_words (number : Nat) (isEnd : Bool) (chars words : Edges Node) (slots : Slots Node)
    (edges : Edges Node) :
    putAll (edges.map fun e => (.start e.1, e.2)) (mk number isEnd chars words slots) =
      mk number isEnd chars (edges.foldl (fun acc e => Edges.put e.1 e.2 acc) words) slots := by
  induction edges generalizing words with
  | nil => rfl
  | cons e rest ih => exact ih _

theorem putAll_slots (number : Nat) (isEnd : Bool) (chars words : Edges Node) (slots : Slots Node)
    (more : Slots Node) :
    putAll (more.map fun s => (.slot s.1, s.2)) (mk number isEnd chars words slots) =
      mk number isEnd chars words (more.foldl (fun acc s => Slots.put s.1 s.2 acc) slots) := by
  induction more generalizing slots with
  | nil => rfl
  | cons s rest ih => exact ih _

theorem putAll_arcs (h : n.Ordered) (number : Nat) : putAll n.arcs (mk number n.isEnd [] [] []) =
    mk number n.isEnd n.chars n.words n.slots := by
  rw [arcs, putAll, List.foldl_append, List.foldl_append]
  change putAll _ (putAll _ (putAll _ _)) = _
  rw [putAll_chars, putAll_words, putAll_slots, Edges.foldl_put, Edges.foldl_put, Slots.foldl_put]
  · rfl
  · exact h.slots
  · exact h.words
  · exact h.chars

theorem child?_put (h : n.Ordered) (hm : m.Ordered) : (n.put l m).child? l = some m :=
  (child?_eq_some_iff (h.put hm)).2 ((arc_put h).2 (.inl ⟨rfl, rfl⟩))

theorem child?_put_ne (h : n.Ordered) (hm : m.Ordered) {k : Label} (hk : k ≠ l) :
    (n.put l m).child? k = n.child? k := by
  refine Option.ext fun m' => ?_
  rw [child?_eq_some_iff (h.put hm), child?_eq_some_iff h, arc_put h]
  simp [hk]

theorem insert_put (h : n.Ordered) (hm : m.Ordered) : insert (l :: path) next (n.put l m) =
    (n.put l (insert path next m).1, (insert path next m).2) := by
  simp only [insert, child?_put h hm, put_put]

theorem insertAll_put (h : n.Ordered) (hm : m.Ordered) :
    insertAll (paths.map (l :: ·)) next (n.put l m) =
      (n.put l (insertAll paths next m).1, (insertAll paths next m).2) := by
  induction paths generalizing m next with
  | nil => rfl
  | cons path paths ih =>
    rw [List.map_cons, insertAll_cons, insert_put h hm, ih hm.insert, insertAll_cons]

theorem insertAll_map_cons (h : n.Ordered) (hne : paths ≠ []) :
    insertAll (paths.map (l :: ·)) next n =
      (n.put l (insertAll paths (n.entered l next).2 (n.entered l next).1).1,
        (insertAll paths (n.entered l next).2 (n.entered l next).1).2) := by
  obtain ⟨path, rest, rfl⟩ := List.exists_cons_of_ne_nil hne
  rw [List.map_cons, insertAll_cons, insert_cons, insert_cons_snd,
    insertAll_put h h.entered.insert, insertAll_cons]

theorem mirrors_putAll (hmirrors : n.Mirrors id n') (h : n'.Ordered)
    (hlabels : (arcs.map Prod.fst).Nodup) (hnew : ∀ a ∈ arcs, n'.child? a.1 = none)
    (hlive : ∀ a ∈ arcs, a.2.paths ≠ [])
    (hbelow : ∀ a ∈ arcs, ∀ next k, a.2.Mirrors id (insertAll a.2.paths next (fresh k)).1) :
    (putAll arcs n).Mirrors id
      (insertAll (arcs.flatMap fun a => a.2.paths.map (a.1 :: ·)) next n').1 := by
  induction arcs generalizing n n' next with
  | nil => exact hmirrors
  | cons a rest ih =>
    obtain ⟨hhead, hlabels⟩ := List.nodup_cons.1 hlabels
    rw [List.forall_mem_cons] at hnew hlive hbelow
    have hentered : n'.entered a.1 next = (fresh next, next + 1) := by rw [entered, hnew.1]
    have hfirst := @insertAll_map_cons n' a.1 a.2.paths next h hlive.1
    rw [hentered] at hfirst
    have hmade := hbelow.1 (next + 1) next
    have hordered : (insertAll a.2.paths (next + 1) (fresh next)).1.Ordered :=
      (ordered_fresh next).insertAll
    rw [List.flatMap_cons, insertAll_append, hfirst]
    have hput := hmirrors.put Function.injective_id (l := a.1) hmade
    rw [Label.renumber_id] at hput
    refine ih hput (h.put hordered) hlabels ?_ hlive.2 hbelow.2
    intro b hb
    have hne : b.1 ≠ a.1 := fun heq => hhead (heq ▸ List.mem_map_of_mem hb)
    rw [child?_put_ne h hordered hne]
    exact hnew.2 b hb

theorem mirrors_insertAll_paths (h : n.Ordered) (hg : n.Grown) (next k : Nat) :
    n.Mirrors id (insertAll n.paths next (fresh k)).1 := by
  induction n using arc_induction generalizing next k with
  | step n ih =>
    -- The empty path marks the end and makes no step, so the steps are put in where none is yet.
    have hstart : ∃ next', insertAll (if n.isEnd then [[]] else []) next (fresh k) =
        (mk k n.isEnd [] [] [], next') := by
      cases n.isEnd
      · exact ⟨next, rfl⟩
      · exact ⟨next, rfl⟩
    obtain ⟨next', hstart⟩ := hstart
    have hordered : (mk k n.isEnd [] [] []).Ordered := by
      have hall : (insertAll (if n.isEnd then [[]] else []) next (fresh k)).1.Ordered :=
        (ordered_fresh k).insertAll
      rwa [hstart] at hall
    rw [paths_eq, insertAll_append, hstart]
    have hall := @mirrors_putAll _ _ next' n.arcs rfl hordered h.labels_nodup ?_ ?_ ?_
    · rw [putAll_arcs h] at hall
      cases n
      exact hall
    · intro a _
      cases a.1 <;> rfl
    · exact fun a ha => hg.live (mem_arcs_iff.1 ha)
    · intro a ha
      have harc := mem_arcs_iff.1 ha
      exact ih a.1 a.2 harc (h.arc harc) (hg.arc harc)

end Node
end Phrasebook
