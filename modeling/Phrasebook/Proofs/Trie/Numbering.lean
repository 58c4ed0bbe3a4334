import Mathlib.Data.List.Range
import Phrasebook.Proofs.Trie.Arcs

/-!
The numbers of the positions of a tree. Storing a path keeps every number and gives the positions it
makes the numbers that come next, so the numbers of a tree grow by a range. They rise from each
position to the next, and below each position some path ends.
-/

namespace Phrasebook.Node

variable {n m : Node} {l : Label} {path : List Label} {next : Nat} {e : Entry}

def descendants (n : Node) : List (Entry × Node) := n.arcs.flatMap fun a => a.2.positions a.1.entry

def numbers (n : Node) : List Nat := n.number :: n.descendants.map fun x => x.2.number

theorem positions_eq_cons (e : Entry) (n : Node) : n.positions e = (e, n) :: n.descendants :=
  positions_eq e n

theorem map_number_positions (e : Entry) (n : Node) :
    (n.positions e).map (fun x => x.2.number) = n.numbers := by
  rw [positions_eq_cons, List.map_cons, numbers]

theorem numbers_eq (n : Node) : n.numbers = n.number :: n.arcs.flatMap fun a => a.2.numbers := by
  rw [numbers, descendants, List.map_flatMap]
  simp only [map_number_positions]

theorem number_mem_numbers : n.number ∈ n.numbers := by
  simp [numbers]

theorem mem_numbers_of_arc (h : n.Arc l m) {i : Nat} (hi : i ∈ m.numbers) : i ∈ n.numbers := by
  rw [numbers_eq]
  exact List.mem_cons_of_mem _ (List.mem_flatMap.2 ⟨(l, m), mem_arcs_iff.2 h, hi⟩)

theorem number_put : (n.put l m).number = n.number := by
  cases n; cases l <;> rfl

theorem number_markEnd : n.markEnd.number = n.number := by
  cases n; rfl

theorem arcs_markEnd : n.markEnd.arcs = n.arcs := by
  cases n; rfl

theorem numbers_markEnd : n.markEnd.numbers = n.numbers := by
  rw [numbers_eq, numbers_eq n, number_markEnd, arcs_markEnd]

theorem number_insert : (insert path next n).1.number = n.number := by
  cases path with
  | nil => exact number_markEnd
  | cons l path => rw [insert_cons, number_put]

theorem numbers_put (h : n.Ordered) (hm : m.Ordered) : (n.put l m).numbers.Perm
    (n.number :: (m.numbers ++ (n.arcs.filter fun a => a.1 ≠ l).flatMap fun a => a.2.numbers)) := by
  rw [numbers_eq, number_put]
  exact ((arcs_put h hm).flatMap_right _).cons _

theorem numbers_entered (h : n.Ordered) : ∃ k, (n.entered l next).2 = next + k ∧
    (n.number :: ((n.entered l next).1.numbers ++
      (n.arcs.filter fun a => a.1 ≠ l).flatMap fun a => a.2.numbers)).Perm
        (n.numbers ++ List.range' next k) := by
  rw [entered]
  cases hl : n.child? l with
  | none =>
    refine ⟨1, rfl, ?_⟩
    have hfresh : (fresh next).numbers = [next] := rfl
    dsimp only
    rw [filter_arcs_of_child?_eq_none h hl, hfresh, numbers_eq n]
    simp only [List.range'_one, List.cons_append, List.nil_append]
    exact (List.perm_append_singleton _ _).symm.cons _
  | some m =>
    refine ⟨0, rfl, ?_⟩
    dsimp only
    rw [List.range'_zero, List.append_nil, numbers_eq n]
    have harcs := (arcs_of_child? h hl).flatMap_right fun a => a.2.numbers
    exact harcs.symm.cons _

theorem insert_cons_snd : (insert (l :: path) next n).2 =
    (insert path (n.entered l next).2 (n.entered l next).1).2 := by
  rw [entered, insert]
  cases n.child? l <;> rfl

theorem numbers_insert (h : n.Ordered) : ∃ k, (insert path next n).2 = next + k ∧
    (insert path next n).1.numbers.Perm (n.numbers ++ List.range' next k) := by
  induction path generalizing n next with
  | nil => exact ⟨0, rfl, by simp [insert, numbers_markEnd]⟩
  | cons l path ih =>
    obtain ⟨k, hk, hentered⟩ := @numbers_entered n l next h
    obtain ⟨k', hk', hinner⟩ := @ih (n.entered l next).1 (n.entered l next).2 h.entered
    refine ⟨k + k', ?_, ?_⟩
    · rw [insert_cons_snd, hk', hk, Nat.add_assoc]
    · rw [insert_cons]
      refine (numbers_put h h.entered.insert).trans ?_
      have hsplit : List.range' next (k + k') = List.range' next k ++ List.range' (next + k) k' := by
        rw [List.range'_append_1]
      rw [hsplit, ← List.append_assoc]
      rw [← hk]
      refine ((hinner.append_right _).cons _).trans ?_
      refine List.Perm.trans ?_ (hentered.append_right _)
      simp only [List.cons_append, List.append_assoc]
      exact ((List.perm_append_comm).append_left _).cons _

/-- Below every position there is an end, and numbers rise on the way to it. -/
inductive Grown : Node → Prop
  | mk {n : Node} (rises : ∀ l m, n.Arc l m → n.number < m.number)
      (live : ∀ l m, n.Arc l m → m.paths ≠ []) (arcs : ∀ l m, n.Arc l m → Grown m) : Grown n

namespace Grown

theorem rises (h : n.Grown) (ha : n.Arc l m) : n.number < m.number := by
  cases h with
  | mk hrises _ _ => exact hrises l m ha

theorem live (h : n.Grown) (ha : n.Arc l m) : m.paths ≠ [] := by
  cases h with
  | mk _ hlive _ => exact hlive l m ha

theorem arc (h : n.Grown) (ha : n.Arc l m) : m.Grown := by
  cases h with
  | mk _ _ harcs => exact harcs l m ha

theorem fresh (number : Nat) : (fresh number).Grown := by
  have hnone : ∀ l m, ¬ (Node.fresh number).Arc l m := by
    intro l m ha
    have hmem := mem_arcs_iff.2 ha
    rw [arcs_fresh] at hmem
    cases hmem
  exact .mk (fun l m ha => absurd ha (hnone l m)) (fun l m ha => absurd ha (hnone l m))
    fun l m ha => absurd ha (hnone l m)

theorem markEnd (h : n.Grown) : n.markEnd.Grown := by
  refine .mk ?_ ?_ ?_
  · intro l m ha
    rw [number_markEnd]
    exact h.rises (arc_markEnd.1 ha)
  · exact fun l m ha => h.live (arc_markEnd.1 ha)
  · exact fun l m ha => h.arc (arc_markEnd.1 ha)

theorem put (h : n.Grown) (ho : n.Ordered) (hm : m.Grown) (hrises : n.number < m.number)
    (hlive : m.paths ≠ []) : (n.put l m).Grown := by
  refine .mk ?_ ?_ ?_
  · intro k m' ha
    rw [number_put]
    rcases (arc_put ho).1 ha with ⟨-, rfl⟩ | ⟨-, ha⟩
    · exact hrises
    · exact h.rises ha
  · intro k m' ha
    rcases (arc_put ho).1 ha with ⟨-, rfl⟩ | ⟨-, ha⟩
    · exact hlive
    · exact h.live ha
  · intro k m' ha
    rcases (arc_put ho).1 ha with ⟨-, rfl⟩ | ⟨-, ha⟩
    · exact hm
    · exact h.arc ha

theorem entered (h : n.Grown) (ho : n.Ordered) (hlt : ∀ i ∈ n.numbers, i < next) :
    (n.entered l next).1.Grown ∧ n.number < (n.entered l next).1.number ∧
      ∀ i ∈ (n.entered l next).1.numbers, i < (n.entered l next).2 := by
  rw [Node.entered]
  cases hl : n.child? l with
  | none =>
    refine ⟨fresh next, hlt _ number_mem_numbers, ?_⟩
    intro i hi
    have heq : i = next := List.mem_singleton.1 hi
    exact heq ▸ Nat.lt_succ_self next
  | some m =>
    have ha := (child?_eq_some_iff ho).1 hl
    exact ⟨h.arc ha, h.rises ha, fun i hi => hlt i (mem_numbers_of_arc ha hi)⟩

theorem insert (h : n.Grown) (ho : n.Ordered) (hlt : ∀ i ∈ n.numbers, i < next) :
    (insert path next n).1.Grown := by
  induction path generalizing n next with
  | nil => exact h.markEnd
  | cons l path ih =>
    obtain ⟨hentered, hrises, hbound⟩ := h.entered (l := l) ho hlt
    rw [insert_cons]
    refine h.put ho (ih hentered ho.entered hbound) ?_ ?_
    · rwa [number_insert]
    · exact List.ne_nil_of_mem ((mem_paths_insert ho.entered).2 (.inl rfl))

theorem follow (h : n.Grown) (ho : n.Ordered) (hlive : n.paths ≠ []) {s : List Char} {stop : Node}
    (hf : Node.follow s n = some stop) : stop.Grown ∧ stop.paths ≠ [] := by
  induction s generalizing n with
  | nil =>
    cases hf
    exact ⟨h, hlive⟩
  | cons c s ih =>
    obtain ⟨m, hm, hf⟩ := Option.bind_eq_some_iff.1 hf
    have ha : n.Arc (.more c) m := (Edges.find?_eq_some_iff ho.chars).1 hm
    exact ih (h.arc ha) (ho.arc ha) (h.live ha) hf

theorem spell (h : n.Grown) (ho : n.Ordered) {s : List Char} {stop : Node}
    (hs : Node.spell s n = some stop) : stop.Grown ∧ stop.paths ≠ [] := by
  cases s with
  | nil => cases hs
  | cons c s =>
    obtain ⟨m, hm, hf⟩ := Option.bind_eq_some_iff.1 hs
    have ha : n.Arc (.start c) m := (Edges.find?_eq_some_iff ho.words).1 hm
    exact (h.arc ha).follow (ho.arc ha) (h.live ha) hf

end Grown
end Phrasebook.Node
