import Mathlib.Data.List.Induction
import Phrasebook.Proofs.Trie.Search

/-!
Edges filed one by one. Where a label belongs is found by halving what is left of the list, down to
one edge; the new edge replaces the one with its label or is put in between. On the lists that are
made in this way the search keeps to the order it relies on, and looking a label up, by a scan or by
halving, gives what was filed under it last.
-/

namespace Phrasebook.Edges

variable {α : Type} {c : Char} {a : α} {e : Char × α} {edges before after : Edges α}
  {base size : Nat}

def narrow (c : Char) (edges : Edges α) (base size : Nat) : Nat :=
  if size ≤ 1 then base
  else
    let middle := base + size / 2
    narrow c edges (if edges[middle]?.any fun e => c < e.1 then base else middle) (size - size / 2)
termination_by size

def seek (c : Char) (edges : Edges α) : Except Nat Nat :=
  let base := narrow c edges 0 edges.length
  match edges[base]? with
  | none => .error base
  | some e => if e.1 = c then .ok base else .error (if e.1 < c then base + 1 else base)

def file (c : Char) (target : α) (edges : Edges α) : Edges α :=
  match seek c edges with
  | .ok i => edges.set i (c, target)
  | .error i => edges.insertIdx i (c, target)

def fetch (c : Char) (edges : Edges α) : Option α :=
  match seek c edges with
  | .ok i => edges[i]?.map (·.2)
  | .error _ => none

def look (c : Char) (edges : Edges α) : Option α :=
  if edges.length < scanLimit then scan c edges else fetch c edges

def filed (puts : List (Char × α)) : Edges α := puts.foldl (fun edges e => file e.1 e.2 edges) []

structure Within (c : Char) (edges : Edges α) (base size : Nat) : Prop where
  fits : base + size ≤ edges.length
  low : base = 0 ∨ ∀ e, edges[base]? = some e → e.1 ≤ c
  high : ∀ i e, base + size ≤ i → edges[i]? = some e → c < e.1

theorem Sorted.lt (h : Sorted edges) {i j : Nat} {d e : Char × α} (hij : i < j)
    (hi : edges[i]? = some d) (hj : edges[j]? = some e) : d.1 < e.1 := by
  obtain ⟨hilt, rfl⟩ := List.getElem?_eq_some_iff.1 hi
  obtain ⟨hjlt, rfl⟩ := List.getElem?_eq_some_iff.1 hj
  exact List.pairwise_iff_getElem.1 h i j hilt hjlt hij

theorem Within.halve (hs : Sorted edges) (h : Within c edges base size) (hsize : 1 < size) :
    Within c edges (if edges[base + size / 2]?.any fun e => c < e.1 then base else base + size / 2)
      (size - size / 2) := by
  have hfits := h.fits
  obtain ⟨m, hm⟩ : ∃ m, edges[base + size / 2]? = some m :=
    ⟨_, List.getElem?_eq_getElem (by omega)⟩
  rw [hm, Option.any_some]
  by_cases hlt : c < m.1
  · rw [if_pos (by simpa using hlt)]
    refine ⟨by omega, h.low, fun i e hi he => ?_⟩
    rcases Nat.lt_or_eq_of_le (show base + size / 2 ≤ i by omega) with hmi | rfl
    · exact Char.lt_trans hlt (hs.lt hmi hm he)
    · rw [hm] at he
      cases he
      exact hlt
  · rw [if_neg (by simpa using hlt)]
    refine ⟨by omega, .inr fun e he => ?_, fun i e hi he => h.high i e (by omega) he⟩
    rw [hm] at he
    cases he
    exact Char.not_lt.1 hlt

theorem Within.narrow (hs : Sorted edges) (h : Within c edges base size) (hsize : 0 < size) :
    Within c edges (narrow c edges base size) 1 := by
  induction size using Nat.strongRecOn generalizing base with
  | ind size ih =>
    rw [Edges.narrow]
    by_cases hone : size ≤ 1
    · rw [if_pos hone]
      rwa [show size = 1 by omega] at h
    · rw [if_neg hone]
      exact ih _ (by omega) (h.halve hs (by omega)) (by omega)

/-- A search tells the edge with the label, or where all smaller labels are before and all greater
ones behind. -/
inductive Seeks (c : Char) : Edges α → Except Nat Nat → Prop
  | found (before after : Edges α) (a : α) : Seeks c (before ++ (c, a) :: after) (.ok before.length)
  | missing {before after : Edges α} (low : ∀ e ∈ before, e.1 < c) (high : ∀ e ∈ after, c < e.1) :
      Seeks c (before ++ after) (.error before.length)

theorem seeks_between {i : Nat} (hi : i ≤ edges.length)
    (hlow : ∀ j e, j < i → edges[j]? = some e → e.1 < c)
    (hhigh : ∀ j e, i ≤ j → edges[j]? = some e → c < e.1) : Seeks c edges (.error i) := by
  have hmissing : Seeks c (edges.take i ++ edges.drop i) (.error (edges.take i).length) := by
    refine .missing (fun e he => ?_) fun e he => ?_
    · obtain ⟨j, hj⟩ := List.mem_iff_getElem?.1 he
      rw [List.getElem?_take] at hj
      split_ifs at hj with hji
      exact hlow j e hji hj
    · obtain ⟨j, hj⟩ := List.mem_iff_getElem?.1 he
      rw [List.getElem?_drop] at hj
      exact hhigh (i + j) e (Nat.le_add_right i j) hj
  rwa [List.take_append_drop, List.length_take_of_le hi] at hmissing

theorem seeks_of_getElem? {i : Nat} (hi : edges[i]? = some (c, a)) : Seeks c edges (.ok i) := by
  obtain ⟨hlt, heq⟩ := List.getElem?_eq_some_iff.1 hi
  have hfound := Seeks.found (c := c) (edges.take i) (edges.drop (i + 1)) a
  rwa [← heq, List.getElem_cons_drop, List.take_append_drop,
    List.length_take_of_le (Nat.le_of_lt hlt)] at hfound

theorem Within.seeks (hs : Sorted edges) (h : Within c edges base 1) (he : edges[base]? = some e) :
    Seeks c edges
      (if e.1 = c then .ok base else .error (if e.1 < c then base + 1 else base)) := by
  by_cases heq : e.1 = c
  · subst heq
    rw [if_pos rfl]
    exact seeks_of_getElem? he
  · rw [if_neg heq]
    by_cases hlt : e.1 < c
    · rw [if_pos hlt]
      refine seeks_between h.fits (fun j d hj hd => ?_) h.high
      rcases Nat.lt_or_eq_of_le (Nat.le_of_lt_succ hj) with hj | rfl
      · exact Char.lt_trans (hs.lt hj hd he) hlt
      · rw [he] at hd
        cases hd
        exact hlt
    · have hgt : c < e.1 := Std.lt_of_le_of_ne (Char.not_lt.1 hlt) (Ne.symm heq)
      -- A label greater than this one is left over only at the start of the list.
      obtain rfl := h.low.resolve_right fun hlow => Char.not_lt.2 (hlow _ he) hgt
      rw [if_neg hlt]
      refine seeks_between (Nat.zero_le _) (fun j d hj _ => absurd hj (Nat.not_lt_zero j)) ?_
      intro j d _ hd
      rcases Nat.eq_zero_or_pos j with rfl | hj
      · rw [he] at hd
        cases hd
        exact hgt
      · exact Char.lt_trans hgt (hs.lt hj he hd)

theorem seeks_seek (hs : Sorted edges) (c : Char) : Seeks c edges (seek c edges) := by
  rw [seek]
  by_cases hnil : edges = []
  · subst hnil
    have hnarrow : Edges.narrow c ([] : Edges α) 0 0 = 0 := by
      rw [Edges.narrow]
      rfl
    rw [List.length_nil, hnarrow]
    exact seeks_between (Nat.le_refl 0) (by simp) (by simp)
  · have hbehind : ∀ i e, 0 + edges.length ≤ i → edges[i]? = some e → c < e.1 := by
      intro i e hi he
      rw [List.getElem?_eq_none (by omega)] at he
      cases he
    have h : Within c edges (Edges.narrow c edges 0 edges.length) 1 :=
      Within.narrow hs ⟨by omega, .inl rfl, hbehind⟩ (List.length_pos_iff.2 hnil)
    have he := List.getElem?_eq_getElem h.fits
    have hsought := h.seeks hs he
    rw [he]
    exact hsought

theorem put_append (hlow : ∀ e ∈ before, e.1 < c) (a : α) (after : Edges α) :
    put c a (before ++ after) = before ++ put c a after := by
  induction before with
  | nil => rfl
  | cons d before ih =>
    obtain ⟨hd, hbefore⟩ := List.forall_mem_cons.1 hlow
    rw [List.cons_append, put, if_neg (Char.lt_asymm hd), if_neg (Char.ne_of_lt hd).symm, ih hbefore,
      List.cons_append]

theorem put_of_high (hhigh : ∀ e ∈ after, c < e.1) (a : α) : put c a after = (c, a) :: after := by
  cases after with
  | nil => rfl
  | cons e after => rw [put, if_pos (hhigh e List.mem_cons_self)]

theorem insertIdx_append (before after : Edges α) (e : Char × α) :
    (before ++ after).insertIdx before.length e = before ++ e :: after := by
  induction before with
  | nil => rfl
  | cons d before ih => rw [List.cons_append, List.length_cons, List.insertIdx_succ_cons, ih,
      List.cons_append]

theorem file_eq_put (hs : Sorted edges) (c : Char) (a : α) : file c a edges = put c a edges := by
  have h := seeks_seek hs c
  rw [file]
  generalize seek c edges = r at h
  cases h with
  | found before after b =>
    obtain ⟨-, -, hlow⟩ := List.pairwise_append.1 hs
    have hput : put c a ((c, b) :: after) = (c, a) :: after := by
      rw [put, if_neg (Char.lt_irrefl c), if_pos rfl]
    rw [put_append (fun e he => hlow e he _ List.mem_cons_self), hput]
    simp
  | @missing before after low high =>
    rw [put_append low, put_of_high high]
    exact insertIdx_append before after (c, a)

theorem fetch_eq_some_iff (hs : Sorted edges) : fetch c edges = some a ↔ (c, a) ∈ edges := by
  have h := seeks_seek hs c
  rw [fetch]
  generalize seek c edges = r at h
  cases h with
  | found before after b =>
    have hb : (c, b) ∈ before ++ (c, b) :: after :=
      List.mem_append_right before List.mem_cons_self
    have hfetched : (before ++ (c, b) :: after)[before.length]?.map (·.2) = some b := by simp
    dsimp only
    rw [hfetched]
    constructor
    · intro heq
      cases heq
      exact hb
    · intro ha
      rw [hs.unique hb ha]
  | missing low high =>
    refine ⟨nofun, fun hmem => ?_⟩
    rcases List.mem_append.1 hmem with hmem | hmem
    · exact absurd (low _ hmem) (Char.lt_irrefl c)
    · exact absurd (high _ hmem) (Char.lt_irrefl c)

theorem find?_put (hs : Sorted edges) (b : Char) (a : α) (c : Char) :
    find? c (put b a edges) = if c = b then some a else find? c edges := by
  apply Option.ext
  intro a'
  rw [find?_eq_some_iff (sorted_put hs), mem_put_iff hs]
  by_cases hc : c = b
  · simp [hc, eq_comm]
  · rw [if_neg hc, find?_eq_some_iff hs]
    simp [hc]

theorem filed_concat (puts : List (Char × α)) (e : Char × α) :
    filed (puts ++ [e]) = file e.1 e.2 (filed puts) := List.foldl_append

theorem sorted_filed (puts : List (Char × α)) : Sorted (filed puts) := by
  induction puts using List.reverseRecOn with
  | nil => exact .nil
  | append_singleton puts e ih =>
    rw [filed_concat, file_eq_put ih]
    exact sorted_put ih

theorem filed_eq (puts : List (Char × α)) :
    filed puts = puts.foldl (fun edges e => put e.1 e.2 edges) [] := by
  induction puts using List.reverseRecOn with
  | nil => rfl
  | append_singleton puts e ih =>
    rw [filed_concat, file_eq_put (sorted_filed puts), ih, List.foldl_append]
    rfl

theorem find?_filed (puts : List (Char × α)) (c : Char) :
    find? c (filed puts) = puts.reverse.lookup c := by
  induction puts using List.reverseRecOn with
  | nil => rfl
  | append_singleton puts e ih =>
    rw [filed_concat, file_eq_put (sorted_filed puts), find?_put (sorted_filed puts), ih,
      List.reverse_concat, List.lookup_cons]
    by_cases hc : c = e.1
    · simp [hc]
    · rw [if_neg hc, beq_false_of_ne hc]

theorem scan_eq_find? (hs : Sorted edges) (c : Char) : scan c edges = find? c edges :=
  Option.ext fun _ => (scan_eq_some_iff hs).trans (find?_eq_some_iff hs).symm

theorem fetch_eq_find? (hs : Sorted edges) (c : Char) : fetch c edges = find? c edges :=
  Option.ext fun _ => (fetch_eq_some_iff hs).trans (find?_eq_some_iff hs).symm

/-- However many edges there are, each search gives what was filed under the label last. -/
theorem look_filed (puts : List (Char × α)) : Sorted (filed puts) ∧
    filed puts = puts.foldl (fun edges e => put e.1 e.2 edges) [] ∧
    ∀ c, look c (filed puts) = puts.reverse.lookup c ∧ find? c (filed puts) = puts.reverse.lookup c ∧
      scan c (filed puts) = fetch c (filed puts) ∧
      (look c (filed puts) = none ↔ ∀ a, (c, a) ∉ puts) := by
  have hs := sorted_filed puts
  refine ⟨hs, filed_eq puts, fun c => ?_⟩
  have hscan := (scan_eq_find? hs c).trans (find?_filed puts c)
  have hfetch := (fetch_eq_find? hs c).trans (find?_filed puts c)
  have hlook : look c (filed puts) = puts.reverse.lookup c := by
    rw [look, hscan, hfetch, ite_self]
  refine ⟨hlook, find?_filed puts c, hscan.trans hfetch.symm, ?_⟩
  rw [hlook, List.lookup_eq_none_iff]
  constructor
  · intro h a hmem
    simpa using h _ (List.mem_reverse.2 hmem)
  · intro h e he
    rw [bne_iff_ne]
    rintro rfl
    exact h e.2 (List.mem_reverse.1 he)

/-- More edges than are scanned; the label filed twice leads where it was filed to last. -/
example : let edges := filed "abcdefghijklmnopqa".toList.zipIdx
    scanLimit < edges.length ∧ look 'a' edges = some 17 ∧ look 'q' edges = some 16 ∧
      look 'z' edges = none := by cbv

end Phrasebook.Edges
