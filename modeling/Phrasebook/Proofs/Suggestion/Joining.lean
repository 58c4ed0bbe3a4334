import Phrasebook.Suggestion

/-!
Joining suggestions. Only the two segments at the joint are touched: letters go on with a word before
them, all else stays as it is. So joining is associative, with the suggestion that says nothing as its
unit, and a joined suggestion reads as the first one and then the second.
-/

namespace Phrasebook.Suggestion

variable {x y z : Segment} {xs ys zs : List Segment}

theorem nil_joinSegments (ys : List Segment) : joinSegments [] ys = ys := by
  cases ys <;> rfl

theorem joinSegments_cons_cons (x y : Segment) (xs other : List Segment) :
    joinSegments (x :: y :: xs) other = x :: joinSegments (y :: xs) other := by
  rw [joinSegments] <;> simp

theorem joinSegments_eq_append (h : ∀ b rest, ys ≠ .text b :: rest) :
    joinSegments xs ys = xs ++ ys := by
  fun_induction joinSegments xs ys with
  | case1 a b rest => exact absurd rfl (h b rest)
  | case2 a b rest => exact absurd rfl (h b rest)
  | case3 other => rfl
  | case4 x xs other _ _ ih => rw [ih h, List.cons_append]

theorem joinSegments_nil (xs : List Segment) : joinSegments xs [] = xs := by
  rw [joinSegments_eq_append (by simp), List.append_nil]

theorem joinSegments_eq_nil_iff : joinSegments xs ys = [] ↔ xs = [] ∧ ys = [] := by
  fun_induction joinSegments xs ys with
  | case1 a b rest => simp
  | case2 a b rest => simp
  | case3 other => simp
  | case4 x xs other _ _ _ => simp

theorem append_joinSegments (xs zs : List Segment) (hys : ys ≠ []) :
    joinSegments (xs ++ ys) zs = xs ++ joinSegments ys zs := by
  induction xs with
  | nil => rfl
  | cons x xs ih =>
    obtain ⟨y, rest, hrest⟩ := List.exists_cons_of_ne_nil (List.append_ne_nil_of_right_ne_nil xs hys)
    rw [hrest] at ih
    rw [List.cons_append, hrest, joinSegments_cons_cons, ih, List.cons_append]

theorem joinSegments_append (xs zs : List Segment) (hys : ys ≠ []) :
    joinSegments xs (ys ++ zs) = joinSegments xs ys ++ zs := by
  obtain ⟨y, ys, rfl⟩ := List.exists_cons_of_ne_nil hys
  induction xs with
  | nil => rw [nil_joinSegments, nil_joinSegments]
  | cons x xs ih =>
    cases xs with
    | nil => cases x <;> cases y <;> rfl
    | cons x' xs => rw [joinSegments_cons_cons, joinSegments_cons_cons, ih, List.cons_append]

theorem joinSegments_three (x y z : Segment) :
    joinSegments (joinSegments [x] [y]) [z] = joinSegments [x] (joinSegments [y] [z]) := by
  cases x <;> cases y <;> cases z <;> simp [joinSegments, String.append_assoc]

theorem joinSegments_singleton_ne_nil (x y : Segment) : joinSegments [x] [y] ≠ [] :=
  fun hnil => List.cons_ne_nil x [] (joinSegments_eq_nil_iff.1 hnil).1

theorem joinSegments_between (x y : Segment) (zs : List Segment) :
    joinSegments (joinSegments [x] [y]) zs = joinSegments [x] (joinSegments [y] zs) := by
  cases zs with
  | nil => rw [joinSegments_nil, joinSegments_nil]
  | cons z zs =>
    have hz : [z] ≠ [] := List.cons_ne_nil z []
    calc joinSegments (joinSegments [x] [y]) ([z] ++ zs)
        = joinSegments (joinSegments [x] [y]) [z] ++ zs := joinSegments_append _ zs hz
      _ = joinSegments [x] (joinSegments [y] [z]) ++ zs := by rw [joinSegments_three]
      _ = joinSegments [x] (joinSegments [y] [z] ++ zs) :=
          (joinSegments_append [x] zs (joinSegments_singleton_ne_nil y z)).symm
      _ = joinSegments [x] (joinSegments [y] ([z] ++ zs)) := by rw [joinSegments_append [y] zs hz]

theorem joinSegments_middle (xs zs : List Segment) (y : Segment) :
    joinSegments (joinSegments xs [y]) zs = joinSegments xs (joinSegments [y] zs) := by
  rcases List.eq_nil_or_concat xs with rfl | ⟨xs, x, rfl⟩
  · rw [nil_joinSegments, nil_joinSegments]
  · have hx : [x] ≠ [] := List.cons_ne_nil x []
    rw [List.concat_eq_append, append_joinSegments xs [y] hx, append_joinSegments xs _ hx,
      append_joinSegments xs zs (joinSegments_singleton_ne_nil x y), joinSegments_between]

theorem joinSegments_assoc (xs ys zs : List Segment) :
    joinSegments (joinSegments xs ys) zs = joinSegments xs (joinSegments ys zs) := by
  match ys with
  | [] => rw [joinSegments_nil, nil_joinSegments]
  | [y] => exact joinSegments_middle xs zs y
  | y :: y' :: ys =>
    -- The joints are apart, so each is made whether or not the other one is.
    have hrest : y' :: ys ≠ [] := List.cons_ne_nil y' ys
    calc joinSegments (joinSegments xs ([y] ++ (y' :: ys))) zs
        = joinSegments (joinSegments xs [y] ++ (y' :: ys)) zs := by
          rw [joinSegments_append xs _ (List.cons_ne_nil y [])]
      _ = joinSegments xs [y] ++ joinSegments (y' :: ys) zs := append_joinSegments _ zs hrest
      _ = joinSegments xs ([y] ++ joinSegments (y' :: ys) zs) :=
          (joinSegments_append xs _ (List.cons_ne_nil y [])).symm
      _ = joinSegments xs (joinSegments ([y] ++ (y' :: ys)) zs) := by
          rw [append_joinSegments [y] zs hrest]

theorem empty_concat (a : Suggestion) : ({} : Suggestion).concat a = a := by
  simp only [concat, nil_joinSegments]
  rfl

theorem concat_empty (a : Suggestion) : a.concat {} = a := by
  obtain ⟨stem, segments⟩ := a
  cases stem <;> simp [concat, joinSegments_nil]

theorem concat_assoc (a b c : Suggestion) : (a.concat b).concat c = a.concat (b.concat c) := by
  simp only [concat, joinSegments_assoc]
  cases a.stem <;> rfl

theorem join_render_joinSegments (xs ys : List Segment) :
    String.join ((joinSegments xs ys).map Segment.render) =
      String.join (xs.map Segment.render) ++ String.join (ys.map Segment.render) := by
  fun_induction joinSegments xs ys with
  | case1 a b rest => simp [Segment.render, String.join_cons, String.append_assoc]
  | case2 a b rest => simp [Segment.render, String.join_cons, String.append_assoc]
  | case3 other => simp
  | case4 x xs other _ _ ih => simp [String.join_cons, ih, String.append_assoc]

theorem render_concat (a b : Suggestion) : (a.concat b).render = a.render ++ b.render :=
  join_render_joinSegments a.segments b.segments

/-- The suggestions are a monoid under joining, and its texts go along. -/
theorem concat_laws (a b c : Suggestion) :
    (a.concat b).concat c = a.concat (b.concat c) ∧
    ({} : Suggestion).concat a = a ∧ a.concat {} = a ∧
    (a.concat b).render = a.render ++ b.render :=
  ⟨concat_assoc a b c, empty_concat a, concat_empty a, render_concat a b⟩

end Phrasebook.Suggestion
