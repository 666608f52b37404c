import Mathlib.Data.List.Basic

/-!
# Walking an array by index while it shrinks

A walk looks at the entry at position `i`, then at the one at position `i + 1`.  An entry
that meets `p` is removed when it has been looked at, and those behind it move down by one.

* `walk_entries`: a walk to the end looks at `visited`, which misses the entry behind a
  removed one;
* `filter_visited_eq_iff`: it misses none that meets `q` exactly if none of them stands
  directly behind a removed one.
-/

namespace DataCommons.ShiftingWalk

variable {α : Type*}

/-- The array behind a look at position `i`. -/
def after (p : α → Bool) (xs : List α) (i : ℕ) : List α :=
  if xs[i]?.any p then xs.eraseIdx i else xs

/-- `k` looks from position `i` on: the entries that they find. -/
def walk (p : α → Bool) (xs : List α) (i : ℕ) : ℕ → List α
  | 0 => []
  | k + 1 => xs[i]?.toList ++ walk p (after p xs i) (i + 1) k

/-- Every entry but those that move down behind the walk. -/
def visited (p : α → Bool) : List α → List α
  | [] => []
  | [x] => [x]
  | x :: y :: xs => if p x then x :: visited p xs else x :: visited p (y :: xs)

theorem visited_cons (p : α → Bool) (x : α) (xs : List α) :
    visited p (x :: xs) = x :: visited p (if p x then xs.tail else xs) := by
  cases xs with
  | nil => cases p x <;> rfl
  | cons y xs =>
    rw [visited]
    split <;> rfl

theorem after_of_none {p : α → Bool} {xs : List α} {i : ℕ} (h : xs[i]? = none) :
    after p xs i = xs := by
  rw [after, h]
  rfl

/-- The entries that the walk comes to next. -/
theorem after_drop {p : α → Bool} {xs : List α} {i : ℕ} {x : α} (h : xs[i]? = some x) :
    (after p xs i).drop (i + 1) = if p x then (xs.drop (i + 1)).tail else xs.drop (i + 1) := by
  have hany : xs[i]?.any p = p x := by rw [h, Option.any_some]
  rw [after, hany]
  split
  · refine List.ext_getElem? fun j => ?_
    rw [List.getElem?_drop, List.getElem?_eraseIdx_of_ge (by omega), List.getElem?_tail,
      List.getElem?_drop, Nat.add_assoc]
  · rfl

theorem after_length_le (p : α → Bool) (xs : List α) (i : ℕ) :
    (after p xs i).length ≤ xs.length := by
  rw [after]
  split
  · exact List.length_eraseIdx_le ..
  · exact Nat.le_refl _

/-- **What a walk to the end looks at.** -/
theorem walk_entries (p : α → Bool) (xs : List α) (i k : ℕ) (hk : xs.length ≤ i + k) :
    walk p xs i k = visited p (xs.drop i) := by
  induction k generalizing xs i with
  | zero =>
    rw [List.drop_of_length_le (by omega)]
    rfl
  | succ k ih =>
    have hlen := after_length_le p xs i
    rw [walk, ih (after p xs i) (i + 1) (by omega)]
    cases hx : xs[i]? with
    | none =>
      have hend : xs.length ≤ i := List.getElem?_eq_none_iff.mp hx
      rw [after_of_none hx, List.drop_of_length_le hend, List.drop_of_length_le (by omega)]
      rfl
    | some x =>
      have hdrop : xs.drop i = x :: xs.drop (i + 1) := by
        obtain ⟨hi, rfl⟩ := List.getElem?_eq_some_iff.mp hx
        exact List.drop_eq_getElem_cons hi
      rw [after_drop hx, hdrop, visited_cons]
      rfl

theorem visited_sublist (p : α → Bool) (xs : List α) : (visited p xs).Sublist xs := by
  induction xs using visited.induct p with
  | case1 => exact .slnil
  | case2 x => exact .refl _
  | case3 x y xs hp ih =>
    rw [visited, if_pos hp]
    exact (ih.cons y).cons_cons x
  | case4 x y xs hp ih =>
    rw [visited, if_neg hp]
    exact ih.cons_cons x

/-- **Nothing that meets `q` is missed exactly if** nothing that meets `q` stands directly
behind a removed entry. -/
theorem filter_visited_eq_iff {p q : α → Bool} (hpq : ∀ x, p x = true → q x = true)
    (xs : List α) :
    (visited p xs).filter q = xs.filter q ↔ xs.IsChain fun x y => p x = true → q y = false := by
  induction xs using visited.induct p with
  | case1 => exact iff_of_true rfl .nil
  | case2 x => exact iff_of_true rfl (.singleton x)
  | case3 x y xs hp ih =>
    rw [visited, if_pos hp, List.filter_cons_of_pos (hpq x hp), List.filter_cons_of_pos (hpq x hp),
      List.cons_inj_right, List.isChain_cons_cons]
    cases hq : q y with
    | true =>
      -- one more entry on the right
      refine iff_of_false (fun heq => ?_) fun h => Bool.noConfusion (h.1 hp)
      have hle := ((visited_sublist p xs).filter q).length_le
      rw [heq, List.filter_cons_of_pos hq, List.length_cons] at hle
      omega
    | false =>
      have hy : ¬ p y = true := fun hpy => Bool.false_ne_true (hq.symm.trans (hpq y hpy))
      rw [List.filter_cons_of_neg (by simp [hq]), ih, and_iff_right fun _ => rfl]
      cases xs with
      | nil => exact iff_of_true .nil (.singleton y)
      | cons z xs => rw [List.isChain_cons_cons, and_iff_right fun h => absurd h hy]
  | case4 x y xs hp ih =>
    have hkeep : (visited p (x :: y :: xs)).filter q = (x :: y :: xs).filter q ↔
        (visited p (y :: xs)).filter q = (y :: xs).filter q := by
      rw [visited, if_neg hp, List.filter_cons, @List.filter_cons _ x (y :: xs)]
      split
      · exact List.cons_inj_right x
      · exact Iff.rfl
    rw [hkeep, ih, List.isChain_cons_cons, and_iff_right fun h => absurd h hp]

end DataCommons.ShiftingWalk
