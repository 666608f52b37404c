import Mathlib.Data.List.Basic

/-!
# Partial actions that commute

A list of actions runs over a state; an action may fail, and then the run does.
Every action has a key.  When actions of different keys commute, a run depends
only on the order of the actions of each key.

* `Reordering`: two lists with the same order within every key;
* `Reordering.cons`: the head of one list can be cut out of the other;
* `foldlM_front`: an action moves to the front of a run;
* `foldlM_reorder`: reordered runs are equal.
-/

namespace DataCommons.Commuting

variable {α κ σ : Type*}

/-- The same actions of every key, in the same order. -/
def Reordering [DecidableEq κ] (key : α → κ) (l l' : List α) : Prop :=
  ∀ k, l.filter (key · = k) = l'.filter (key · = k)

/-- The two orders of actions with different keys end alike. -/
def Commute (key : α → κ) (act : σ → α → Option σ) : Prop :=
  ∀ s a b, key a ≠ key b → (act s a).bind (act · b) = (act s b).bind (act · a)

namespace Reordering

variable [DecidableEq κ] {key : α → κ} {l l' : List α}

theorem mem_iff (h : Reordering key l l') {a : α} : a ∈ l ↔ a ∈ l' := by
  have hfilter : ∀ m : List α, a ∈ m ↔ a ∈ m.filter (key · = key a) := fun m => by
    simp [List.mem_filter]
  rw [hfilter l, hfilter l', h (key a)]

theorem nil (h : Reordering key [] l') : l' = [] :=
  List.eq_nil_iff_forall_not_mem.mpr fun _ ha => List.not_mem_nil (h.mem_iff.mpr ha)

/-- The head of one list is the first of its key in the other, and what is left of both
is reordered too. -/
theorem cons {a : α} (h : Reordering key (a :: l) l') :
    ∃ p q, l' = p ++ a :: q ∧ (∀ b ∈ p, key b ≠ key a) ∧ Reordering key l (p ++ q) := by
  have hkey := h (key a)
  rw [List.filter_cons_of_pos (by simp)] at hkey
  obtain ⟨p, q, rfl, hp, -, -⟩ := List.filter_eq_cons_iff.mp hkey.symm
  have hne : ∀ b ∈ p, key b ≠ key a := fun b hb => by simpa using hp b hb
  refine ⟨p, q, rfl, hne, fun k => ?_⟩
  have hk := h k
  rw [List.filter_append] at hk ⊢
  by_cases hak : key a = k
  · have hnil : p.filter (key · = k) = [] :=
      List.filter_eq_nil_iff.mpr fun b hb => by simpa [← hak] using hne b hb
    rw [List.filter_cons_of_pos (by simpa using hak), List.filter_cons_of_pos (by simpa using hak),
      hnil, List.nil_append] at hk
    rw [hnil, List.nil_append]
    exact (List.cons.inj hk).2
  · rw [List.filter_cons_of_neg (by simpa using hak),
      List.filter_cons_of_neg (by simpa using hak)] at hk
    exact hk

end Reordering

variable {key : α → κ} {act : σ → α → Option σ}

/-- An action moves in front of actions of other keys. -/
theorem foldlM_front (hcomm : Commute key act) {a : α} {p : List α}
    (hp : ∀ b ∈ p, key b ≠ key a) (q : List α) (s : σ) :
    (p ++ a :: q).foldlM act s = (a :: (p ++ q)).foldlM act s := by
  induction p generalizing s with
  | nil => rfl
  | cons b p ih =>
    have hb := hp b List.mem_cons_self
    have ih := ih fun c hc => hp c (List.mem_cons_of_mem _ hc)
    calc (b :: p ++ a :: q).foldlM act s
        = (act s b).bind fun t => (p ++ a :: q).foldlM act t := rfl
      _ = (act s b).bind fun t => (act t a).bind fun u => (p ++ q).foldlM act u := by
          simp only [ih, List.foldlM_cons, Option.bind_eq_bind]
      _ = ((act s b).bind (act · a)).bind fun u => (p ++ q).foldlM act u := by
          rw [Option.bind_assoc]
      _ = ((act s a).bind (act · b)).bind fun u => (p ++ q).foldlM act u := by
          rw [hcomm s b a hb]
      _ = (a :: (b :: p ++ q)).foldlM act s := by
          rw [Option.bind_assoc]
          rfl

/-- **Reordered runs are equal.** -/
theorem foldlM_reorder [DecidableEq κ] (hcomm : Commute key act) {l l' : List α} (h : Reordering key l l')
    (s : σ) : l.foldlM act s = l'.foldlM act s := by
  induction l generalizing l' s with
  | nil => rw [h.nil]
  | cons a l ih =>
    obtain ⟨p, q, rfl, hp, hrest⟩ := h.cons
    rw [foldlM_front hcomm hp, List.foldlM_cons, List.foldlM_cons]
    simp only [ih hrest]

end DataCommons.Commuting
