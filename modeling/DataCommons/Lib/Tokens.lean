import Mathlib.Data.List.TakeWhile

/-!
# Splitting a string at separators

`s.splitOnP p` are the fields of `s` between single separators; `strtok p s` are the
tokens that `strtok_r` gives, for which neighbouring separators are one.

* `strtok_joined`, `strtok_intercalate`: tokens that were joined are found again;
* `strtok_eq_fields`: the tokens are the fields exactly if no field is empty.
-/

namespace DataCommons.CString

variable {α : Type} {p : α → Bool}

/-- The tokens that the calls of `strtok_r` with the separators `p` give. -/
def strtok (p : α → Bool) (s : List α) : List (List α) :=
  (s.splitOnP p).filter fun token => !token.isEmpty

theorem strtok_nil (p : α → Bool) : strtok p [] = [] := rfl

/-- A string without separators is one token, if there is anything in it. -/
theorem strtok_of_not_sep {t : List α} (h : ∀ c ∈ t, p c = false) (hne : t ≠ []) :
    strtok p t = [t] := by
  rw [strtok, List.splitOnP_eq_singleton h, List.filter_cons_of_pos, List.filter_nil]
  simpa using hne

theorem strtok_append_cons {t s : List α} {sep : α} (hsep : p sep = true) :
    strtok p (t ++ sep :: s) = strtok p t ++ strtok p s := by
  rw [strtok, List.splitOnP_append_cons t s hsep, List.filter_append]
  rfl

theorem strtok_cons {t s : List α} {sep : α} (h : ∀ c ∈ t, p c = false) (hne : t ≠ [])
    (hsep : p sep = true) : strtok p (t ++ sep :: s) = t :: strtok p s := by
  rw [strtok_append_cons hsep, strtok_of_not_sep h hne, List.singleton_append]

theorem strtok_joined {sep : α} (hsep : p sep = true) (ts : List (List α)) :
    strtok p (List.intercalate [sep] ts) = ts.flatMap (strtok p) := by
  induction ts with
  | nil => rfl
  | cons t ts ih =>
    cases ts with
    | nil => rw [List.intercalate_singleton, List.flatMap_singleton]
    | cons u ts =>
      rw [List.intercalate_cons_cons, List.append_assoc, List.singleton_append,
        strtok_append_cons hsep, ih]
      rfl

/-- **Joined tokens are found again.** -/
theorem strtok_intercalate {sep : α} (hsep : p sep = true) {ts : List (List α)}
    (h : ∀ t ∈ ts, t ≠ [] ∧ ∀ c ∈ t, p c = false) : strtok p (List.intercalate [sep] ts) = ts := by
  rw [strtok_joined hsep]
  induction ts with
  | nil => rfl
  | cons t ts ih =>
    obtain ⟨hne, ht⟩ := h t List.mem_cons_self
    rw [List.flatMap_cons, strtok_of_not_sep ht hne, List.singleton_append,
      ih fun u hu => h u (List.mem_cons_of_mem t hu)]

/-- A character of joined strings is the separator or from one of them. -/
theorem mem_intercalate {sep c : α} {ts : List (List α)} (h : c ∈ List.intercalate [sep] ts) :
    c = sep ∨ ∃ t ∈ ts, c ∈ t := by
  induction ts with
  | nil => simp at h
  | cons t ts ih =>
    cases ts with
    | nil => exact Or.inr ⟨t, List.mem_cons_self, by simpa using h⟩
    | cons u ts =>
      rw [List.intercalate_cons_cons, List.append_assoc, List.mem_append, List.singleton_append,
        List.mem_cons] at h
      rcases h with h | h | h
      · exact Or.inr ⟨t, List.mem_cons_self, h⟩
      · exact Or.inl h
      · rcases ih h with h | ⟨v, hv, hc⟩
        · exact Or.inl h
        · exact Or.inr ⟨v, List.mem_cons_of_mem t hv, hc⟩

/-- A string has at most one field more than it has characters. -/
theorem fields_length_le (p : α → Bool) (s : List α) : (s.splitOnP p).length ≤ s.length + 1 := by
  induction s with
  | nil => exact le_rfl
  | cons c s ih =>
    rw [List.splitOnP_cons_eq_if_modifyHead]
    split
    · exact Nat.succ_le_succ ih
    · rw [List.length_modifyHead, List.length_cons]
      omega

/-- **Fewer tokens than fields** where a field is empty. -/
theorem strtok_length_lt {s : List α} (h : [] ∈ s.splitOnP p) :
    (strtok p s).length < (s.splitOnP p).length := by
  rw [strtok]
  exact List.length_filter_lt_length_iff_exists.mpr ⟨[], h, by simp⟩

/-- **The tokens are the fields exactly if no field is empty.** -/
theorem strtok_eq_fields {s : List α} : strtok p s = s.splitOnP p ↔ [] ∉ s.splitOnP p := by
  rw [strtok, List.filter_eq_self]
  constructor
  · intro h hnil
    exact absurd (h [] hnil) (by simp)
  · intro h t ht
    have hne : t ≠ [] := fun e => h (e ▸ ht)
    simpa using hne

end DataCommons.CString
