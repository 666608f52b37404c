import Mathlib.Data.List.Nodup
import Mathlib.Data.List.Perm.Basic
import Mathlib.Data.Nat.Notation

/-!
# Sequences of assignments

A record has a key and takes values; a sequence of assignments gives each record
whose key it names the values of that key, one after the other.

* `foldl_assign`: what is left is the last value of the key;
* `lastValue_of_mem`, `lastValue_perm`: without repeated keys it is the only value,
  and the order does not matter.
-/

namespace DataCommons.Assignments

variable {κ β α : Type*} [DecidableEq κ]

/-- The value of the last assignment to the key: a later one hides it. -/
def lastValue : List (κ × β) → κ → Option β
  | [], _ => none
  | e :: es, k => (lastValue es k).or (if e.1 = k then some e.2 else none)

/-- One assignment, on a record with the key. -/
def assign (key : α → κ) (set : β → α → α) (a : α) (e : κ × β) : α :=
  if e.1 = key a then set e.2 a else a

/-- The record after a value, if there is one. -/
def settle (set : β → α → α) (a : α) : Option β → α
  | none => a
  | some v => set v a

theorem lastValue_isSome {es : List (κ × β)} {k : κ} :
    (lastValue es k).isSome ↔ k ∈ es.map Prod.fst := by
  induction es with
  | nil => simp [lastValue]
  | cons e es ih =>
    rw [lastValue, Option.isSome_or, Bool.or_eq_true, ih, List.map_cons, List.mem_cons,
      or_comm]
    by_cases h : e.1 = k
    · simp [h]
    · simp [h, Ne.symm h]

/-- Where no key comes twice, the value of a key is the one that it comes with. -/
theorem lastValue_of_mem {es : List (κ × β)} (hes : (es.map Prod.fst).Nodup) {e : κ × β}
    (he : e ∈ es) : lastValue es e.1 = some e.2 := by
  induction es with
  | nil => cases he
  | cons d es ih =>
    rw [List.map_cons, List.nodup_cons] at hes
    rw [lastValue]
    rcases List.mem_cons.mp he with rfl | he
    · have hnone : lastValue es e.1 = none := by
        rw [← Option.not_isSome_iff_eq_none, lastValue_isSome]
        exact hes.1
      simp [hnone]
    · simp [ih hes.2 he]

/-- **Without repeated keys the order of the assignments does not matter.** -/
theorem lastValue_perm {es fs : List (κ × β)} (h : es.Perm fs) (hes : (es.map Prod.fst).Nodup)
    (k : κ) : lastValue es k = lastValue fs k := by
  have hfs : (fs.map Prod.fst).Nodup := (h.map Prod.fst).nodup_iff.mp hes
  by_cases hk : k ∈ es.map Prod.fst
  · obtain ⟨e, he, rfl⟩ := List.mem_map.mp hk
    rw [lastValue_of_mem hes he, lastValue_of_mem hfs (h.mem_iff.mp he)]
  · have hk' : k ∉ fs.map Prod.fst := fun hm => hk ((h.map Prod.fst).mem_iff.mpr hm)
    rw [← lastValue_isSome, Option.not_isSome_iff_eq_none] at hk hk'
    rw [hk, hk']

/-- **The record keeps the last value of its key**, if a later value replaces an
earlier one. -/
theorem foldl_assign {key : α → κ} {set : β → α → α} (hkey : ∀ v a, key (set v a) = key a)
    (hset : ∀ u v a, set v (set u a) = set v a) (es : List (κ × β)) (a : α) :
    es.foldl (assign key set) a = settle set a (lastValue es (key a)) := by
  induction es generalizing a with
  | nil => rfl
  | cons e es ih =>
    rw [List.foldl_cons, ih, lastValue, assign]
    by_cases h : e.1 = key a
    · rw [if_pos h, if_pos h, hkey]
      cases lastValue es (key a) with
      | none => rfl
      | some v => exact hset e.2 v a
    · rw [if_neg h, if_neg h, Option.or_none]

theorem foldl_map_assign {key : α → κ} {set : β → α → α} (hkey : ∀ v a, key (set v a) = key a)
    (hset : ∀ u v a, set v (set u a) = set v a) (es : List (κ × β)) (as : List α) :
    es.foldl (fun as e => as.map fun a => assign key set a e) as
      = as.map fun a => settle set a (lastValue es (key a)) := by
  have hfold : es.foldl (fun as e => as.map fun a => assign key set a e) as
      = as.map fun a => es.foldl (assign key set) a := by
    induction es generalizing as with
    | nil => simp
    | cons e es ih => rw [List.foldl_cons, ih, List.map_map]; rfl
  rw [hfold]
  exact List.map_congr_left fun a _ => foldl_assign hkey hset es a

end DataCommons.Assignments
