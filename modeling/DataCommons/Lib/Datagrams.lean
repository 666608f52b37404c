import Mathlib.Data.List.Perm.Basic
import Mathlib.Data.List.Count
import Mathlib.Data.Nat.Notation

/-!
# A network of datagrams

What is posted is in flight until it is taken or lost.  The network may copy it, and
hands it over in any order.

* `Balanced.loose`: copying and losing keep the books balanced;
* `Balanced.count_taken_le`, `Balanced.taken_perm`: how often it is taken.
-/

namespace DataCommons.Datagrams

/-- The datagrams in flight, and all that were posted, copied, lost and taken. -/
structure Network (α : Type*) where
  flying : List α
  posted : List α
  copied : List α
  lost : List α
  taken : List α

namespace Network

variable {α : Type*} [DecidableEq α] {n n' : Network α} {a : α}

def empty : Network α := ⟨[], [], [], [], []⟩

def post (n : Network α) (a : α) : Network α :=
  { n with flying := a :: n.flying, posted := n.posted ++ [a] }

def copy (n : Network α) (a : α) : Network α :=
  { n with flying := a :: n.flying, copied := n.copied ++ [a] }

def lose (n : Network α) (a : α) : Network α :=
  { n with flying := n.flying.erase a, lost := n.lost ++ [a] }

def take (n : Network α) (a : α) : Network α :=
  { n with flying := n.flying.erase a, taken := n.taken ++ [a] }

/-- What the network does by itself. -/
inductive Loose : Network α → Network α → Prop
  | copy {n : Network α} {a : α} (ha : a ∈ n.flying) : Loose n (n.copy a)
  | lose {n : Network α} {a : α} (ha : a ∈ n.flying) : Loose n (n.lose a)

theorem Loose.posted (step : Loose n n') : n'.posted = n.posted := by
  cases step with
  | copy | lose => rfl

theorem Loose.taken (step : Loose n n') : n'.taken = n.taken := by
  cases step with
  | copy | lose => rfl

/-- Every datagram that was posted or copied is in flight, lost or taken, and copies are of
datagrams that were posted. -/
structure Balanced (n : Network α) : Prop where
  count : ∀ a, n.posted.count a + n.copied.count a
    = n.flying.count a + n.lost.count a + n.taken.count a
  copied : n.copied ⊆ n.posted

theorem balanced_empty : (empty : Network α).Balanced := ⟨fun _ => rfl, List.nil_subset _⟩

namespace Balanced

theorem post (h : n.Balanced) (a : α) : (n.post a).Balanced where
  count := by
    intro b
    have hb := h.count b
    simp only [Network.post, List.count_append, List.count_cons, List.count_nil]
    omega
  copied := fun b hb => List.mem_append_left _ (h.copied hb)

theorem mem_posted (h : n.Balanced)
    (hpos : 0 < n.flying.count a + n.lost.count a + n.taken.count a) : a ∈ n.posted := by
  have hcount := h.count a
  by_contra hnot
  have hposted := List.count_eq_zero.mpr hnot
  have hcopied := List.count_eq_zero.mpr fun hc => hnot (h.copied hc)
  omega

theorem posted_of_flying (h : n.Balanced) (ha : a ∈ n.flying) : a ∈ n.posted := by
  have hpos := List.count_pos_iff.mpr ha
  exact h.mem_posted (by omega)

theorem posted_of_taken (h : n.Balanced) (ha : a ∈ n.taken) : a ∈ n.posted := by
  have hpos := List.count_pos_iff.mpr ha
  exact h.mem_posted (by omega)

theorem count_erase_add {l : List α} (ha : a ∈ l) (b : α) :
    (l.erase a).count b + [a].count b = l.count b := by
  have hperm : l.Perm ([a] ++ l.erase a) := List.perm_cons_erase ha
  rw [hperm.count_eq b, List.count_append, Nat.add_comm]

theorem take (h : n.Balanced) (ha : a ∈ n.flying) : (n.take a).Balanced where
  count := by
    intro b
    have hb := h.count b
    have hmove := count_erase_add ha b
    simp only [Network.take, List.count_append]
    omega
  copied := h.copied

theorem lose (h : n.Balanced) (ha : a ∈ n.flying) : (n.lose a).Balanced where
  count := by
    intro b
    have hb := h.count b
    have hmove := count_erase_add ha b
    simp only [Network.lose, List.count_append]
    omega
  copied := h.copied

theorem copy (h : n.Balanced) (ha : a ∈ n.flying) : (n.copy a).Balanced where
  count := by
    intro b
    have hb := h.count b
    simp only [Network.copy, List.count_append, List.count_cons, List.count_nil]
    omega
  copied := by
    refine List.append_subset.mpr ⟨h.copied, fun b hb => ?_⟩
    rw [List.mem_singleton.mp hb]
    exact h.posted_of_flying ha

theorem loose (h : n.Balanced) (step : Loose n n') : n'.Balanced := by
  cases step with
  | copy ha => exact h.copy ha
  | lose ha => exact h.lose ha

/-- **Nothing is taken more often than it was posted and copied.** -/
theorem count_taken_le (h : n.Balanced) (a : α) :
    n.taken.count a ≤ n.posted.count a + n.copied.count a := by
  have hcount := h.count a
  omega

/-- **A network that copies and loses nothing hands over what was posted**, once nothing is
in flight. -/
theorem taken_perm (h : n.Balanced) (hflying : n.flying = []) (hcopied : n.copied = [])
    (hlost : n.lost = []) : n.taken.Perm n.posted := by
  refine List.perm_iff_count.mpr fun a => ?_
  have hcount := h.count a
  rw [hflying, hcopied, hlost] at hcount
  simpa using hcount.symm

end Balanced

end Network

end DataCommons.Datagrams
