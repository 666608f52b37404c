import Mathlib.Data.List.Perm.Basic

/-!
# A ledger of resources

What has been acquired and not released, and the releases of something that was
not held.  A ledger that is settled has released everything it acquired, each
once, and nothing else.

* `release_head`, `release_of_perm`: releasing what is held;
* `stray_ne_nil`: a stray release is never forgotten.
-/

namespace DataCommons

/-- Resources held, in order of acquisition, and releases that hit nothing. -/
structure Ledger (α : Type*) where
  held : List α
  stray : List α

namespace Ledger

variable {α : Type*} [DecidableEq α] {l : Ledger α} {a : α}

inductive Op (α : Type*) where
  | acquire (a : α)
  | release (a : α)

def empty : Ledger α := ⟨[], []⟩

def post (l : Ledger α) : Op α → Ledger α
  | .acquire a => { l with held := l.held ++ [a] }
  | .release a =>
    if a ∈ l.held then { l with held := l.held.erase a } else { l with stray := a :: l.stray }

def postAll (l : Ledger α) (ops : List (Op α)) : Ledger α := ops.foldl post l

/-- Nothing is held and nothing was released that was not held. -/
def Settled (l : Ledger α) : Prop := l.held = [] ∧ l.stray = []

@[simp] theorem postAll_nil (l : Ledger α) : l.postAll [] = l := rfl

@[simp] theorem postAll_cons (l : Ledger α) (op : Op α) (ops : List (Op α)) :
    l.postAll (op :: ops) = (l.post op).postAll ops := rfl

theorem release_of_perm {rest : List α} (h : l.held.Perm (a :: rest)) :
    (l.post (.release a)).held.Perm rest ∧ (l.post (.release a)).stray = l.stray := by
  have hmem : a ∈ l.held := h.symm.subset List.mem_cons_self
  rw [post, if_pos hmem]
  exact ⟨by simpa using h.erase a, rfl⟩

theorem release_head {rest : List α} (h : l.held = a :: rest) :
    l.post (.release a) = { l with held := rest } := by
  rw [post, if_pos (h ▸ List.mem_cons_self), h, List.erase_cons_head]

theorem stray_ne_nil (ops : List (Op α)) (h : l.stray ≠ []) : (l.postAll ops).stray ≠ [] := by
  induction ops generalizing l with
  | nil => exact h
  | cons op ops ih =>
    refine ih ?_
    cases op with
    | acquire a => exact h
    | release a =>
      rw [post]
      split
      · exact h
      · exact List.cons_ne_nil _ _

end Ledger

end DataCommons
