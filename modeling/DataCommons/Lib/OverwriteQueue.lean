import Mathlib.Data.List.DropRight
import DataCommons.Lib.Machine

/-!
# A bounded queue that overwrites its oldest elements

The abstract component behind a ring buffer.  A queue of capacity `cap` is a
list; its operations are those of `QueueOp`, and `step` is their meaning.  A
write of one element, or of at most `cap` elements, is accepted and keeps the
last `cap` elements; a longer write is refused.  `readUntil` takes the shortest
prefix that ends in a given element (`upTo_shortest`) if it is not too long.

`frames` cuts a queue into the frames that a reader gets that skips to a start
element and then reads up to an end element, again and again.
-/

namespace DataCommons.OverwriteQueue

variable {α : Type*}

inductive QueueOp (α : Type*) where
  | write (item : List α)
  | read (n : ℕ)
  | readUntil (max : ℕ) (byte : α)
  deriving DecidableEq, Repr

/-- What an operation gives back: its return value and the elements it output. -/
structure QueueOut (α : Type*) where
  ret : ℕ
  out : List α
  deriving DecidableEq, Repr

/-- A write is accepted if it has one element or at most `cap`. -/
def Accepts (cap : ℕ) (item : List α) : Prop := item.length = 1 ∨ item.length < cap + 1

instance (cap : ℕ) (item : List α) : Decidable (Accepts cap item) :=
  inferInstanceAs (Decidable (_ ∨ _))

/-- The shortest prefix of the list that ends in `b`. -/
def upTo [DecidableEq α] (b : α) : List α → Option (List α)
  | [] => none
  | x :: xs => if x = b then some [x] else (upTo b xs).map (x :: ·)

/-- The elements a `readUntil` takes from the queue. -/
def takeUntil [DecidableEq α] (max : ℕ) (b : α) (q : List α) : List α :=
  match upTo b q with
  | some p => if p.length ≤ max then p else q.take (min max q.length)
  | none => q.take (min max q.length)

/-- The queue and the output after one operation. -/
def step [DecidableEq α] (cap : ℕ) (q : List α) : QueueOp α → List α × QueueOut α
  | .write item =>
    if Accepts cap item then ((q ++ item).rtake cap, ⟨item.length, []⟩) else (q, ⟨0, []⟩)
  | .read n => (q.drop (min n q.length), ⟨min n q.length, q.take (min n q.length)⟩)
  | .readUntil max b =>
    (q.drop (takeUntil max b q).length, ⟨(takeUntil max b q).length, takeUntil max b q⟩)

/-- A run of the queue with its outputs. -/
def run [DecidableEq α] (cap : ℕ) (q : List α) (ops : List (QueueOp α)) :
    Option (List α × List (QueueOut α)) :=
  Machine.exec (fun q op => some (step cap q op)) q ops

/-- `upTo b q` is a prefix of `q` that ends in `b`, and no prefix that ends in
`b` is shorter; there is none exactly when `b` does not occur. -/
theorem upTo_shortest [DecidableEq α] (b : α) (q : List α) :
    (∀ p, upTo b q = some p → p <+: q ∧ p.getLast? = some b ∧
      ∀ p', p' <+: q → p'.getLast? = some b → p.length ≤ p'.length) ∧
    (upTo b q = none ↔ b ∉ q) := by
  induction q with
  | nil => simp [upTo]
  | cons x xs ih =>
    by_cases hx : x = b
    · subst hx
      refine ⟨fun p hp => ?_, by simp [upTo]⟩
      simp only [upTo, ↓reduceIte, Option.some.injEq] at hp
      subst hp
      refine ⟨by simp, rfl, fun p' _ hl => ?_⟩
      cases p' with
      | nil => simp at hl
      | cons _ _ => simp
    · have hbx : b ≠ x := fun e => hx e.symm
      refine ⟨fun p hp => ?_, by simp [upTo, hx, hbx, ih.2]⟩
      simp only [upTo, hx, ↓reduceIte, Option.map_eq_some_iff] at hp
      obtain ⟨p₁, h₁, rfl⟩ := hp
      obtain ⟨hpre, hlast, hmin⟩ := ih.1 p₁ h₁
      refine ⟨List.cons_prefix_cons.mpr ⟨rfl, hpre⟩, by simp [List.getLast?_cons, hlast], ?_⟩
      intro p' hp' hl'
      cases p' with
      | nil => simp at hl'
      | cons y ys =>
        obtain ⟨rfl, hys⟩ := List.cons_prefix_cons.mp hp'
        cases ys with
        | nil => simp at hl'; exact absurd hl' hx
        | cons z zs =>
          have hl'' : (z :: zs).getLast? = some b := by simpa [List.getLast?_cons] using hl'
          have := hmin _ hys hl''
          simpa using this

theorem upTo_length_le [DecidableEq α] {b : α} {q p : List α} (h : upTo b q = some p) :
    p.length ≤ q.length :=
  ((upTo_shortest b q).1 p h).1.length_le

theorem upTo_eq_take [DecidableEq α] {b : α} {q p : List α} (h : upTo b q = some p) :
    p = q.take p.length :=
  List.prefix_iff_eq_take.mp ((upTo_shortest b q).1 p h).1

theorem takeUntil_eq_take [DecidableEq α] (max : ℕ) (b : α) (q : List α) :
    takeUntil max b q = q.take (takeUntil max b q).length := by
  unfold takeUntil
  split
  · rename_i p hp
    split
    · exact upTo_eq_take hp
    · simp
  · simp

theorem takeUntil_append_drop [DecidableEq α] (max : ℕ) (b : α) (q : List α) :
    takeUntil max b q ++ q.drop (takeUntil max b q).length = q := by
  have h := List.take_append_drop (takeUntil max b q).length q
  rwa [← takeUntil_eq_take] at h

@[simp] theorem takeUntil_zero [DecidableEq α] (b : α) (q : List α) : takeUntil 0 b q = [] := by
  unfold takeUntil
  split
  · rename_i p hp
    split
    · rename_i h0
      exact List.length_eq_zero_iff.mp (Nat.le_zero.mp h0)
    · simp
  · simp

/-- A bound past the end of the queue is no bound. -/
theorem takeUntil_min [DecidableEq α] (max : ℕ) (b : α) (q : List α) :
    takeUntil (min max q.length) b q = takeUntil max b q := by
  unfold takeUntil
  split
  · rename_i p hp
    have hlen := upTo_length_le hp
    have hle : p.length ≤ min max q.length ↔ p.length ≤ max := by omega
    simp [hle]
  · simp

/-- One round of the scan: compare the first element, stop at `b` or at the
bound. -/
theorem takeUntil_cons [DecidableEq α] (max : ℕ) (b x : α) (q : List α) :
    takeUntil (max + 1) b (x :: q) = if x = b then [x] else x :: takeUntil max b q := by
  by_cases hx : x = b
  · simp [takeUntil, upTo, hx]
  · cases hp : upTo b q with
    | none =>
      simp only [takeUntil, upTo, hx, ↓reduceIte, hp, Option.map_none, List.length_cons,
        Nat.add_min_add_right, List.take_succ_cons]
    | some p =>
      simp only [takeUntil, upTo, hx, ↓reduceIte, hp, Option.map_some, List.length_cons,
        Nat.add_le_add_iff_right, Nat.add_min_add_right, List.take_succ_cons]
      split <;> rfl

theorem takeUntil_length_le [DecidableEq α] (max : ℕ) (b : α) (q : List α) :
    (takeUntil max b q).length ≤ q.length := by
  rw [takeUntil_eq_take]
  exact List.length_take_le' _ _

/-- A `readUntil` of at least one element comes back empty-handed only from the
empty queue. -/
theorem takeUntil_eq_nil [DecidableEq α] {max : ℕ} (hmax : 0 < max) (b : α) (q : List α) :
    takeUntil max b q = [] ↔ q = [] := by
  obtain ⟨m, rfl⟩ : ∃ m, max = m + 1 := ⟨max - 1, by omega⟩
  cases q with
  | nil => simp [takeUntil, upTo]
  | cons x xs =>
    rw [takeUntil_cons]
    split <;> simp

/-! ## Frames -/

theorem frame_shrinks [DecidableEq α] (s e : α) (max : ℕ) (q : List α)
    (h : takeUntil max e (q.dropWhile (· != s)) ≠ []) :
    ((q.dropWhile (· != s)).drop (takeUntil max e (q.dropWhile (· != s))).length).length <
      q.length := by
  have hpos := List.length_pos_iff.mpr h
  have hle := takeUntil_length_le max e (q.dropWhile (· != s))
  have hsub := (List.dropWhile_sublist (l := q) (· != s)).length_le
  rw [List.length_drop]
  omega

/-- The frames of a queue: skip to the next `s`, take the shortest stretch from
there that ends in `e` if it has at most `max` elements, else the first `max`
elements or all that remain, and continue behind it. -/
def frames [DecidableEq α] (s e : α) (max : ℕ) (q : List α) : List (List α) :=
  if _h : takeUntil max e (q.dropWhile (· != s)) = [] then []
  else
    takeUntil max e (q.dropWhile (· != s)) ::
      frames s e max ((q.dropWhile (· != s)).drop (takeUntil max e (q.dropWhile (· != s))).length)
termination_by q.length
decreasing_by exact frame_shrinks s e max q _h

end DataCommons.OverwriteQueue
