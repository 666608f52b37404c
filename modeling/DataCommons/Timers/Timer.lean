import Mathlib.Algebra.Ring.Nat
import Mathlib.Logic.Function.Iterate
import Mathlib.Tactic.Common

/-!
# The timer of `timers.h`

A timer counts calls of `MyTimerCycle` in 32 bits.  `MyTimerStart` sets the length and
turns it on; it goes on from the count, and with the flag, that it finds.

* `cycles_counted`: the timer after any number of cycles, below the greatest length;
* `never_ends`: at the greatest length the count wraps before it passes it;
* `ends_in_time_iff`: when a started timer ends in its time, after every history.
-/

namespace DataCommons.Timers

/-- `mytimer_t`; `ended` is its `end`. -/
structure MyTimer where
  on : Bool
  ended : Bool
  count : UInt32
  len : UInt32
  deriving DecidableEq, Repr

def myTimerInit (tim : MyTimer) : MyTimer := { tim with count := 0, ended := false, on := false }

def myTimerStart (tim : MyTimer) (timeout : UInt32) : MyTimer :=
  { tim with on := true, len := timeout }

def myTimerStop (tim : MyTimer) : MyTimer := { tim with count := 0, ended := false, on := false }

def myTimerCycle (tim : MyTimer) : MyTimer :=
  if tim.on = true then
    if tim.count > tim.len then { tim with ended := true } else { tim with count := tim.count + 1 }
  else tim

def myTimerReset (tim : MyTimer) : MyTimer := { tim with count := 0, ended := false, on := true }

inductive TimerCall where
  | init
  | start (timeout : UInt32)
  | stop
  | cycle
  | reset
  deriving DecidableEq, Repr

def timerStep (tim : MyTimer) : TimerCall → MyTimer
  | .init => myTimerInit tim
  | .start timeout => myTimerStart tim timeout
  | .stop => myTimerStop tim
  | .cycle => myTimerCycle tim
  | .reset => myTimerReset tim

def history (tim : MyTimer) (calls : List TimerCall) : MyTimer := calls.foldl timerStep tim

/-! ## Cycles -/

/-- What `n` cycles make of a timer that is on: the count goes on to one more than the
length, and the next cycle sets the flag. -/
structure Counted (tim : MyTimer) (n : ℕ) (tim' : MyTimer) : Prop where
  on : tim'.on = true
  len : tim'.len = tim.len
  count : tim'.count.toNat
    = max tim.count.toNat (min (tim.count.toNat + n) (tim.len.toNat + 1))
  ended : tim'.ended = true ↔ tim.ended = true ∨ tim.len.toNat + 1 - tim.count.toNat < n

theorem counted_zero {tim : MyTimer} (hon : tim.on = true) : Counted tim 0 tim :=
  ⟨hon, rfl, by omega, by simp⟩

theorem counted_cycle {tim tim' : MyTimer} {n : ℕ} (hlen : tim.len.toNat + 1 < 2 ^ 32)
    (h : Counted tim n tim') : Counted tim (n + 1) (myTimerCycle tim') := by
  have hcount := h.count
  have hended := h.ended
  rw [myTimerCycle, if_pos h.on]
  by_cases hover : tim'.count > tim'.len
  · rw [if_pos hover]
    have hover : tim.len.toNat < tim'.count.toNat := h.len ▸ hover
    exact ⟨h.on, h.len, by simp only; omega, iff_of_true rfl (Or.inr (by omega))⟩
  · rw [if_neg hover]
    have hunder : ¬ tim.len.toNat < tim'.count.toNat := h.len ▸ hover
    have hnext : (tim'.count + 1).toNat = tim'.count.toNat + 1 := by
      rw [UInt32.toNat_add]
      exact Nat.mod_eq_of_lt (by simp only [UInt32.toNat_one]; omega)
    refine ⟨h.on, h.len, by simp only [hnext]; omega, hended.trans (or_congr_right ?_)⟩
    omega

/-- **The timer after `n` cycles.** -/
theorem cycles_counted {tim : MyTimer} (hon : tim.on = true) (hlen : tim.len.toNat + 1 < 2 ^ 32)
    (n : ℕ) : Counted tim n (myTimerCycle^[n] tim) := by
  induction n with
  | zero => exact counted_zero hon
  | succ n ih =>
    rw [Function.iterate_succ_apply']
    exact counted_cycle hlen ih

theorem never_ends {tim : MyTimer} (hlen : tim.len.toNat = 2 ^ 32 - 1) (n : ℕ) :
    (myTimerCycle^[n] tim).len = tim.len ∧ (myTimerCycle^[n] tim).ended = tim.ended := by
  induction n with
  | zero => exact ⟨rfl, rfl⟩
  | succ n ih =>
    rw [Function.iterate_succ_apply']
    generalize myTimerCycle^[n] tim = tim' at ih
    have hunder : ¬ tim'.count > tim'.len := by
      have hlt := tim'.count.toNat_lt
      rw [gt_iff_lt, ih.1, UInt32.lt_iff_toNat_lt]
      omega
    rw [myTimerCycle, if_neg hunder]
    split_ifs
    · exact ih
    · exact ih

/-! ## Starting a timer -/

/-- Started now and left to its cycles, the timer has not ended before the timeout, and
has ended from the second cycle behind it on. -/
def EndsInTime (tim : MyTimer) (timeout : UInt32) : Prop :=
  ∀ n, (n < timeout.toNat → (myTimerCycle^[n] (myTimerStart tim timeout)).ended = false) ∧
    (timeout.toNat + 2 ≤ n → (myTimerCycle^[n] (myTimerStart tim timeout)).ended = true)

/-- What `MyTimerStart` has to find. -/
def StartsFresh (tim : MyTimer) (timeout : UInt32) : Prop :=
  timeout.toNat ≠ 2 ^ 32 - 1 ∧
    (timeout = 0 ∨ (tim.ended = false ∧ (timeout = 1 ∨ tim.count ≤ 2)))

theorem ends_iff_below {tim : MyTimer} {timeout : UInt32} (hmax : timeout.toNat + 1 < 2 ^ 32) :
    EndsInTime tim timeout ↔
      timeout.toNat = 0 ∨ (tim.ended = false ∧ (timeout.toNat = 1 ∨ tim.count.toNat ≤ 2)) := by
  have hrun := fun n => @cycles_counted (myTimerStart tim timeout) rfl hmax n
  have hended : ∀ n, (myTimerCycle^[n] (myTimerStart tim timeout)).ended = true ↔
      tim.ended = true ∨ timeout.toNat + 1 - tim.count.toNat < n := fun n => (hrun n).ended
  constructor
  · intro h
    refine or_iff_not_imp_left.mpr fun hpos => ?_
    have hfresh : tim.ended = false := (h 0).1 (Nat.pos_of_ne_zero hpos)
    -- the last cycle at which it must not have ended
    have hlast := (h (timeout.toNat - 1)).1 (by omega)
    rw [← Bool.not_eq_true, hended, not_or] at hlast
    exact ⟨hfresh, by omega⟩
  · intro h n
    refine ⟨fun hn => ?_, fun hn => (hended n).mpr (Or.inr (by omega))⟩
    rw [← Bool.not_eq_true, hended, not_or]
    rcases h with hzero | ⟨hfresh, hcount⟩
    · omega
    · exact ⟨by rw [hfresh]; exact Bool.false_ne_true, by omega⟩

theorem not_ends_max (tim : MyTimer) {timeout : UInt32} (hmax : timeout.toNat = 2 ^ 32 - 1) :
    ¬ EndsInTime tim timeout := by
  intro h
  have hstay := fun n => (@never_ends (myTimerStart tim timeout) hmax n).2
  have hfirst := (h 0).1 (by omega)
  have hend := (h (timeout.toNat + 2)).2 (Nat.le_refl _)
  rw [hstay] at hfirst hend
  rw [hfirst] at hend
  cases hend

theorem endsInTime_iff (tim : MyTimer) (timeout : UInt32) :
    EndsInTime tim timeout ↔ StartsFresh tim timeout := by
  by_cases hmax : timeout.toNat = 2 ^ 32 - 1
  · exact iff_of_false (not_ends_max tim hmax) fun h => h.1 hmax
  · have hlt := timeout.toNat_lt
    rw [ends_iff_below (by omega), StartsFresh, and_iff_right hmax, ← UInt32.toNat_inj,
      ← UInt32.toNat_inj, UInt32.le_iff_toNat_le]
    exact Iff.rfl

theorem cleared_ends {tim : MyTimer} {timeout : UInt32} (hmax : timeout.toNat ≠ 2 ^ 32 - 1) :
    EndsInTime (myTimerInit tim) timeout ∧ EndsInTime (myTimerStop tim) timeout ∧
      EndsInTime (myTimerReset tim) timeout := by
  have hclear : ∀ tim' : MyTimer, tim'.ended = false → tim'.count = 0 →
      EndsInTime tim' timeout := by
    intro tim' hended hcount
    refine (endsInTime_iff tim' timeout).mpr ⟨hmax, Or.inr ⟨hended, Or.inr ?_⟩⟩
    rw [hcount]
    decide
  exact ⟨hclear _ rfl rfl, hclear _ rfl rfl, hclear _ rfl rfl⟩

/-- **A timer that is started ends in its time exactly if** the timeout is not the greatest
one, and the history has left it no flag and a count of at most 2, where that counts. -/
theorem ends_in_time_iff (tim : MyTimer) (calls : List TimerCall) (timeout : UInt32) :
    EndsInTime (history tim (.init :: calls)) timeout ↔
      StartsFresh (history tim (.init :: calls)) timeout :=
  endsInTime_iff _ timeout

/-- A timer that has ended is started again: it has ended at once. -/
theorem restarted_has_ended :
    ¬ EndsInTime (history ⟨false, false, 0, 0⟩ [.init, .start 0, .cycle, .cycle]) 5 := by
  intro h
  exact absurd ((h 0).1 (by decide)) (by decide)

end DataCommons.Timers
