import Mathlib.Data.Nat.Notation
import Mathlib.Logic.Relation

/-!
# Machines with outputs

A machine is a step function on states and labels that either is not enabled
(`none`) or gives the next state and an output.  This file runs a machine on a
list of labels and proves the rules used later:

* `exec_simulates`: a relation kept by every pair of steps with equal outputs
  relates whole runs with equal output lists;
* `exec_refines`: the same where the abstract machine is partial and says which steps
  there are to be;
* `along_congr_of_invariant`: conditions that agree in the states of an invariant are met
  along the same runs;
* `along_logged`: a machine that keeps its labels and outputs meets what the machine meets;
* `exec_invariant`: what every step that meets a condition keeps holds at the end
  of every run along which the condition is met;
* `exec_enabled`: if in the states of an invariant every label that satisfies a
  condition is enabled and keeps it, so is every run of such labels;
* `exec_measure`: if the labels of some kind use up a measure that no other one gives
  back, a run has only so many of them;
* `reachable_invariant`: what every step of a relation keeps holds in every
  reachable state;
* `reachable_simulates`: steps that are answered by runs of an abstract relation.
-/

namespace DataCommons.Machine

variable {σ τ α β ο : Type*}

/-- Run the labels in order and collect the outputs. -/
def exec (step : σ → α → Option (σ × ο)) : σ → List α → Option (σ × List ο)
  | s, [] => some (s, [])
  | s, a :: as =>
    match step s a with
    | none => none
    | some (s₁, o) =>
      match exec step s₁ as with
      | none => none
      | some (s₂, os) => some (s₂, o :: os)

theorem exec_cons {step : σ → α → Option (σ × ο)} {s s₁ s₂ : σ} {a : α} {as : List α} {o : ο}
    {os : List ο} (h : step s a = some (s₁, o)) (hs : exec step s₁ as = some (s₂, os)) :
    exec step s (a :: as) = some (s₂, o :: os) := by
  simp only [exec, h, hs]

theorem exec_cons_inv {step : σ → α → Option (σ × ο)} {s s₂ : σ} {a : α} {as : List α}
    {os : List ο} (h : exec step s (a :: as) = some (s₂, os)) :
    ∃ s₁ o os', step s a = some (s₁, o) ∧ exec step s₁ as = some (s₂, os') := by
  rw [exec] at h
  split at h
  · cases h
  · rename_i s₁ o hstep
    split at h
    · cases h
    · rename_i s₃ os' hrest
      cases h
      exact ⟨s₁, o, os', hstep, hrest⟩

/-- Every label of the run meets `P` in the state before it. -/
def Along (step : σ → α → Option (σ × ο)) (P : σ → α → Prop) : σ → List α → Prop
  | _, [] => True
  | s, a :: as => P s a ∧ ∀ s₁ o, step s a = some (s₁, o) → Along step P s₁ as

theorem along_cons {step : σ → α → Option (σ × ο)} {P : σ → α → Prop} {s s₁ : σ} {a : α}
    {as : List α} {o : ο} (h : step s a = some (s₁, o)) :
    Along step P s (a :: as) ↔ P s a ∧ Along step P s₁ as := by
  refine and_congr_right fun _ => ⟨fun hall => hall s₁ o h, fun hs s₂ o₂ h₂ => ?_⟩
  cases h₂.symm.trans h
  exact hs

instance decidableAlong {step : σ → α → Option (σ × ο)} {P : σ → α → Prop}
    [∀ s, DecidablePred (P s)] : ∀ (s : σ) (as : List α), Decidable (Along step P s as)
  | _, [] => isTrue trivial
  | s, a :: as =>
    match h : step s a with
    | none => decidable_of_iff (P s a)
        ⟨fun hP => ⟨hP, fun _ _ hs => absurd (h.symm.trans hs) (by simp)⟩, And.left⟩
    | some (s₁, _) =>
      have : Decidable (Along step P s₁ as) := decidableAlong s₁ as
      decidable_of_iff (P s a ∧ Along step P s₁ as) (along_cons h).symm

/-- Conditions that say the same in every state of an invariant, which steps that meet them
keep, are met along the same runs. -/
theorem along_congr_of_invariant {step : σ → α → Option (σ × ο)} {P Q : σ → α → Prop} {I : σ → Prop}
    (hstep : ∀ s a s₁ o, I s → P s a → step s a = some (s₁, o) → I s₁)
    (h : ∀ s a, I s → (P s a ↔ Q s a)) {s : σ} (hs : I s) (as : List α) :
    Along step P s as ↔ Along step Q s as := by
  induction as generalizing s with
  | nil => exact Iff.rfl
  | cons a as ih =>
    refine (and_congr_right fun hP => ?_).trans (and_congr_left' (h s a hs))
    refine forall_congr' fun s₁ => forall_congr' fun o => forall_congr' fun hnext => ?_
    exact ih (hstep s a s₁ o hs hP hnext)

/-- Conditions that say the same in every state are met along the same runs. -/
theorem along_congr {step : σ → α → Option (σ × ο)} {P Q : σ → α → Prop}
    (h : ∀ s a, P s a ↔ Q s a) (s : σ) (as : List α) : Along step P s as ↔ Along step Q s as :=
  along_congr_of_invariant (I := fun _ => True) (fun _ _ _ _ _ _ _ => trivial) (fun s a _ => h s a)
    trivial as

/-- The machine beside the labels and outputs of its steps so far, the last one first. -/
def logged (step : σ → α → Option (σ × ο)) :
    σ × List (α × ο) → α → Option ((σ × List (α × ο)) × ο)
  | (s, log), a =>
    match step s a with
    | none => none
    | some (s₁, o) => some ((s₁, (a, o) :: log), o)

theorem logged_eq_some {step : σ → α → Option (σ × ο)} {s s₁ : σ} {a : α} {log log₁ : List (α × ο)}
    {o : ο} :
    logged step (s, log) a = some ((s₁, log₁), o) ↔
      step s a = some (s₁, o) ∧ log₁ = (a, o) :: log := by
  rw [logged]
  cases step s a with
  | none => simp
  | some res =>
    obtain ⟨s₂, o₂⟩ := res
    simp only [Option.some.injEq, Prod.mk.injEq]
    constructor
    · rintro ⟨⟨rfl, rfl⟩, rfl⟩
      exact ⟨⟨rfl, rfl⟩, rfl⟩
    · rintro ⟨⟨rfl, rfl⟩, rfl⟩
      exact ⟨⟨rfl, rfl⟩, rfl⟩

/-- What is met along the run without the log is met along the run with it. -/
theorem along_logged {step : σ → α → Option (σ × ο)} {P : σ → α → Prop} (s : σ)
    (log : List (α × ο)) (as : List α) :
    Along (logged step) (fun s a => P s.1 a) (s, log) as ↔ Along step P s as := by
  induction as generalizing s log with
  | nil => exact Iff.rfl
  | cons a as ih =>
    refine and_congr_right fun _ => ⟨fun h s₁ o hstep => ?_, ?_⟩
    · exact (ih s₁ _).mp (h _ o (logged_eq_some.mpr ⟨hstep, rfl⟩))
    · rintro h ⟨s₁, log₁⟩ o hstep
      exact (ih s₁ log₁).mpr (h s₁ o (logged_eq_some.mp hstep).1)

/-- **Invariant rule.** -/
theorem exec_invariant {step : σ → α → Option (σ × ο)} {P : σ → α → Prop} {I : σ → Prop}
    (hstep : ∀ s a s₁ o, I s → P s a → step s a = some (s₁, o) → I s₁) {s s₂ : σ} (hs : I s)
    {as : List α} {os : List ο} (hP : Along step P s as) (h : exec step s as = some (s₂, os)) :
    I s₂ := by
  induction as generalizing s os with
  | nil =>
    cases h
    exact hs
  | cons a as ih =>
    obtain ⟨s₁, o, os', h₁, hrest⟩ := exec_cons_inv h
    obtain ⟨hPa, hP'⟩ := (along_cons h₁).mp hP
    exact ih (hstep s a s₁ o hs hPa h₁) hP' hrest

/-- **Progress rule.** -/
theorem exec_enabled {step : σ → α → Option (σ × ο)} {ok : α → Prop} {I : σ → Prop}
    (hstep : ∀ s a, I s → ok a → ∃ s₁ o, step s a = some (s₁, o) ∧ I s₁) {s : σ} (hs : I s)
    {as : List α} (hok : ∀ a ∈ as, ok a) : ∃ s₂ os, exec step s as = some (s₂, os) ∧ I s₂ := by
  induction as generalizing s with
  | nil => exact ⟨s, [], rfl, hs⟩
  | cons a as ih =>
    obtain ⟨s₁, o, h₁, hI⟩ := hstep s a hs (hok a (List.mem_cons_self ..))
    obtain ⟨s₂, os, h₂, hI₂⟩ := ih hI fun b hb => hok b (List.mem_cons_of_mem _ hb)
    exact ⟨s₂, _, exec_cons h₁ h₂, hI₂⟩

/-- **Measure rule.** -/
theorem exec_measure {step : σ → α → Option (σ × ο)} {p : α → Bool} {I : σ → Prop} {m : σ → ℕ}
    (hstep : ∀ s a s₁ o, I s → step s a = some (s₁, o) → I s₁ ∧ m s₁ + (if p a then 1 else 0) ≤ m s)
    {s s₂ : σ} (hs : I s) {as : List α} {os : List ο} (h : exec step s as = some (s₂, os)) :
    I s₂ ∧ m s₂ + as.countP p ≤ m s := by
  induction as generalizing s os with
  | nil =>
    cases h
    exact ⟨hs, Nat.le_refl _⟩
  | cons a as ih =>
    obtain ⟨s₁, o, os', h₁, hrest⟩ := exec_cons_inv h
    obtain ⟨hI, hm⟩ := hstep s a s₁ o hs h₁
    obtain ⟨hI₂, hrest⟩ := ih hI hrest
    rw [List.countP_cons]
    exact ⟨hI₂, by omega⟩

/-- **Simulation rule.**  If every label satisfying `ok` is enabled in related
states, with equal outputs and related next states, then so is every run of
such labels.  `f` translates the labels of the concrete machine. -/
theorem exec_simulates {step : σ → α → Option (σ × ο)} {astep : τ → β → τ × ο} {R : σ → τ → Prop}
    {ok : α → Prop} {f : α → β}
    (hstep : ∀ s t a, R s t → ok a →
      ∃ s₁, step s a = some (s₁, (astep t (f a)).2) ∧ R s₁ (astep t (f a)).1)
    {s : σ} {t : τ} (hR : R s t) {as : List α} (hok : ∀ a ∈ as, ok a) :
    ∃ s₂ t₂ os, exec step s as = some (s₂, os) ∧
      exec (fun t b => some (astep t b)) t (as.map f) = some (t₂, os) ∧ R s₂ t₂ := by
  induction as generalizing s t with
  | nil => exact ⟨s, t, [], rfl, rfl, hR⟩
  | cons a as ih =>
    obtain ⟨s₁, h₁, hR₁⟩ := hstep s t a hR (hok a (List.mem_cons_self ..))
    obtain ⟨s₂, t₂, os, h₂, ht, hR₂⟩ := ih hR₁ (fun b hb => hok b (List.mem_cons_of_mem _ hb))
    exact ⟨s₂, t₂, _, exec_cons h₁ h₂, exec_cons rfl ht, hR₂⟩

/-- **Refinement rule.**  If every step of the abstract machine is one of the concrete
machine, with the same output, then so is every run. -/
theorem exec_refines {step : σ → α → Option (σ × ο)} {astep : τ → α → Option (τ × ο)}
    {R : σ → τ → Prop}
    (hstep : ∀ s t a t₁ o, R s t → astep t a = some (t₁, o) →
      ∃ s₁, step s a = some (s₁, o) ∧ R s₁ t₁)
    {s : σ} {t t₂ : τ} (hR : R s t) {as : List α} {os : List ο}
    (h : exec astep t as = some (t₂, os)) : ∃ s₂, exec step s as = some (s₂, os) ∧ R s₂ t₂ := by
  induction as generalizing s t os with
  | nil =>
    cases h
    exact ⟨s, rfl, hR⟩
  | cons a as ih =>
    rw [exec] at h
    split at h
    · cases h
    · rename_i t₁ o ha
      split at h
      · cases h
      · rename_i t₃ os' hrest
        cases h
        obtain ⟨s₁, h₁, hR₁⟩ := hstep s t a t₁ o hR ha
        obtain ⟨s₂, h₂, hR₂⟩ := ih hR₁ hrest
        exact ⟨s₂, exec_cons h₁ h₂, hR₂⟩

/-- **Reachability rule.**  What holds at the start and is kept by every step
holds in every reachable state. -/
theorem reachable_invariant {r : σ → σ → Prop} {I : σ → Prop}
    (hstep : ∀ s s₁, I s → r s s₁ → I s₁) {s s₂ : σ} (h : Relation.ReflTransGen r s s₂)
    (hs : I s) : I s₂ := by
  induction h with
  | refl => exact hs
  | tail _ h₁ ih => exact hstep _ _ ih h₁

/-- **Simulation rule for relations.**  Every step is answered by a run, also an empty one. -/
theorem reachable_simulates {r : σ → σ → Prop} {q : τ → τ → Prop} {R : σ → τ → Prop}
    (hstep : ∀ s s₁ t, R s t → r s s₁ → ∃ t₁, Relation.ReflTransGen q t t₁ ∧ R s₁ t₁) {s s₂ : σ}
    {t : τ} (hR : R s t) (h : Relation.ReflTransGen r s s₂) :
    ∃ t₂, Relation.ReflTransGen q t t₂ ∧ R s₂ t₂ := by
  induction h with
  | refl => exact ⟨t, .refl, hR⟩
  | tail _ h₁ ih =>
    obtain ⟨t₁, hrun, hR₁⟩ := ih
    obtain ⟨t₂, hrun₂, hR₂⟩ := hstep _ _ _ hR₁ h₁
    exact ⟨t₂, hrun.trans hrun₂, hR₂⟩

end DataCommons.Machine
