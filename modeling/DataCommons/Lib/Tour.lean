import DataCommons.Lib.Machine

/-!
# A cursor over a table whose entries move down

One entry of the table is watched; it stands in slot `slot`.  A pass of the cursor goes
through the slots upwards: it skips a slot, or takes hold of what it finds there and visits
it later.  At any time an entry below the watched one may be removed, and the watched one
moves down by one slot, also past the cursor.

* `run_bounds`: over any run, the entry is visited at most once in every pass, and missed at
  most once for each slot it has moved down.
-/

namespace DataCommons.Tour

/-- Where the cursor is: between two passes, before slot `i`, or holding what it found in slot
`i`; `own` says whether that is the watched entry. -/
inductive Pos where
  | idle
  | before (i : Nat)
  | holding (i : Nat) (own : Bool)

/-- The watched entry's slot, the cursor, the passes begun and the visits of the entry. -/
structure State where
  slot : Nat
  pos : Pos
  passes : Nat
  visits : Nat

inductive Step : State → State → Prop
  | shift {k : Nat} {p : Pos} {a v : Nat} : Step ⟨k + 1, p, a, v⟩ ⟨k, p, a, v⟩
  | start {i k a v : Nat} (h : i ≤ k) : Step ⟨k, .idle, a, v⟩ ⟨k, .before i, a + 1, v⟩
  | skip {i k a v : Nat} (h : i ≠ k) : Step ⟨k, .before i, a, v⟩ ⟨k, .before (i + 1), a, v⟩
  | take {i k a v : Nat} : Step ⟨k, .before i, a, v⟩ ⟨k, .holding i (i = k), a, v⟩
  | visit {i k a v : Nat} {own : Bool} :
      Step ⟨k, .holding i own, a, v⟩ ⟨k, .before (i + 1), a, v + own.toNat⟩
  | finish {i k a v : Nat} (h : k < i) : Step ⟨k, .before i, a, v⟩ ⟨k, .idle, a, v⟩

/-- The pass in progress has not come to the entry yet. -/
def Ahead (k : Nat) : Pos → Prop
  | .idle => False
  | .before i => i ≤ k
  | .holding i own => i < k ∨ i = k ∧ own = true

/-- It does not come to the entry any more. -/
def Behind (k : Nat) : Pos → Prop
  | .idle => True
  | .before i => k < i
  | .holding i own => k < i ∧ own = false

/-- The cursor that holds the entry is not below its slot. -/
def HoldsAt (k : Nat) : Pos → Prop
  | .holding i own => own = true → k ≤ i
  | _ => True

/-- The entry started in slot `s`. -/
structure Inv (s : Nat) (x : State) : Prop where
  slot : x.slot ≤ s
  turn : x.passes + x.slot ≤ x.visits + s ∨
    x.passes + x.slot ≤ x.visits + s + 1 ∧ Ahead x.slot x.pos
  once : x.visits < x.passes ∨ x.visits ≤ x.passes ∧ Behind x.slot x.pos
  holds : HoldsAt x.slot x.pos

theorem Inv.step {s : Nat} {x x' : State} (inv : Inv s x) (step : Step x x') : Inv s x' := by
  obtain ⟨hslot, hturn, honce, hholds⟩ := inv
  cases step with
  | @shift k p a v =>
    simp only at hslot hturn honce hholds
    refine ⟨by simp only; omega, .inl (by simp only; omega), honce.imp_right fun h => ⟨h.1, ?_⟩, ?_⟩
    · cases p with
      | idle => trivial
      | before i => exact Nat.lt_of_succ_lt h.2
      | holding i own => exact ⟨Nat.lt_of_succ_lt h.2.1, h.2.2⟩
    · cases p with
      | holding i own => exact fun hown => Nat.le_of_succ_le (hholds hown)
      | _ => trivial
  | start h =>
    simp only [Ahead, and_false, or_false] at hturn
    simp only at hslot honce
    exact ⟨hslot, .inr ⟨by simp only; omega, h⟩, .inl (by simp only; omega), trivial⟩
  | @skip i k a v h =>
    simp only [Ahead, Behind] at hslot hturn honce
    refine ⟨hslot, hturn.imp_right fun ht => ⟨ht.1, ?_⟩, honce.imp_right fun ho => ⟨ho.1, ?_⟩,
      trivial⟩
    · exact Nat.lt_of_le_of_ne ht.2 h
    · exact Nat.lt_succ_of_lt ho.2
  | @take i k a v =>
    simp only [Ahead, Behind] at hslot hturn honce
    refine ⟨hslot, hturn.imp_right fun ht => ⟨ht.1, ?_⟩, honce.imp_right fun ho => ⟨ho.1, ho.2, ?_⟩,
      ?_⟩
    · rcases Nat.lt_or_eq_of_le ht.2 with hlt | heq
      · exact .inl hlt
      · exact .inr ⟨heq, decide_eq_true heq⟩
    · exact decide_eq_false (Nat.ne_of_gt ho.2)
    · exact fun heq => Nat.le_of_eq (of_decide_eq_true heq).symm
  | @visit i k a v own =>
    simp only [Ahead, Behind] at hslot hturn honce
    cases own with
    | true =>
      have hki : k ≤ i := hholds rfl
      simp only [Bool.true_eq_false, and_false, or_false] at honce
      exact ⟨hslot, .inl (by simp only [Bool.toNat_true]; omega),
        .inr ⟨honce, Nat.lt_succ_of_le hki⟩, trivial⟩
    | false =>
      simp only [Bool.false_eq_true, and_false, or_false, and_true] at hturn honce
      exact ⟨hslot, hturn.imp_right fun ht => ⟨ht.1, ht.2⟩,
        honce.imp_right fun ho => ⟨ho.1, Nat.lt_succ_of_lt ho.2⟩, trivial⟩
  | finish h =>
    simp only [Ahead, Behind] at hslot hturn honce
    refine ⟨hslot, .inl ?_, honce.imp_right fun ho => ⟨ho.1, trivial⟩, trivial⟩
    exact hturn.resolve_right fun ht => Nat.not_lt.mpr ht.2 h

/-- **Every run.**  An entry that starts in slot `s` between two passes and ends in slot `k`. -/
theorem run_bounds {s k a v : Nat} {p : Pos}
    (run : Relation.ReflTransGen Step ⟨s, .idle, 0, 0⟩ ⟨k, p, a, v⟩) :
    k ≤ s ∧ v ≤ a ∧ a ≤ v + (s - k) + 1 ∧ (p = .idle → a ≤ v + (s - k)) := by
  have start : Inv s ⟨s, .idle, 0, 0⟩ :=
    ⟨Nat.le_refl s, .inl (Nat.le_refl _), .inr ⟨Nat.le_refl 0, trivial⟩, trivial⟩
  obtain ⟨hslot, hturn, honce, -⟩ :=
    Machine.reachable_invariant (fun _ _ inv step => Inv.step inv step) run start
  simp only at hslot hturn honce
  refine ⟨hslot, by omega, by omega, ?_⟩
  rintro rfl
  simp only [Ahead, and_false, or_false] at hturn
  omega

end DataCommons.Tour
