import DataCommons.Lib.Machine

/-!
# A cursor over a table whose entries move down by copies

One entry of the table is watched.  It moves to the slot below by being copied there, and
for a time it stands in both slots, until the upper one is overwritten (`trail`).  A cursor
goes once through the slots upwards, at any time between two of these stores: it takes what
it finds in a slot, and visits it later.

* `run_bounds`: over any run, the entry is visited at most twice, and missed only if it has
  moved.
-/

namespace DataCommons.Trail

/-- Where the cursor is: before slot `i`, holding what it found in slot `i`, where `own` says
whether that is the watched entry, or past the last slot. -/
inductive Pos where
  | before (i : Nat)
  | holding (i : Nat) (own : Bool)
  | done

/-- The lower slot of the watched entry, whether it is in the slot above as well, the cursor,
and the visits. -/
structure State where
  slot : Nat
  trail : Bool
  pos : Pos
  visits : Nat

/-- Slot `i` holds the entry. -/
def Holds (k : Nat) (t : Bool) (i : Nat) : Prop := i = k ∨ t = true ∧ i = k + 1

instance (k : Nat) (t : Bool) (i : Nat) : Decidable (Holds k t i) :=
  inferInstanceAs (Decidable (_ ∨ _))

/-- What happens to the entry at one store. -/
inductive Move : Nat → Bool → Nat → Bool → Prop
  | stay {k : Nat} {t : Bool} : Move k t k t
  | copy {k : Nat} : Move (k + 1) false k true
  | clear {k : Nat} : Move k true k false

inductive Step : State → State → Prop
  | move {k k' v : Nat} {t t' : Bool} {p : Pos} (h : Move k t k' t') :
      Step ⟨k, t, p, v⟩ ⟨k', t', p, v⟩
  | take {k i v : Nat} {t : Bool} :
      Step ⟨k, t, .before i, v⟩ ⟨k, t, .holding i (Holds k t i), v⟩
  | visit {k i v : Nat} {t own : Bool} :
      Step ⟨k, t, .holding i own, v⟩ ⟨k, t, .before (i + 1), v + own.toNat⟩
  | finish {k i v : Nat} {t : Bool} (h : k < i) : Step ⟨k, t, .before i, v⟩ ⟨k, t, .done, v⟩

/-- The visit that is about to be made. -/
def Pos.due : Pos → Nat
  | .holding _ own => own.toNat
  | _ => 0

/-- Slot `k` is taken no more. -/
def Pos.Past (k : Nat) : Pos → Prop
  | .before i => k < i
  | .holding i _ => k ≤ i
  | .done => True

/-- It is still to be taken. -/
def Pos.Ahead (k : Nat) : Pos → Prop
  | .before i => i ≤ k
  | .holding i _ => i < k
  | .done => False

/-- The entry started in slot `s`. -/
structure Inv (s : Nat) (x : State) : Prop where
  slot : x.slot ≤ s
  most : x.visits + x.pos.due ≤ 2
  once : 1 ≤ x.visits + x.pos.due → x.pos.Past x.slot
  twice : 2 ≤ x.visits + x.pos.due → x.pos.Past (x.slot + 1)
  least : 1 ≤ x.visits + x.pos.due + (s - x.slot) ∨ x.pos.Ahead x.slot

theorem Pos.Past.mono {k k' : Nat} (hk : k' ≤ k) {p : Pos} (h : p.Past k) : p.Past k' := by
  cases p with
  | before i => exact Nat.lt_of_le_of_lt hk h
  | holding i own => exact Nat.le_trans hk h
  | done => trivial

theorem Inv.move {s k k' v : Nat} {t t' : Bool} {p : Pos} (inv : Inv s ⟨k, t, p, v⟩)
    (h : Move k t k' t') : Inv s ⟨k', t', p, v⟩ := by
  obtain ⟨hslot, hmost, honce, htwice, hleast⟩ := inv
  dsimp only at hslot hmost honce htwice hleast
  cases h with
  | stay => exact ⟨hslot, hmost, honce, htwice, hleast⟩
  | clear => exact ⟨hslot, hmost, honce, htwice, hleast⟩
  | copy =>
    refine ⟨Nat.le_of_succ_le hslot, hmost, fun h => (honce h).mono (Nat.le_succ _),
      fun h => (htwice h).mono (Nat.le_succ _), .inl ?_⟩
    dsimp only
    omega

theorem Inv.take {s k i v : Nat} {t : Bool} (inv : Inv s ⟨k, t, .before i, v⟩) :
    Inv s ⟨k, t, .holding i (Holds k t i), v⟩ := by
  obtain ⟨hslot, hmost, honce, htwice, hleast⟩ := inv
  simp only [Pos.due, Pos.Past, Pos.Ahead, Nat.add_zero] at hslot hmost honce htwice hleast
  by_cases hown : Holds k t i
  · rw [decide_eq_true hown]
    have hi : i = k ∨ i = k + 1 := hown.imp_right And.right
    refine ⟨hslot, ?_, ?_, ?_, .inl ?_⟩ <;> simp only [Pos.due, Pos.Past, Bool.toNat_true] <;> omega
  · rw [decide_eq_false hown]
    have hi : i ≠ k := fun h => hown (.inl h)
    refine ⟨hslot, ?_, ?_, ?_, ?_⟩ <;>
      simp only [Pos.due, Pos.Past, Pos.Ahead, Bool.toNat_false] <;> omega

theorem Inv.step {s : Nat} {x x' : State} (inv : Inv s x) (step : Step x x') : Inv s x' := by
  cases step with
  | move h => exact inv.move h
  | take => exact inv.take
  | visit =>
    obtain ⟨hslot, hmost, honce, htwice, hleast⟩ := inv
    simp only [Pos.due, Pos.Past, Pos.Ahead] at hslot hmost honce htwice hleast
    refine ⟨hslot, ?_, ?_, ?_, ?_⟩ <;> simp only [Pos.due, Pos.Past, Pos.Ahead] <;> omega
  | finish h =>
    obtain ⟨hslot, hmost, -, -, hleast⟩ := inv
    simp only [Pos.due, Pos.Ahead] at hslot hmost hleast
    exact ⟨hslot, hmost, fun _ => trivial, fun _ => trivial,
      .inl (hleast.resolve_right (Nat.not_le_of_lt h))⟩

/-- **Every run**, of a cursor that starts at or below the entry's slot `s`. -/
theorem run_bounds {s k i v : Nat} {t₀ t : Bool} {p : Pos} (hi : i ≤ s)
    (run : Relation.ReflTransGen Step ⟨s, t₀, .before i, 0⟩ ⟨k, t, p, v⟩) :
    k ≤ s ∧ v ≤ 2 ∧ (p = .done → 1 ≤ v + (s - k)) := by
  have start : Inv s ⟨s, t₀, .before i, 0⟩ :=
    ⟨Nat.le_refl s, Nat.zero_le 2, fun h => absurd h (Nat.not_succ_le_zero 0),
      fun h => absurd h (Nat.not_succ_le_zero 1), .inr hi⟩
  obtain ⟨hslot, hmost, -, -, hleast⟩ :=
    Machine.reachable_invariant (fun _ _ inv step => Inv.step inv step) run start
  dsimp only at hslot hmost hleast
  refine ⟨hslot, by omega, ?_⟩
  rintro rfl
  exact hleast.resolve_right id

end DataCommons.Trail
