import Mathlib.Logic.Relation

/-!
# Two threads on one shared state

A program is a tree of atomic actions: it ends with a result, aborts, or does one
action and goes on in a way that depends on the state before it.  `Par` puts two
programs beside one state and `Par.Step` lets either do its next action, so a
`Par.Run` is an interleaving of their actions, one at a time.

A `Protocol` says what each thread may do to the state.  `Spec` is what one thread
proves against it, whatever the other does in between: it does not abort, its
actions keep the invariant and the promise of the thread, and its result satisfies
`Q`.  `Par.Sound.run` puts two such proofs together.  The rules for `load`,
`modify` and `>>=` follow the program text.
-/

namespace DataCommons.RelyGuarantee

universe u v w

variable {S : Type u} {α : Type v} {β : Type w}

/-! ## Programs -/

/-- A program over the state `S` with results in `α`. -/
inductive Prog (S : Type u) (α : Type v) : Type (max u v)
  | ret (a : α)
  | abort
  | act (f : S → S) (k : S → Prog S α)

namespace Prog

def bind : Prog S α → (α → Prog S β) → Prog S β
  | ret a, q => q a
  | abort, _ => abort
  | act f k, q => act f fun s => (k s).bind q

instance : Monad (Prog S) where
  pure := ret
  bind := bind

theorem bind_ret (p : Prog S α) : p.bind ret = p := by
  induction p with
  | ret a => rfl
  | abort => rfl
  | act f k ih => exact congrArg (act f) (funext ih)

def load (g : S → α) : Prog S α := act id fun s => ret (g s)

def modify (f : S → S) : Prog S Unit := act f fun _ => ret ()

/-- The program without any other thread. -/
def run : Prog S α → S → Option (α × S)
  | ret a, s => some (a, s)
  | abort, _ => none
  | act f k, s => (k s).run (f s)

@[simp] theorem run_pure (a : α) (s : S) : (pure a : Prog S α).run s = some (a, s) := rfl

@[simp] theorem run_abort (s : S) : (abort : Prog S α).run s = none := rfl

@[simp] theorem run_load (g : S → α) (s : S) : (load g).run s = some (g s, s) := rfl

@[simp] theorem run_modify (f : S → S) (s : S) : (modify f).run s = some ((), f s) := rfl

theorem run_bind' (p : Prog S α) (q : α → Prog S β) (s : S) :
    (p.bind q).run s = (p.run s).bind fun x => (q x.1).run x.2 := by
  induction p generalizing s with
  | ret a => rfl
  | abort => rfl
  | act f k ih => exact ih s (f s)

@[simp] theorem run_bind {α β : Type v} (p : Prog S α) (q : α → Prog S β) (s : S) :
    (p >>= q).run s = (p.run s).bind fun x => (q x.1).run x.2 :=
  run_bind' p q s

end Prog

/-! ## Protocols -/

/-- What the runs are assumed to meet, the invariant, and what a step of this
thread and a step of the other may do to the state. -/
structure Protocol (S : Type u) where
  assume : S → Prop
  inv : S → Prop
  own : S → S → Prop
  other : S → S → Prop
  own_refl : ∀ s, own s s
  own_trans : ∀ {a b c}, own a b → own b c → own a c
  other_refl : ∀ s, other s s
  other_trans : ∀ {a b c}, other a b → other b c → other a c

namespace Protocol

/-- The protocol as the other thread sees it. -/
def swap (P : Protocol S) : Protocol S where
  assume := P.assume
  inv := P.inv
  own := P.other
  other := P.own
  own_refl := P.other_refl
  own_trans := P.other_trans
  other_refl := P.own_refl
  other_trans := P.own_trans

/-- `s'` is a state that the other thread can have made of `s`. -/
def Later (P : Protocol S) (s s' : S) : Prop := P.other s s' ∧ P.inv s'

/-- The thread keeps the protocol from `s` on, and its result satisfies `Q`. -/
def Spec (P : Protocol S) (Q : α → S → Prop) : Prog S α → S → Prop
  | .ret a, s => ∀ s', P.Later s s' → Q a s'
  | .abort, s => ∀ s', ¬ P.Later s s'
  | .act f k, s => ∀ s', P.Later s s' → P.assume (f s') →
      P.inv (f s') ∧ P.own s' (f s') ∧ P.Spec Q (k s') (f s')

variable {P : Protocol S} {Q : α → S → Prop}

theorem Later.trans {s s₁ s₂ : S} (h₁ : P.Later s s₁) (h₂ : P.Later s₁ s₂) : P.Later s s₂ :=
  ⟨P.other_trans h₁.1 h₂.1, h₂.2⟩

theorem Later.refl {s : S} (h : P.inv s) : P.Later s s := ⟨P.other_refl s, h⟩

theorem Spec.of_later {p : Prog S α} {s : S} (h : ∀ s', P.Later s s' → P.Spec Q p s') :
    P.Spec Q p s := by
  cases p with
  | ret a => exact fun s' hs => h s' hs s' (.refl hs.2)
  | abort => exact fun s' hs => h s' hs s' (.refl hs.2)
  | act f k => exact fun s' hs => h s' hs s' (.refl hs.2)

/-- Steps of the other thread keep what this one has proved. -/
theorem Spec.stable {p : Prog S α} {s s₁ : S} (h : P.Spec Q p s) (hs : P.other s s₁) :
    P.Spec Q p s₁ := by
  cases p with
  | ret a => exact fun s' h' => h s' ⟨P.other_trans hs h'.1, h'.2⟩
  | abort => exact fun s' h' => h s' ⟨P.other_trans hs h'.1, h'.2⟩
  | act f k => exact fun s' h' => h s' ⟨P.other_trans hs h'.1, h'.2⟩

theorem Spec.mono {p : Prog S α} {Q' : α → S → Prop} {s : S} (h : P.Spec Q p s)
    (hQ : ∀ a s', P.inv s' → Q a s' → Q' a s') : P.Spec Q' p s := by
  induction p generalizing s with
  | ret a => exact fun s' hs => hQ a s' hs.2 (h s' hs)
  | abort => exact h
  | act f k ih =>
    intro s' hs ha
    obtain ⟨hinv, hown, hk⟩ := h s' hs ha
    exact ⟨hinv, hown, ih s' hk⟩

theorem Spec.pure {a : α} {s : S} (h : ∀ s', P.Later s s' → Q a s') :
    P.Spec Q (Pure.pure a : Prog S α) s := h

/-- **Sequence.** -/
theorem Spec.bind {α β : Type v} {p : Prog S α} {q : α → Prog S β} {Q : β → S → Prop} {s : S}
    (h : P.Spec (fun a s' => P.Spec Q (q a) s') p s) : P.Spec Q (p >>= q) s := by
  change P.Spec Q (p.bind q) s
  induction p generalizing s with
  | ret a => exact .of_later h
  | abort => exact h
  | act f k ih =>
    intro s' hs ha
    obtain ⟨hinv, hown, hk⟩ := h s' hs ha
    exact ⟨hinv, hown, ih s' hk⟩

/-- **Load.** -/
theorem Spec.load {g : S → α} {s : S} (h : ∀ s', P.Later s s' → Q (g s') s')
    (hQ : ∀ a s₁ s₂, Q a s₁ → P.Later s₁ s₂ → Q a s₂) : P.Spec Q (Prog.load g) s :=
  fun s' hs _ => ⟨hs.2, P.own_refl s', fun _ h₁ => hQ _ _ _ (h s' hs) h₁⟩

theorem Spec.load_bind {α β : Type v} {g : S → α} {q : α → Prog S β} {Q : β → S → Prop} {s : S}
    (h : ∀ s', P.Later s s' → P.Spec Q (q (g s')) s') : P.Spec Q (Prog.load g >>= q) s :=
  fun s' hs _ => ⟨hs.2, P.own_refl s', h s' hs⟩

/-- A change of the state in front of a program. -/
theorem Spec.modify_bind {β : Type} {f : S → S} {q : Unit → Prog S β} {Q : β → S → Prop} {s : S}
    (h : ∀ s', P.Later s s' → P.assume (f s') →
      P.inv (f s') ∧ P.own s' (f s') ∧ P.Spec Q (q ()) (f s')) :
    P.Spec Q (Prog.modify f >>= q) s := h

end Protocol

/-! ## Interleavings -/

/-- One state and the rest of two programs on it. -/
structure Par (S : Type u) (α : Type v) (β : Type w) where
  state : S
  left : Prog S α
  right : Prog S β

namespace Par

/-- One of the two threads does its next action. -/
inductive Step : Par S α β → Par S α β → Prop
  | left (s : S) (f : S → S) (k : S → Prog S α) (q : Prog S β) :
      Step ⟨s, .act f k, q⟩ ⟨f s, k s, q⟩
  | right (s : S) (p : Prog S α) (f : S → S) (k : S → Prog S β) :
      Step ⟨s, p, .act f k⟩ ⟨f s, p, k s⟩

/-- An interleaving whose states meet `A`. -/
def Run (A : S → Prop) : Par S α β → Par S α β → Prop :=
  Relation.ReflTransGen fun c c' => Step c c' ∧ A c'.state

/-- The left thread does the first part of its program while the right one waits. -/
theorem run_left_bind {α α' : Type v} {p : Prog S α'} {k : α' → Prog S α} {q : Prog S β}
    {s s' : S} {a : α'} (h : p.run s = some (a, s')) :
    Run (fun _ => True) ⟨s, p >>= k, q⟩ ⟨s', k a, q⟩ := by
  induction p generalizing s with
  | ret b =>
    cases h
    exact .refl
  | abort => cases h
  | act f j ih => exact .head ⟨.left s f _ q, trivial⟩ (ih s h)

theorem run_left {p : Prog S α} {q : Prog S β} {s s' : S} {a : α}
    (h : p.run s = some (a, s')) : Run (fun _ => True) ⟨s, p, q⟩ ⟨s', .ret a, q⟩ := by
  have hrun := run_left_bind (k := .ret) (q := q) h
  rwa [show p >>= .ret = p from p.bind_ret] at hrun

theorem run_right {α : Type v} {p : Prog S α} {q : Prog S β} {s s' : S} {b : β}
    (h : q.run s = some (b, s')) : Run (fun _ => True) ⟨s, p, q⟩ ⟨s', p, .ret b⟩ := by
  induction q generalizing s with
  | ret a =>
    cases h
    exact .refl
  | abort => cases h
  | act f k ih => exact .head ⟨.right s p f k, trivial⟩ (ih s h)

/-- The next action of the left thread (`true`) or of the right one; nothing if it has ended. -/
def next (c : Par S α β) : Bool → Par S α β
  | true =>
    match c.left with
    | .act f k => ⟨f c.state, k c.state, c.right⟩
    | _ => c
  | false =>
    match c.right with
    | .act f k => ⟨f c.state, c.left, k c.state⟩
    | _ => c

/-- The threads take turns as the list says. -/
def sched (c : Par S α β) (turns : List Bool) : Par S α β := turns.foldl next c

/-- All states on the way meet `A`. -/
def schedMeets (A : S → Prop) [DecidablePred A] : Par S α β → List Bool → Bool
  | _, [] => true
  | c, b :: turns => decide (A (c.next b).state) && schedMeets A (c.next b) turns

theorem next_step (c : Par S α β) (b : Bool) : c.next b = c ∨ Step c (c.next b) := by
  obtain ⟨s, p, q⟩ := c
  cases b with
  | true =>
    cases p with
    | act f k => exact .inr (.left s f k q)
    | _ => exact .inl rfl
  | false =>
    cases q with
    | act f k => exact .inr (.right s p f k)
    | _ => exact .inl rfl

/-- **A schedule is a run.** -/
theorem run_sched {A : S → Prop} [DecidablePred A] {c : Par S α β} (turns : List Bool)
    (h : schedMeets A c turns = true) : Run A c (c.sched turns) := by
  induction turns generalizing c with
  | nil => exact .refl
  | cons b turns ih =>
    obtain ⟨ha, hrest⟩ := Bool.and_eq_true_iff.mp h
    rcases next_step c b with heq | hs
    · have := ih hrest
      rw [heq] at this
      rwa [sched, List.foldl_cons, heq]
    · exact Relation.ReflTransGen.head ⟨hs, of_decide_eq_true ha⟩ (ih hrest)

/-- Both threads keep the protocol. -/
structure Sound (P : Protocol S) (Q : α → S → Prop) (Q' : β → S → Prop) (c : Par S α β) :
    Prop where
  inv : P.inv c.state
  left : P.Spec Q c.left c.state
  right : P.swap.Spec Q' c.right c.state

variable {P : Protocol S} {Q : α → S → Prop} {Q' : β → S → Prop}

/-- **Step lemma.** -/
theorem Sound.step {c c' : Par S α β} (h : Sound P Q Q' c) (hs : Step c c')
    (ha : P.assume c'.state) : Sound P Q Q' c' := by
  cases hs with
  | left s f k q =>
    obtain ⟨hinv, hown, hk⟩ := h.left s (.refl h.inv) ha
    exact ⟨hinv, hk, h.right.stable hown⟩
  | right s p f k =>
    obtain ⟨hinv, hown, hk⟩ := h.right s (.refl h.inv) ha
    exact ⟨hinv, h.left.stable hown, hk⟩

/-- **Run lemma.** -/
theorem Sound.run {c c' : Par S α β} (h : Sound P Q Q' c) (hr : Run P.assume c c') :
    Sound P Q Q' c' := by
  induction hr with
  | refl => exact h
  | tail _ hs ih => exact ih.step hs.1 hs.2

theorem Sound.left_result {c : Par S α β} (h : Sound P Q Q' c) {a : α} (ha : c.left = .ret a) :
    Q a c.state := by
  have hl := h.left
  rw [ha] at hl
  exact hl _ (.refl h.inv)

theorem Sound.right_result {c : Par S α β} (h : Sound P Q Q' c) {b : β} (hb : c.right = .ret b) :
    Q' b c.state := by
  have hr := h.right
  rw [hb] at hr
  exact hr _ (.refl (P := P.swap) h.inv)

theorem Sound.left_ne_abort {c : Par S α β} (h : Sound P Q Q' c) : c.left ≠ .abort := fun ha => by
  have hl := h.left
  rw [ha] at hl
  exact hl _ (.refl h.inv)

theorem Sound.right_ne_abort {c : Par S α β} (h : Sound P Q Q' c) : c.right ≠ .abort := fun ha => by
  have hr := h.right
  rw [ha] at hr
  exact hr _ (.refl (P := P.swap) h.inv)

end Par

end DataCommons.RelyGuarantee
