import DataCommons.Comms.Lifecycle
import DataCommons.Comms.Listener

/-!
# CommsClose returns

All threads of a server with a callback: its accepter, its listener, the caller of
`CommsClose`, and other threads that call `CommsDisconnect`.  The two joins return only once
their thread has ended; a `recv` or `accept` on a descriptor that blocks does not return; and
every step is one locked section, one statement of `CommsClose` or one system call.

* `lifeStep_left`, `listenStep_left`: what one step leaves of each thread's work;
* `commsClose_returns`: the caller makes a bounded number of steps; once it has cleared
  `running` so do the other two threads; no join is undefined; and if no descriptor blocks,
  one of the threads can go on until it has returned.
-/

namespace DataCommons.Comms

open Commh

/-- A server and its listener, which is `none` behind its loop. -/
structure Closing where
  life : Life
  listener : Option Phase

inductive ThreadEvent where
  | life (e : LifeEvent)
  | user (cid : BitVec 16)
  | listen (answer : RecvResult)

def LifeEvent.joinsListener : LifeEvent → Bool
  | .joinListener => true
  | _ => false

/-- A part of a `CommsDisconnect`. -/
def LifeEvent.disconnects : LifeEvent → Bool
  | .lock _ | .acc (.disconnect _) => true
  | _ => false

/-- A whole `CommsDisconnect`, which is one locked section. -/
def disconnectStep (s : Life) (cid : BitVec 16) : Option (Life × List OsCall) :=
  match lifeStep s (.lock cid) with
  | none => none
  | some (s, _) => lifeStep s (.acc (.disconnect cid))

/-- A step of the listener; `answer` is what `recv` returns. -/
def listenStep (s : Closing) (answer : RecvResult) : Option (Closing × List OsCall) :=
  let h := s.life.acc.h
  match s.listener with
  | none => none
  | some .top =>
    some ({ s with listener := if h.running then some (listenerCount h) else none }, [])
  | some (.scan i n) =>
    match listenerRead h i n with
    | none => none
    | some p => some ({ s with listener := some p }, [])
  | some (.holding i n _ addr) =>
    some ({ s with listener := some (listenerRecv h i n addr answer).1 }, [])
  | some (.closing i n) =>
    match disconnectStep s.life (BitVec.ofNat 16 i) with
    | none => none
    | some (life, calls) => some (⟨life, some (.scan (i + 1) n)⟩, calls)

/-- The thread is in a system call that does not return. -/
def Closing.blocked (blocks : ℤ → Bool) (s : Closing) : ThreadEvent → Bool
  | .life (.acc (.answer _)) => blocks (s.life.acc.h.slot 0).1
  | .listen _ =>
    match s.listener with
    | some (.holding _ _ fd _) => blocks fd
    | _ => false
  | _ => false

/-- A step where `blocks` says on which descriptors `accept` and `recv` do not return;
`pthread_join` waits for the listener. -/
def threadStep (blocks : ℤ → Bool) (s : Closing) (e : ThreadEvent) :
    Option (Closing × List OsCall) :=
  if s.blocked blocks e then none
  else
    match e with
    | .life e =>
      if e.disconnects ∨ (e.joinsListener ∧ s.listener ≠ none) then none
      else
        match lifeStep s.life e with
        | none => none
        | some (life, calls) => some ({ s with life }, calls)
    | .user cid =>
      match disconnectStep s.life cid with
      | none => none
      | some (life, calls) => some ({ s with life }, calls)
    | .listen answer => listenStep s answer

def Closing.start (h : Commh) (calls : List OsCall) : Closing :=
  ⟨Life.start h calls, if h.running then some .top else none⟩

/-! ## Whose step it is, and what is left -/

def LifeEvent.closes : LifeEvent → Bool
  | .closeNext | .joinListener | .joinAccepter => true
  | _ => false

def LifeEvent.accepts : LifeEvent → Bool
  | .acc (.disconnect _) => false
  | .acc _ => true
  | _ => false

namespace ThreadEvent

def closes : ThreadEvent → Bool
  | .life e => e.closes
  | _ => false

/-- A step of `CommsClose`, of the accepter or of the listener. -/
def own : ThreadEvent → Bool
  | .life e => e.closes || e.accepts
  | .user _ => false
  | .listen _ => true

end ThreadEvent

/-- `CommsClose` has cleared `running`. -/
def Stage.stopped : Stage → Bool
  | .inUse | .closing _ | .round _ _ | .leaving => false
  | _ => true

def Statement.left : Statement → ℕ
  | .test => 5
  | .shutdown => 4
  | .close => 3
  | .store => 2
  | .clear => 1

/-- The steps of the caller; a round has six. -/
def Stage.left : Stage → ℕ
  | .inUse => 6 * commsMaxClients + 4
  | .closing i => 6 * (commsMaxClients - i) + 4
  | .round statement i => statement.left + 6 * (commsMaxClients - (i + 1)) + 4
  | .leaving => 3
  | .joinListener => 2
  | .joinAccepter => 1
  | .closed | .undefined => 0

/-- The steps of the accepter once `running` is false. -/
def AccPhase.left : AccPhase → ℕ
  | .top => 1
  | .accepting => 3
  | .holding _ _ => 2
  | .ended => 0

/-- The steps of the listener once `running` is false. -/
def Phase.left : Phase → ℕ
  | .top => 1
  | .scan i n => 3 * (n - i) + 2
  | .holding i n _ _ => 3 * (n - i) + 1
  | .closing i n => 3 * (n - i)

def Closing.left (s : Closing) : ℕ :=
  s.life.stage.left + s.life.acc.phase.left + (s.listener.map Phase.left).getD 0

/-! ## The handle -/

/-- The slot that `CommsClose` is at is one of the table. -/
def Stage.Bounded : Stage → Prop
  | .closing i => i ≤ commsMaxClients
  | .round _ i => i < commsMaxClients
  | _ => True

/-- A server's handle between locked sections, whose `running` was cleared behind the loop, and
whose threads are there to be joined. -/
structure LifeShape (s : Life) : Prop where
  isServer : IsServer s.acc.h
  recvcb : s.acc.h.recvcb = true
  free : s.inside = none
  bounded : s.stage.Bounded
  threads : ThreadsInv s.acc.h s.books.threads.held s.stage
  stopped : s.stage.stopped = true → s.acc.h.running = false

/-- What a step leaves: to the caller one step less if it is the caller's, and behind the loop
to the accepter one less if it is the accepter's. -/
structure Leaves (s t : Life) (closes accepts : Bool) : Prop where
  shape : LifeShape t
  stage : t.stage.left + (if closes then 1 else 0) ≤ s.stage.left
  stopped : s.stage.stopped = true → t.stage.stopped = true ∧
    t.acc.phase.left + (if accepts then 1 else 0) ≤ s.acc.phase.left

/-- A handle with the same threads and kind is one of the same shape. -/
theorem LifeShape.handle {s : Life} (inv : LifeShape s) {acc : AccSt} (hs : IsServer acc.h)
    (ht : SameThreads s.acc.h acc.h) {books : Books} (hbooks : books.threads = s.books.threads) :
    LifeShape { s with acc, books } := by
  have hserver : acc.h.server = s.acc.h.server := hs.server.trans inv.isServer.server.symm
  refine ⟨hs, ht.recvcb.trans inv.recvcb, inv.free, inv.bounded, ?_,
    fun hst => ht.running.trans (inv.stopped hst)⟩
  dsimp only
  rw [hbooks]
  exact inv.threads.of_same ht hserver

theorem IsServer.disconnect {h h' : Commh} (hs : IsServer h) {cid : BitVec 16}
    {calls : List OsCall} {r : Bool} (hd : commsDisconnect h cid = some (h', calls, r)) :
    IsServer h' := by
  rcases commsDisconnect_spec hs cid with ⟨g, hd', -, -, -, hrem⟩ | ⟨line, hd', -⟩
  · cases hd.symm.trans hd'
    exact hrem.isServer
  · cases hd.symm.trans hd'
    exact hs.of_sameFrame ⟨rfl, rfl, rfl⟩

/-- Once `running` is false, each of the accepter's steps brings it nearer to its end. -/
theorem accStep_left {s t : AccSt} (hs : IsServer s.h) {e : AccEvent} {calls : List OsCall}
    (hstep : accStep s e = some (t, calls)) :
    IsServer t.h ∧ SameThreads s.h t.h ∧ (s.h.running = false →
      t.phase.left + (if (LifeEvent.acc e).accepts then 1 else 0) ≤ s.phase.left) := by
  have hloop (loop : Loop) : loop.phase.left ≤ 1 := by cases loop <;> decide
  cases accStep_cases hstep with
  | test h =>
    refine ⟨hs, ⟨rfl, rfl, rfl, rfl⟩, fun hrun => ?_⟩
    rw [if_neg (by rw [show h.running = false from hrun]; decide)]
    exact Nat.le_refl 1
  | @fail h errno loop hacc =>
    exact ⟨hs, ⟨rfl, rfl, rfl, rfl⟩,
      fun _ => Nat.le_trans (Nat.succ_le_succ (hloop loop)) (Nat.le_succ 2)⟩
  | conn h hcs cli => exact ⟨hs, ⟨rfl, rfl, rfl, rfl⟩, fun _ => Nat.le_refl 3⟩
  | @enter h h' cs cli _ loop hacc =>
    have ht := commsAccepter_threads h (.conn cs cli)
    rw [hacc] at ht
    refine ⟨?_, ht, fun _ => Nat.succ_le_succ (hloop loop)⟩
    rcases Nat.lt_or_ge h.clientCount commsMaxClients with hlt | hfull
    · obtain ⟨h₁, hacc₁, hent⟩ := commsAccepter_enter hs cs cli hlt
      cases hacc₁.symm.trans hacc
      exact hent.isServer
    · cases (commsAccepter_full cs cli hfull).symm.trans hacc
      exact hs.of_sameFrame ⟨rfl, rfl, rfl⟩
  | disconnect phase hd =>
    exact ⟨hs.disconnect hd, commsDisconnect_threads hd, fun _ => Nat.le_refl _⟩

theorem accStep_books {s t : AccSt} (hs : IsServer s.h) {e : AccEvent} {calls : List OsCall}
    (hstep : accStep s e = some (t, calls)) (b : Books) :
    ((b.accepted e).record calls).threads = b.threads := by
  cases accStep_cases hstep with
  | test h => rfl
  | fail hacc => rfl
  | conn h hcs cli => rfl
  | @enter h h' cs cli _ loop hacc =>
    rw [commsAccepter] at hacc
    split at hacc
    · cases hacc
      split <;> rfl
    · cases hacc
      rfl
  | disconnect phase hd =>
    rcases commsDisconnect_spec hs _ with ⟨g, hd', -⟩ | ⟨line, hd', -⟩
    · cases hd.symm.trans hd'
      rfl
    · cases hd.symm.trans hd'
      rfl

theorem LifeShape.acc {s t : Life} (inv : LifeShape s) {e : AccEvent}
    (he : (LifeEvent.acc e).disconnects = false) {calls : List OsCall}
    (hstep : lifeStep s (.acc e) = some (t, calls)) :
    Leaves s t false (LifeEvent.acc e).accepts := by
  rw [lifeStep] at hstep
  split at hstep
  · cases hstep
  · split at hstep
    · cases hstep
    · rename_i hacc
      obtain ⟨hs, ht, hleft⟩ := accStep_left inv.isServer hacc
      have hshape := inv.handle hs ht (accStep_books inv.isServer hacc s.books)
      cases hstep
      refine ⟨?_, Nat.le_refl _, fun hst => ⟨hst, hleft (inv.stopped hst)⟩⟩
      cases e with
      | disconnect cid => cases he
      | _ => exact hshape

/-- A whole `CommsDisconnect` leaves the mutex free. -/
theorem LifeShape.disconnect {s t : Life} (inv : LifeShape s) {cid : BitVec 16}
    {calls : List OsCall} (hstep : disconnectStep s cid = some (t, calls)) :
    Leaves s t false false := by
  rw [disconnectStep, lifeStep, if_pos ⟨inv.isServer.server, inv.free⟩] at hstep
  dsimp only at hstep
  rw [lifeStep] at hstep
  split at hstep
  · cases hstep
  · split at hstep
    · cases hstep
    · rename_i hacc
      obtain ⟨hs, ht, hleft⟩ := accStep_left inv.isServer hacc
      have hshape := inv.handle hs ht (accStep_books inv.isServer hacc s.books)
      cases hstep
      exact ⟨{ hshape with free := rfl }, Nat.le_refl _,
        fun hst => ⟨hst, hleft (inv.stopped hst)⟩⟩

theorem LifeShape.connect {s t : Life} (inv : LifeShape s) {ip : BitVec 32} {port : BitVec 16}
    {ret : ℤ} {calls : List OsCall} (hstep : lifeStep s (.connect ip port ret) = some (t, calls)) :
    Leaves s t false false := by
  rw [lifeStep] at hstep
  split at hstep
  · split at hstep
    · cases hstep
    · rename_i hc
      cases hstep
      rw [commsConnect, if_pos inv.isServer.server] at hc
      cases hc
      have hs : IsServer (AccSt.mk (setError s.acc.h .connect "CommsConnect" 312) s.acc.phase).h :=
        inv.isServer.of_sameFrame ⟨rfl, rfl, rfl⟩
      exact ⟨inv.handle hs ⟨rfl, rfl, rfl, rfl⟩ rfl, Nat.le_refl _, fun hst => ⟨hst, Nat.le_refl _⟩⟩
  · cases hstep

theorem LifeShape.close {s t : Life} (inv : LifeShape s) {calls : List OsCall}
    (hstep : lifeStep s .close = some (t, calls)) : Leaves s t false false := by
  rw [lifeStep] at hstep
  split at hstep
  · rename_i hstage
    cases hstep
    have hpos : s.acc.h.clientCount > 0 := inv.isServer.count_pos
    have hthreads := inv.threads
    rw [hstage] at hthreads
    rw [if_pos hpos]
    refine ⟨⟨inv.isServer, inv.recvcb, inv.free, Nat.zero_le _, hthreads inv.recvcb,
      (absurd · Bool.false_ne_true)⟩, ?_, fun hst => ?_⟩
    · rw [hstage]
      exact Nat.le_refl _
    · rw [hstage] at hst
      cases hst
  · cases hstep

theorem closeNext_left {h h' : Commh} (hs : IsServer h) {stage stage' : Stage}
    {calls : List OsCall} (hc : closeNext h stage = some (h', calls, stage')) :
    SameFrame h h' ∧ (h'.recvcb = h.recvcb ∧ h'.threads = h.threads) ∧
      (∀ b : Books, (b.record calls).threads = b.threads) ∧ stage'.left + 1 ≤ stage.left ∧
      stage'.Bounded ∧ stage.stopped = false ∧
      (∀ held, ThreadsInv h' held stage' ↔ held = h'.threads) ∧
      (stage'.stopped = true → h'.running = false) := by
  have hle := hs.count_le
  cases stage with
  | closing i =>
    cases hc
    refine ⟨⟨rfl, rfl, rfl⟩, ⟨rfl, rfl⟩, fun _ => rfl, ?_⟩
    split
    · rename_i hi
      refine ⟨?_, lt_of_lt_of_le hi hle, rfl, fun _ => Iff.rfl, (absurd · Bool.false_ne_true)⟩
      simp only [Stage.left, Statement.left]
      omega
    · exact ⟨Nat.le_add_left 4 _, trivial, rfl, fun _ => Iff.rfl, (absurd · Bool.false_ne_true)⟩
  | round statement i =>
    rw [closeNext] at hc
    split at hc
    · cases hc
    · rename_i sock addr hslot
      have hi : i < commsMaxClients := by
        by_contra hge
        rw [slot?_eq_none _ (Nat.le_of_not_lt hge)] at hslot
        cases hslot
      cases statement with
      | test =>
        cases hc
        refine ⟨⟨rfl, rfl, rfl⟩, ⟨rfl, rfl⟩, fun _ => rfl, ?_⟩
        split
        · exact ⟨by simp only [Stage.left, Statement.left]; omega, hi, rfl, fun _ => Iff.rfl,
            (absurd · Bool.false_ne_true)⟩
        · exact ⟨by simp only [Stage.left, Statement.left]; omega, hi, rfl, fun _ => Iff.rfl,
            (absurd · Bool.false_ne_true)⟩
      | shutdown | close | store | clear =>
        cases hc
        exact ⟨⟨rfl, rfl, rfl⟩, ⟨rfl, rfl⟩, fun _ => rfl,
          by simp only [Stage.left, Statement.left]; omega, hi, rfl, fun _ => Iff.rfl,
          (absurd · Bool.false_ne_true)⟩
  | leaving =>
    cases hc
    exact ⟨⟨rfl, rfl, rfl⟩, ⟨rfl, rfl⟩, fun _ => rfl, Nat.le_refl 3, trivial, rfl,
      fun _ => Iff.rfl, fun _ => rfl⟩
  | _ => cases hc

theorem threadsInv_unstopped {h : Commh} {held : List ℕ} {stage : Stage} (hcb : h.recvcb = true)
    (hst : stage.stopped = false) (inv : ThreadsInv h held stage) : held = h.threads := by
  cases stage with
  | inUse => exact inv hcb
  | closing i | round statement i | leaving => exact inv
  | _ => cases hst

theorem LifeShape.closeNext {s t : Life} (inv : LifeShape s) {calls : List OsCall}
    (hstep : lifeStep s .closeNext = some (t, calls)) : Leaves s t true false := by
  rw [lifeStep] at hstep
  split at hstep
  · cases hstep
  · rename_i hc
    cases hstep
    obtain ⟨hf, ⟨hcb, ht⟩, hbooks, hleft, hbounded, hst, hthreads, hrun⟩ :=
      closeNext_left inv.isServer hc
    have hheld := threadsInv_unstopped inv.recvcb hst inv.threads
    refine ⟨⟨inv.isServer.of_sameFrame hf, hcb.trans inv.recvcb, inv.free, hbounded, ?_, hrun⟩,
      hleft, fun hstopped => ?_⟩
    · rw [hthreads, hbooks, ht]
      exact hheld
    · rw [hst] at hstopped
      cases hstopped

theorem LifeShape.joinListener {s t : Life} (inv : LifeShape s) {calls : List OsCall}
    (hstep : lifeStep s .joinListener = some (t, calls)) : Leaves s t true false := by
  simp only [lifeStep] at hstep
  split at hstep
  · cases hstep
  · rename_i hguard
    have hstage := not_not.mp hguard
    cases hstep
    have hthreads := inv.threads
    rw [hstage] at hthreads
    have hheld : s.books.threads.held = [s.acc.h.listener, s.acc.h.accepter] :=
      hthreads.trans (if_pos inv.isServer.server)
    have hrun := inv.stopped (by rw [hstage]; rfl)
    rw [if_neg (by simp [hheld]), if_pos inv.isServer.server]
    refine ⟨⟨inv.isServer, inv.recvcb, inv.free, trivial, ?_, fun _ => hrun⟩, ?_,
      fun _ => ⟨rfl, Nat.le_refl _⟩⟩
    · exact congrArg Ledger.held (Ledger.release_head hheld)
    · rw [hstage]
      exact Nat.le_refl 2

theorem LifeShape.joinAccepter {s t : Life} (inv : LifeShape s) {calls : List OsCall}
    (hstep : lifeStep s .joinAccepter = some (t, calls)) : Leaves s t true false := by
  simp only [lifeStep] at hstep
  split at hstep
  · cases hstep
  · rename_i hguard
    have hstage := not_not.mp (not_or.mp hguard).1
    cases hstep
    have hthreads := inv.threads
    rw [hstage] at hthreads
    have hheld : s.books.threads.held = [s.acc.h.accepter] := hthreads
    have hrun := inv.stopped (by rw [hstage]; rfl)
    rw [if_neg (by simp [hheld])]
    refine ⟨⟨inv.isServer, inv.recvcb, inv.free, trivial, ?_, fun _ => hrun⟩, ?_,
      fun _ => ⟨rfl, Nat.le_refl _⟩⟩
    · exact congrArg Ledger.held (Ledger.release_head hheld)
    · rw [hstage]
      exact Nat.le_refl 1

/-- **One step of the caller or the accepter.** -/
theorem lifeStep_left {s t : Life} (inv : LifeShape s) {e : LifeEvent} (he : e.disconnects = false)
    {calls : List OsCall} (hstep : lifeStep s e = some (t, calls)) :
    Leaves s t e.closes e.accepts := by
  cases e with
  | acc e => exact inv.acc he hstep
  | lock cid => cases he
  | connect ip port ret => exact inv.connect hstep
  | close => exact inv.close hstep
  | closeNext => exact inv.closeNext hstep
  | joinListener => exact inv.joinListener hstep
  | joinAccepter => exact inv.joinAccepter hstep

/-! ## The listener -/

/-- The count that the listener took is one of a table. -/
def Phase.Within : Phase → Prop
  | .top => True
  | .scan _ n => n ≤ commsMaxClients
  | .holding i n _ _ => i < n ∧ n ≤ commsMaxClients
  | .closing i n => i < n ∧ n ≤ commsMaxClients

structure ClosingInv (s : Closing) : Prop where
  life : LifeShape s.life
  listener : ∀ p, s.listener = some p → p.Within

theorem listenerRead_left {h : Commh} {i n : ℕ} {p : Phase} (hn : n ≤ commsMaxClients)
    (hr : listenerRead h i n = some p) : p.Within ∧ p.left + 1 ≤ (Phase.scan i n).left := by
  by_cases hin : i < n
  · rw [listenerRead_of_lt h hin hn] at hr
    split at hr
    · cases hr
      refine ⟨hn, ?_⟩
      simp only [Phase.left]
      omega
    · cases hr
      exact ⟨⟨hin, hn⟩, Nat.le_refl _⟩
  · rw [listenerRead, if_neg hin] at hr
    cases hr
    exact ⟨trivial, Nat.le_add_left 2 _⟩

theorem listenerRecv_left {h : Commh} {i n : ℕ} {addr : SockaddrIn} (answer : RecvResult)
    (hin : i < n) (hn : n ≤ commsMaxClients) : (listenerRecv h i n addr answer).1.Within ∧
      (listenerRecv h i n addr answer).1.left + 1 ≤ 3 * (n - i) + 1 := by
  rcases listenerRecv_phase h i n addr answer with hphase | hphase
  · rw [hphase]
    refine ⟨hn, ?_⟩
    simp only [Phase.left]
    omega
  · rw [hphase]
    exact ⟨⟨hin, hn⟩, Nat.le_refl _⟩

theorem LifeShape.listener_moves {life : Life} (hlife : LifeShape life) {phase p : Phase}
    (hp : p.Within) (hleft : p.left + 1 ≤ phase.left) :
    ClosingInv ⟨life, some p⟩ ∧ life.stage.left ≤ life.stage.left ∧
      (life.stage.stopped = true → life.stage.stopped = true ∧
        (Closing.mk life (some p)).left + 1 ≤ (Closing.mk life (some phase)).left) := by
  refine ⟨⟨hlife, fun q hq => ?_⟩, Nat.le_refl _, fun hst => ⟨hst, ?_⟩⟩
  · cases hq
    exact hp
  · simp only [Closing.left, Option.map_some, Option.getD_some]
    omega

/-- Once `running` is false, each of the listener's steps brings it nearer to its end. -/
theorem listenStep_left {s t : Closing} (inv : ClosingInv s) {answer : RecvResult}
    {calls : List OsCall} (hstep : listenStep s answer = some (t, calls)) :
    ClosingInv t ∧ t.life.stage.left ≤ s.life.stage.left ∧
      (s.life.stage.stopped = true → t.life.stage.stopped = true ∧ t.left + 1 ≤ s.left) := by
  obtain ⟨life, listener⟩ := s
  obtain ⟨hlife, hlistener⟩ := inv
  simp only at hlife hlistener
  cases listener with
  | none => cases hstep
  | some phase =>
    have hwithin := hlistener phase rfl
    cases phase with
    | top =>
      cases hstep
      refine ⟨⟨hlife, fun p hp => ?_⟩, Nat.le_refl _, fun hst => ⟨hst, ?_⟩⟩
      · dsimp only at hp
        split at hp
        · cases hp
          exact hlife.isServer.count_le
        · cases hp
      · dsimp only at hst ⊢
        rw [if_neg (by rw [hlife.stopped hst]; decide)]
        exact Nat.le_refl _
    | scan i n =>
      simp only [listenStep] at hstep
      split at hstep
      · cases hstep
      · rename_i p hr
        cases hstep
        obtain ⟨hp, hleft⟩ := listenerRead_left hwithin hr
        exact hlife.listener_moves hp hleft
    | holding i n fd addr =>
      cases hstep
      obtain ⟨hp, hleft⟩ :=
        @listenerRecv_left life.acc.h i n addr answer hwithin.1 hwithin.2
      exact hlife.listener_moves hp hleft
    | closing i n =>
      simp only [listenStep] at hstep
      split at hstep
      · cases hstep
      · rename_i life' _ hl
        cases hstep
        have hleaves := hlife.disconnect hl
        refine ⟨⟨hleaves.shape, fun q hq => ?_⟩, hleaves.stage, fun hst => ?_⟩
        · cases hq
          exact hwithin.2
        · obtain ⟨hst', hacc⟩ := hleaves.stopped hst
          refine ⟨hst', ?_⟩
          have hstage := hleaves.stage
          have hin := hwithin.1
          simp only [Bool.false_eq_true, ↓reduceIte, Nat.add_zero] at hstage hacc
          simp only [Closing.left, Option.map_some, Option.getD_some, Phase.left]
          omega

/-- What a step of the caller, the accepter or another thread leaves to the three. -/
theorem ClosingInv.leaves {s : Closing} (inv : ClosingInv s) {life : Life} {closes accepts : Bool}
    (hleaves : Leaves s.life life closes accepts) :
    ClosingInv { s with life } ∧
      life.stage.left + (if closes then 1 else 0) ≤ s.life.stage.left ∧
      (s.life.stage.stopped = true → life.stage.stopped = true ∧
        ({ s with life } : Closing).left + (if closes || accepts then 1 else 0) ≤ s.left) := by
  refine ⟨⟨hleaves.shape, inv.listener⟩, hleaves.stage, fun hst => ?_⟩
  obtain ⟨hst', hacc⟩ := hleaves.stopped hst
  refine ⟨hst', ?_⟩
  have hor : (if closes || accepts then 1 else 0) ≤
      (if closes then 1 else 0) + (if accepts then 1 else 0) := by
    cases closes <;> cases accepts <;> decide
  have hstage := hleaves.stage
  simp only [Closing.left]
  omega

theorem threadStep_left {blocks : ℤ → Bool} {s t : Closing} (inv : ClosingInv s) {e : ThreadEvent}
    {calls : List OsCall} (hstep : threadStep blocks s e = some (t, calls)) :
    ClosingInv t ∧ t.life.stage.left + (if e.closes then 1 else 0) ≤ s.life.stage.left ∧
      (s.life.stage.stopped = true → t.life.stage.stopped = true ∧
        t.left + (if e.own then 1 else 0) ≤ s.left) := by
  unfold threadStep at hstep
  split at hstep
  · cases hstep
  · cases e with
    | listen answer => exact listenStep_left inv hstep
    | life e =>
      dsimp only at hstep
      split at hstep
      · cases hstep
      · rename_i hguard
        split at hstep
        · cases hstep
        · rename_i hl
          cases hstep
          have he : e.disconnects = false := Bool.eq_false_iff.mpr (not_or.mp hguard).1
          exact inv.leaves (lifeStep_left inv.life he hl)
    | user cid =>
      dsimp only at hstep
      split at hstep
      · cases hstep
      · rename_i hl
        cases hstep
        exact inv.leaves (inv.life.disconnect hl)

/-! ## No thread is stuck -/

/-- What the accepter does next if `accept` answers `r`. -/
def AccPhase.next (r : AcceptResult) : AccPhase → AccEvent
  | .accepting => .answer r
  | .holding _ _ => .enter
  | _ => .test

/-- Each thread that has not ended can go on, whatever the operating system answers;
`CommsClose` waits only for a thread that has not ended. -/
structure NoneStuck (blocks : ℤ → Bool) (s : Closing) : Prop where
  listener : s.listener ≠ none → ∀ answer, (threadStep blocks s (.listen answer)).isSome = true
  accepter : s.life.acc.phase ≠ .ended → ∀ r, (∀ cs cli, r = .conn cs cli → 0 ≤ cs) →
    (threadStep blocks s (.life (.acc (s.life.acc.phase.next r)))).isSome = true
  loop : s.life.stage ≠ .inUse → s.life.stage.stopped = false →
    (threadStep blocks s (.life .closeNext)).isSome = true
  firstJoin : s.life.stage = .joinListener → s.listener = none →
    (threadStep blocks s (.life .joinListener)).isSome = true
  secondJoin : s.life.stage = .joinAccepter → s.life.acc.phase = .ended →
    (threadStep blocks s (.life .joinAccepter)).isSome = true

theorem not_blocked {blocks : ℤ → Bool} (hfree : ∀ fd, blocks fd = false) (s : Closing)
    (e : ThreadEvent) : s.blocked blocks e = false := by
  unfold Closing.blocked
  split
  · exact hfree _
  · split
    · exact hfree _
    · rfl
  · rfl

theorem threadStep_life_isSome {blocks : ℤ → Bool} {s : Closing} {e : LifeEvent}
    (hfree : ∀ fd, blocks fd = false) (he : e.disconnects = false)
    (hjoin : e.joinsListener = true → s.listener = none)
    (hlife : (lifeStep s.life e).isSome = true) :
    (threadStep blocks s (.life e)).isSome = true := by
  obtain ⟨⟨life, calls⟩, hl⟩ := Option.isSome_iff_exists.mp hlife
  have hguard : ¬ (e.disconnects = true ∨ (e.joinsListener = true ∧ s.listener ≠ none)) := by
    rintro (h | ⟨h, hne⟩)
    · rw [he] at h
      cases h
    · exact hne (hjoin h)
  rw [threadStep, if_neg (by rw [not_blocked hfree]; decide), if_neg hguard, hl]
  rfl

theorem accStep_next_isSome {s : AccSt} (halive : s.phase ≠ .ended) {r : AcceptResult}
    (hr : ∀ cs cli, r = .conn cs cli → 0 ≤ cs) : (accStep s (s.phase.next r)).isSome = true := by
  obtain ⟨h, phase⟩ := s
  cases phase with
  | top => rfl
  | accepting =>
    cases r with
    | fail errno => rfl
    | conn cs cli =>
      have hcs := hr cs cli rfl
      simp only [AccPhase.next, accStep, if_neg (not_lt.mpr hcs), Option.isSome_some]
  | holding cs cli => rfl
  | ended => exact absurd rfl halive

theorem AccPhase.next_disconnects (phase : AccPhase) (r : AcceptResult) :
    (LifeEvent.acc (phase.next r)).disconnects = false := by
  cases phase <;> rfl

theorem AccPhase.next_waits {s : Life} (hfree : s.inside = none) (r : AcceptResult) :
    s.waits (s.acc.phase.next r) = false := by
  cases s.acc.phase with
  | holding cs cli =>
    rw [AccPhase.next, Life.waits, hfree]
    rfl
  | _ => rfl

theorem disconnectStep_isSome {s : Life} (inv : LifeShape s) (cid : BitVec 16) :
    (disconnectStep s cid).isSome = true := by
  have hacc : (accStep s.acc (.disconnect cid)).isSome = true := by
    rcases commsDisconnect_spec inv.isServer cid with ⟨h', hd, -⟩ | ⟨line, hd, -⟩
    · rw [accStep, hd]
      rfl
    · rw [accStep, hd]
      rfl
  obtain ⟨⟨acc, calls⟩, ha⟩ := Option.isSome_iff_exists.mp hacc
  simp [disconnectStep, lifeStep, Life.waits, inv.isServer.server, inv.free, ha]

theorem listenStep_isSome {s : Closing} (inv : ClosingInv s) (halive : s.listener ≠ none)
    (answer : RecvResult) : (listenStep s answer).isSome = true := by
  obtain ⟨life, listener⟩ := s
  cases listener with
  | none => exact absurd rfl halive
  | some phase =>
    have hwithin := inv.listener phase rfl
    cases phase with
    | top => rfl
    | scan i n =>
      have hread : (listenerRead life.acc.h i n).isSome = true := by
        by_cases hin : i < n
        · rw [listenerRead_of_lt _ hin hwithin]
          rfl
        · rw [listenerRead, if_neg hin]
          rfl
      obtain ⟨p, hp⟩ := Option.isSome_iff_exists.mp hread
      simp only [listenStep, hp, Option.isSome_some]
    | holding i n fd addr => rfl
    | closing i n =>
      obtain ⟨⟨life', calls⟩, hl⟩ :=
        Option.isSome_iff_exists.mp (disconnectStep_isSome inv.life (BitVec.ofNat 16 i))
      simp only at hl
      simp only [listenStep, hl, Option.isSome_some]

theorem closeNext_isSome (h : Commh) {stage : Stage} (hb : stage.Bounded)
    (huse : stage ≠ .inUse) (hst : stage.stopped = false) : (closeNext h stage).isSome = true := by
  cases stage with
  | inUse => exact absurd rfl huse
  | closing i | leaving => rfl
  | round statement i =>
    rw [closeNext, slot?_eq _ hb]
    rfl
  | _ => cases hst

theorem ClosingInv.noneStuck {blocks : ℤ → Bool} (hfree : ∀ fd, blocks fd = false) {s : Closing}
    (inv : ClosingInv s) : NoneStuck blocks s := by
  refine ⟨fun halive answer => ?_, fun halive r hr => ?_, fun huse hst => ?_,
    fun hst hnone => ?_, fun hst hended => ?_⟩
  · rw [threadStep, if_neg (by rw [not_blocked hfree]; decide)]
    exact listenStep_isSome inv halive answer
  · refine threadStep_life_isSome hfree (s.life.acc.phase.next_disconnects r)
      (absurd · Bool.false_ne_true) ?_
    obtain ⟨⟨acc, calls⟩, hacc⟩ := Option.isSome_iff_exists.mp (accStep_next_isSome halive hr)
    rw [lifeStep, AccPhase.next_waits inv.life.free, hacc]
    rfl
  · refine threadStep_life_isSome hfree rfl (absurd · Bool.false_ne_true) ?_
    obtain ⟨⟨h', calls, stage⟩, hc⟩ := Option.isSome_iff_exists.mp
      (closeNext_isSome s.life.acc.h inv.life.bounded huse hst)
    rw [lifeStep, hc]
    rfl
  · refine threadStep_life_isSome hfree rfl (fun _ => hnone) ?_
    simp [lifeStep, hst]
  · refine threadStep_life_isSome hfree rfl (absurd · Bool.false_ne_true) ?_
    simp [lifeStep, hst, hended]

/-! ## Every run -/

theorem Closing.left_le {s : Closing} (inv : ClosingInv s) (hst : s.life.stage.stopped = true) :
    s.left ≤ 3 * commsMaxClients + 7 := by
  have hstage : s.life.stage.left ≤ 2 := by
    cases hs : s.life.stage with
    | inUse | closing i | round statement i | leaving =>
      rw [hs] at hst
      cases hst
    | _ => decide
  have hacc : s.life.acc.phase.left ≤ 3 := by cases s.life.acc.phase <;> simp [AccPhase.left]
  have hlistener : (s.listener.map Phase.left).getD 0 ≤ 3 * commsMaxClients + 2 := by
    cases hl : s.listener with
    | none => exact Nat.zero_le _
    | some p =>
      have hwithin := inv.listener p hl
      cases p with
      | top => simp [Phase.left]
      | scan i n =>
        simp only [Phase.Within] at hwithin
        simp only [Option.map_some, Option.getD_some, Phase.left]
        omega
      | holding i n fd addr =>
        have hn := hwithin.2
        simp only [Option.map_some, Option.getD_some, Phase.left]
        omega
      | closing i n =>
        have hn := hwithin.2
        simp only [Option.map_some, Option.getD_some, Phase.left]
        omega
  simp only [Closing.left]
  omega

theorem Closing.start_inv {h₀ h : Commh} {opt : CommsOpt} {env : InitEnv} {calls : List OsCall}
    (hcb : opt.recvcb = true)
    (hinit : commsTcpserverInitOpt h₀ opt env = some (h, calls, true)) :
    ClosingInv (Closing.start h calls) := by
  obtain ⟨hs, -⟩ := commsTcpserverInitOpt_spec hinit
  have hstarted : Started h calls := @commsInit_started .tcpServer _ _ _ _ _ hinit
  have hrecvcb : h.recvcb = true := (commsTcpserverInitOpt_recvcb hinit).trans hcb
  refine ⟨⟨hs, hrecvcb, rfl, trivial, ?_, (absurd · Bool.false_ne_true)⟩, fun p hp => ?_⟩
  · intro _
    change (Books.empty.record calls).threads.held = h.threads
    rw [hstarted.books]
    exact if_pos hrecvcb
  · simp only [Closing.start] at hp
    split at hp
    · cases hp
      trivial
    · cases hp

/-- A join of a thread that was never created is not among the stages. -/
theorem LifeShape.defined {s : Life} (inv : LifeShape s) : s.stage ≠ .undefined := by
  intro hst
  have hthreads := inv.threads
  rw [hst] at hthreads
  exact hthreads

/-- **`CommsClose` returns.**  In every run of the threads of a server with a callback the
caller of `CommsClose` makes at most 1540 steps and joins no thread that was never created.
From a state in which it has cleared `running`, the three threads together make at most 775.
And where no descriptor blocks, no thread is ever stuck. -/
theorem commsClose_returns {h₀ h : Commh} {opt : CommsOpt} (hcb : opt.recvcb = true)
    {env : InitEnv} {calls : List OsCall}
    (hinit : commsTcpserverInitOpt h₀ opt env = some (h, calls, true)) {blocks : ℤ → Bool}
    {es : List ThreadEvent} {s : Closing} {made : List (List OsCall)}
    (hexec : Machine.exec (threadStep blocks) (Closing.start h calls) es = some (s, made)) :
    es.countP ThreadEvent.closes ≤ 6 * commsMaxClients + 4 ∧ s.life.stage ≠ .undefined ∧
      ((∀ fd, blocks fd = false) → NoneStuck blocks s) ∧
      (s.life.stage.stopped = true → ∀ es' t made',
        Machine.exec (threadStep blocks) s es' = some (t, made') →
        es'.countP ThreadEvent.own ≤ 3 * commsMaxClients + 7) := by
  obtain ⟨inv, hcloses⟩ := @Machine.exec_measure _ _ _ (threadStep blocks) ThreadEvent.closes
    ClosingInv (fun s => s.life.stage.left) (fun s e t o inv hstep => by
      obtain ⟨hinv, hstage, -⟩ := threadStep_left inv hstep
      exact ⟨hinv, hstage⟩) _ _ (Closing.start_inv hcb hinit) _ _ hexec
  refine ⟨Nat.le_trans (Nat.le_add_left _ _) hcloses, inv.life.defined, inv.noneStuck,
    fun hst es' t made' hexec' => ?_⟩
  have hleft := @Machine.exec_measure _ _ _ (threadStep blocks) ThreadEvent.own
    (fun s => ClosingInv s ∧ s.life.stage.stopped = true) Closing.left
    (fun s e t o inv hstep => by
      obtain ⟨hinv, -, hstop⟩ := threadStep_left inv.1 hstep
      exact ⟨⟨hinv, (hstop inv.2).1⟩, (hstop inv.2).2⟩) _ _ ⟨inv, hst⟩ _ _ hexec'
  exact Nat.le_trans (Nat.le_trans (Nat.le_add_left _ _) hleft.2) (Closing.left_le inv hst)

/-- A server without clients, up to the first join. -/
theorem commsClose_returns_server :
    ∃ s made, Machine.exec (threadStep fun _ => false)
        (Closing.start newServer [.socket 3, .create 1, .create 2])
        (.life .close :: List.replicate 8 (.life .closeNext)) = some (s, made) ∧
      s.life.stage = .joinListener ∧ NoneStuck (fun _ => false) s ∧
      ∀ es t made', Machine.exec (threadStep fun _ => false) s es = some (t, made') →
        es.countP ThreadEvent.own ≤ 775 := by
  have hsome : (Machine.exec (threadStep fun _ => false)
      (Closing.start newServer [.socket 3, .create 1, .create 2])
      (.life .close :: List.replicate 8 (.life .closeNext))).map
        (fun r => r.1.life.stage) = some .joinListener := by decide +kernel
  obtain ⟨⟨s, made⟩, hexec, hstage⟩ := Option.map_eq_some_iff.mp hsome
  obtain ⟨-, -, hstuck, hown⟩ := commsClose_returns rfl newServer_init hexec
  exact ⟨s, made, hexec, hstage, hstuck fun _ => rfl,
    hown (by rw [show s.life.stage = .joinListener from hstage]; rfl)⟩

end DataCommons.Comms
