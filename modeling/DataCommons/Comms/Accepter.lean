import DataCommons.Lib.Machine
import DataCommons.Comms.Server

/-!
# The accepter thread

The loop of `comms_accepter` as a machine: it tests `running`, asks `accept`, and
takes the mutex only to enter what `accept` gave.  `CommsDisconnect` calls of
other threads come in between.

* `accStep_cases`: what one event does;
* `accStep_spec`: one event keeps a running server, and only a connection taken
  over at a full table ends the thread;
* `accepter_alive_iff`: so the thread goes on accepting exactly in the runs in
  which that does not happen.
-/

namespace DataCommons.Comms

open Commh

/-- Where the accepter stands: before the test of `running`, in `accept`, with a
connection that is not entered yet, or past the loop. -/
inductive AccPhase where
  | top
  | accepting
  | holding (cs : ℤ) (cli : SockaddrIn)
  | ended
  deriving DecidableEq

def Loop.phase : Loop → AccPhase
  | .next => .top
  | .exit => .ended

structure AccSt where
  h : Commh
  phase : AccPhase

/-- What the accepter does next, or a `CommsDisconnect` by another thread. -/
inductive AccEvent where
  | test
  | answer (r : AcceptResult)
  | enter
  | disconnect (cid : BitVec 16)
  deriving DecidableEq

/-- One event, with the system calls it makes.  `none` when the thread is
elsewhere. -/
def accStep (s : AccSt) : AccEvent → Option (AccSt × List OsCall)
  | .test =>
    match s.phase with
    | .top => some ({ s with phase := if s.h.running then .accepting else .ended }, [])
    | _ => none
  | .answer (.fail errno) =>
    match s.phase with
    | .accepting =>
      match commsAccepter s.h (.fail errno) with
      | (h, calls, loop) => some (⟨h, loop.phase⟩, calls)
    | _ => none
  | .answer (.conn cs cli) =>
    match s.phase with
    | .accepting => if cs < 0 then none else some ({ s with phase := .holding cs cli }, [])
    | _ => none
  | .enter =>
    match s.phase with
    | .holding cs cli =>
      match commsAccepter s.h (.conn cs cli) with
      | (h, calls, loop) => some (⟨h, loop.phase⟩, calls)
    | _ => none
  | .disconnect cid =>
    match commsDisconnect s.h cid with
    | none => none
    | some (h, calls, _) => some ({ s with h }, calls)

def AccSt.init (h : Commh) : AccSt := ⟨h, .top⟩

/-- A connection is only taken over while there is a free slot. -/
def Roomy : AccSt → List AccEvent → Prop :=
  Machine.Along accStep fun s e => e = .enter → s.h.clientCount < commsMaxClients

/-- What is left to do until the next connection is in the table. -/
def AccPhase.toEnter (cs : ℤ) (cli : SockaddrIn) : AccPhase → List AccEvent
  | .top => [.test, .answer (.conn cs cli), .enter]
  | .accepting => [.answer (.conn cs cli), .enter]
  | .holding _ _ => [.enter]
  | .ended => []

/-- The connection that comes next: the one at hand, or the one `accept` gives. -/
def AccPhase.incoming (cs : ℤ) (cli : SockaddrIn) : AccPhase → ℤ × SockaddrIn
  | .holding cs cli => (cs, cli)
  | _ => (cs, cli)

/-- The next incoming connection is entered behind the last client. -/
def EntersNext (s : AccSt) (cs : ℤ) (cli : SockaddrIn) : Prop :=
  ∃ t calls, Machine.exec accStep s (s.phase.toEnter cs cli) = some (t, calls) ∧
    t.h.clients = s.h.clients ++ [s.phase.incoming cs cli]

/-- The thread of a running server has not ended, and with a free slot the next
connection is entered. -/
def KeepsAccepting (s : AccSt) : Prop :=
  (s.h.running = true → s.phase ≠ .ended) ∧
    (s.h.clientCount < commsMaxClients → ∀ cs cli, 0 ≤ cs → EntersNext s cs cli)

/-! ## One event -/

/-- A running server. -/
structure AccInv (s : AccSt) : Prop where
  isServer : IsServer s.h
  running : s.h.running = true

theorem commsAccepter_threads (h : Commh) (r : AcceptResult) :
    SameThreads h (commsAccepter h r).1 := by
  cases r with
  | fail errno =>
    obtain ⟨loop, hacc⟩ := commsAccepter_fail h errno
    rw [hacc]
    exact ⟨rfl, rfl, rfl, rfl⟩
  | conn cs cli =>
    rcases Nat.lt_or_ge h.clientCount commsMaxClients with hlt | hfull
    · simp only [commsAccepter, Nat.not_le.mpr hlt, ↓reduceIte]
      exact ⟨rfl, rfl, rfl, rfl⟩
    · rw [commsAccepter_full cs cli hfull]
      exact ⟨rfl, rfl, rfl, rfl⟩

/-- No error of `accept` ends the thread of a running server. -/
theorem commsAccepter_fail_running {h : Commh} (hr : h.running = true) (errno : Errno) :
    commsAccepter h (.fail errno) = (h, [], .next) := by
  simp [commsAccepter, hr]

theorem accStep_test {h : Commh} (hr : h.running = true) :
    accStep ⟨h, .top⟩ .test = some (⟨h, .accepting⟩, []) := by
  simp only [accStep, hr, ↓reduceIte]

theorem accStep_conn (h : Commh) {cs : ℤ} (hcs : 0 ≤ cs) (cli : SockaddrIn) :
    accStep ⟨h, .accepting⟩ (.answer (.conn cs cli)) = some (⟨h, .holding cs cli⟩, []) :=
  if_neg (by omega)

theorem accStep_enter {h : Commh} (hs : IsServer h) (hlt : h.clientCount < commsMaxClients)
    (cs : ℤ) (cli : SockaddrIn) :
    ∃ h', accStep ⟨h, .holding cs cli⟩ .enter = some (⟨h', .top⟩, []) ∧
      Entered h (cs, cli) h' := by
  obtain ⟨h', hacc, hent⟩ := commsAccepter_enter hs cs cli hlt
  exact ⟨h', by simp only [accStep, hacc, Loop.phase], hent⟩

inductive AccStepped : AccSt → AccEvent → AccSt → List OsCall → Prop
  | test (h : Commh) :
      AccStepped ⟨h, .top⟩ .test ⟨h, if h.running then .accepting else .ended⟩ []
  | fail {h : Commh} {errno : Errno} {loop : Loop}
      (hacc : commsAccepter h (.fail errno) = (h, [], loop)) :
      AccStepped ⟨h, .accepting⟩ (.answer (.fail errno)) ⟨h, loop.phase⟩ []
  | conn (h : Commh) {cs : ℤ} (hcs : 0 ≤ cs) (cli : SockaddrIn) :
      AccStepped ⟨h, .accepting⟩ (.answer (.conn cs cli)) ⟨h, .holding cs cli⟩ []
  | enter {h h' : Commh} {cs : ℤ} {cli : SockaddrIn} {calls : List OsCall} {loop : Loop}
      (hacc : commsAccepter h (.conn cs cli) = (h', calls, loop)) :
      AccStepped ⟨h, .holding cs cli⟩ .enter ⟨h', loop.phase⟩ calls
  | disconnect {h h' : Commh} (phase : AccPhase) {cid : BitVec 16} {calls : List OsCall} {r : Bool}
      (hd : commsDisconnect h cid = some (h', calls, r)) :
      AccStepped ⟨h, phase⟩ (.disconnect cid) ⟨h', phase⟩ calls

theorem accStep_cases {s t : AccSt} {e : AccEvent} {calls : List OsCall}
    (hstep : accStep s e = some (t, calls)) : AccStepped s e t calls := by
  obtain ⟨h, phase⟩ := s
  cases e with
  | test =>
    cases phase with
    | top =>
      cases hstep
      exact .test h
    | _ => cases hstep
  | answer r =>
    cases r with
    | fail errno =>
      cases phase with
      | accepting =>
        obtain ⟨loop, hacc⟩ := commsAccepter_fail h errno
        simp only [accStep, hacc, Option.some.injEq, Prod.mk.injEq] at hstep
        obtain ⟨rfl, rfl⟩ := hstep
        exact .fail hacc
      | _ => cases hstep
    | conn cs cli =>
      cases phase with
      | accepting =>
        by_cases hcs : cs < 0
        · cases (if_pos hcs).symm.trans hstep
        · cases (if_neg hcs).symm.trans hstep
          exact .conn h (not_lt.mp hcs) cli
      | _ => cases hstep
  | enter =>
    cases phase with
    | holding cs cli =>
      cases hstep
      exact .enter rfl
    | _ => cases hstep
  | disconnect cid =>
    simp only [accStep] at hstep
    cases hd : commsDisconnect h cid with
    | none => simp [hd] at hstep
    | some res =>
      obtain ⟨h', made, r⟩ := res
      simp only [hd, Option.some.injEq, Prod.mk.injEq] at hstep
      obtain ⟨rfl, rfl⟩ := hstep
      exact .disconnect phase hd

/-- **Step lemma.**  Every event keeps a running server, and the thread ends only
by taking over a connection at a full table. -/
theorem accStep_spec {s t : AccSt} (inv : AccInv s) {e : AccEvent} {calls : List OsCall}
    (hstep : accStep s e = some (t, calls)) :
    AccInv t ∧ (t.phase = .ended ↔
      s.phase = .ended ∨ (e = .enter ∧ commsMaxClients ≤ s.h.clientCount)) := by
  obtain ⟨hs, hr⟩ := inv
  cases accStep_cases hstep with
  | test h =>
    rw [if_pos hr]
    exact ⟨⟨hs, hr⟩, by simp⟩
  | fail hacc =>
    cases (commsAccepter_fail_running hr _).symm.trans hacc
    exact ⟨⟨hs, hr⟩, by simp [Loop.phase]⟩
  | conn h hcs cli => exact ⟨⟨hs, hr⟩, by simp⟩
  | @enter h h' cs cli _ loop hacc =>
    have hr' := (commsAccepter_threads h (.conn cs cli)).running
    rw [hacc] at hr'
    rcases Nat.lt_or_ge h.clientCount commsMaxClients with hlt | hfull
    · obtain ⟨h₁, hacc₁, hent⟩ := commsAccepter_enter hs cs cli hlt
      cases hacc₁.symm.trans hacc
      exact ⟨⟨hent.isServer, hr'.trans hr⟩, by simp [Loop.phase, hlt]⟩
    · cases (commsAccepter_full cs cli hfull).symm.trans hacc
      exact ⟨⟨hs.of_sameFrame ⟨rfl, rfl, rfl⟩, hr⟩, by simp [Loop.phase, hfull]⟩
  | @disconnect h h' phase cid calls r hd =>
    refine ⟨⟨?_, (commsDisconnect_threads hd).running.trans hr⟩, by simp⟩
    rcases commsDisconnect_spec hs cid with ⟨h₁, hd', -, -, -, hrem⟩ | ⟨line, hd', -⟩
    · cases hd.symm.trans hd'
      exact hrem.isServer
    · cases hd.symm.trans hd'
      exact hs.of_sameFrame ⟨rfl, rfl, rfl⟩

/-- With a free slot the next connection is entered, unless the thread has ended. -/
theorem entersNext_of_alive {s : AccSt} (inv : AccInv s) (halive : s.phase ≠ .ended)
    (hlt : s.h.clientCount < commsMaxClients) {cs : ℤ} (hcs : 0 ≤ cs) (cli : SockaddrIn) :
    EntersNext s cs cli := by
  obtain ⟨h, phase⟩ := s
  have htest := accStep_test inv.running
  have hanswer := accStep_conn h hcs cli
  cases phase with
  | ended => exact absurd rfl halive
  | holding c a =>
    obtain ⟨h', he, hc⟩ := accStep_enter inv.isServer hlt c a
    exact ⟨_, _, Machine.exec_cons he rfl, hc.clients⟩
  | accepting =>
    obtain ⟨h', he, hc⟩ := accStep_enter inv.isServer hlt cs cli
    exact ⟨_, _, Machine.exec_cons hanswer (Machine.exec_cons he rfl), hc.clients⟩
  | top =>
    obtain ⟨h', he, hc⟩ := accStep_enter inv.isServer hlt cs cli
    exact ⟨_, _, Machine.exec_cons htest (Machine.exec_cons hanswer (Machine.exec_cons he rfl)),
      hc.clients⟩

/-! ## Runs -/

/-- **Run lemma.** -/
theorem accRun_spec {s t : AccSt} (inv : AccInv s) {es : List AccEvent}
    {calls : List (List OsCall)} (hexec : Machine.exec accStep s es = some (t, calls)) :
    AccInv t ∧ (t.phase = .ended ↔ s.phase = .ended ∨ ¬ Roomy s es) := by
  induction es generalizing s calls with
  | nil =>
    cases hexec
    exact ⟨inv, by simp [Roomy, Machine.Along]⟩
  | cons e es ih =>
    obtain ⟨u, c, cs, hstep, hrest⟩ := Machine.exec_cons_inv hexec
    obtain ⟨hinv, hended⟩ := accStep_spec inv hstep
    obtain ⟨hinv', hended'⟩ := ih hinv hrest
    refine ⟨hinv', ?_⟩
    have hroomy : Roomy s (e :: es) ↔
        (e = .enter → s.h.clientCount < commsMaxClients) ∧ Roomy u es := Machine.along_cons hstep
    rw [hended', hended, hroomy, not_and_or, Classical.not_imp, Nat.not_lt, or_assoc]

/-- The thread that a successful `Init` with a callback creates. -/
theorem accInv_init {h₀ h : Commh} {opt : CommsOpt} {env : InitEnv} {calls : List OsCall}
    (hinit : commsTcpserverInitOpt h₀ opt env = some (h, calls, true)) (hcb : opt.recvcb = true) :
    AccInv (.init h) :=
  ⟨(commsTcpserverInitOpt_spec hinit).1, (commsTcpserverInitOpt_running hinit).trans hcb⟩

/-- **The accepter lives while the table has room.**  In every run of accepted
connections, `accept` errors and `CommsDisconnect` calls from the `Init` of a
server with a callback, the thread goes on accepting exactly if no connection was
taken over while `client_count` stood at `COMMS_MAX_CLIENTS`. -/
theorem accepter_alive_iff {h₀ h : Commh} {opt : CommsOpt} {env : InitEnv} {calls : List OsCall}
    (hinit : commsTcpserverInitOpt h₀ opt env = some (h, calls, true)) (hcb : opt.recvcb = true)
    {es : List AccEvent} {t : AccSt} {made : List (List OsCall)}
    (hexec : Machine.exec accStep (.init h) es = some (t, made)) :
    t.h.running = true ∧ (KeepsAccepting t ↔ Roomy (.init h) es) := by
  obtain ⟨inv, hended⟩ := accRun_spec (accInv_init hinit hcb) hexec
  have hiff : t.phase = .ended ↔ ¬ Roomy (.init h) es := by simpa [AccSt.init] using hended
  refine ⟨inv.running, fun hk => ?_, fun hroomy => ?_⟩
  · exact Classical.byContradiction fun hn => hk.1 inv.running (hiff.mpr hn)
  · have halive : t.phase ≠ .ended := fun h => hiff.mp h hroomy
    exact ⟨fun _ => halive, fun hlt cs cli hcs => entersNext_of_alive inv halive hlt hcs cli⟩

/-- One connection is entered, and the next one can come. -/
theorem accepter_alive_one :
    ∃ t made, Machine.exec accStep (.init newServer) [.test, .answer (.conn 4 peerA), .enter] =
        some (t, made) ∧
      t.h.running = true ∧
      (KeepsAccepting t ↔
        Roomy (.init newServer) [.test, .answer (.conn 4 peerA), .enter]) :=
  ⟨_, _, rfl, accepter_alive_iff newServer_init rfl rfl⟩

/-! ## A full table -/

/-- `n` connections on descriptors from `fd` on, then `rest`. -/
def fill (fd : ℤ) : ℕ → List AccEvent → List AccEvent
  | 0, rest => rest
  | n + 1, rest => .test :: .answer (.conn fd peerA) :: .enter :: fill (fd + 1) n rest

theorem exec_fill {h : Commh} (inv : AccInv ⟨h, .top⟩) {fd : ℤ} (hfd : 0 < fd) (n : ℕ)
    (hn : h.clientCount + n ≤ commsMaxClients) :
    ∃ h', AccInv ⟨h', .top⟩ ∧ h'.clientCount = h.clientCount + n ∧
      (∃ xs, h'.clients = h.clients ++ xs ∧ ∀ x ∈ xs, 0 < x.1) ∧
      ∀ rest t made, Machine.exec accStep ⟨h', .top⟩ rest = some (t, made) →
        ∃ made', Machine.exec accStep ⟨h, .top⟩ (fill fd n rest) = some (t, made') := by
  induction n generalizing h fd with
  | zero => exact ⟨h, inv, rfl, ⟨[], by simp, by simp⟩, fun rest t made he => ⟨made, he⟩⟩
  | succ n ih =>
    have hanswer := accStep_conn h (Int.le_of_lt hfd) peerA
    obtain ⟨h₁, henter, hent⟩ := accStep_enter inv.isServer
      (show h.clientCount < _ by omega) fd peerA
    have hinv : AccInv ⟨h₁, .top⟩ :=
      (accStep_spec (s := ⟨h, .holding fd peerA⟩) ⟨inv.isServer, inv.running⟩ henter).1
    have hcount : h₁.clientCount = h.clientCount + 1 := hent.clientCount
    obtain ⟨h', hinv', hcount', ⟨xs, hxs, hpos⟩, hexec⟩ := ih hinv (show 0 < fd + 1 by omega)
      (by omega)
    refine ⟨h', hinv', by omega, ⟨(fd, peerA) :: xs, ?_, ?_⟩, fun rest t made he => ?_⟩
    · rw [hxs, hent.clients, List.append_assoc]
      rfl
    · exact List.forall_mem_cons.mpr ⟨hfd, hpos⟩
    · obtain ⟨made', he'⟩ := hexec rest t made he
      exact ⟨_, Machine.exec_cons (accStep_test inv.running)
        (Machine.exec_cons hanswer (Machine.exec_cons henter he'))⟩

/-- Refusing a client at a full table and removing another one. -/
theorem exec_refuse {h : Commh} (inv : AccInv ⟨h, .top⟩) (hfull : h.clientCount = commsMaxClients)
    (hslot : 0 < (h.slot 1).1) :
    ∃ t made, Machine.exec accStep ⟨h, .top⟩
        [.test, .answer (.conn 300 peerA), .enter, .disconnect 1] = some (t, made) ∧
      t.h.running = true ∧ t.phase = .ended ∧ t.h.clientCount < commsMaxClients := by
  have hone : (1 : BitVec 16).toNat = 1 := by rfl
  have hrefuse := commsAccepter_full 300 peerA (Nat.le_of_eq hfull.symm)
  have henter : accStep ⟨h, .holding 300 peerA⟩ .enter =
      some (⟨setError h .maxClients "comms_accepter" 653, .ended⟩, [.shutdown 300, .close 300]) := by
    simp only [accStep, hrefuse, Loop.phase]
    rfl
  have hserver : IsServer (setError h .maxClients "comms_accepter" 653) :=
    inv.isServer.of_sameFrame ⟨rfl, rfl, rfl⟩
  rcases commsDisconnect_spec hserver 1 with ⟨h', hd, -, -, -, hrem⟩ | ⟨line, -, hwhy⟩
  · have hdisc : accStep ⟨setError h .maxClients "comms_accepter" 653, .ended⟩ (.disconnect 1) =
        some (⟨h', .ended⟩, [.shutdown (h.slot 1).1, .close (h.slot 1).1]) := by
      simp only [accStep, hd]
      rfl
    refine ⟨_, _, Machine.exec_cons (accStep_test inv.running) (Machine.exec_cons
      (accStep_conn h (by decide) peerA) (Machine.exec_cons henter (Machine.exec_cons hdisc rfl))),
      (commsDisconnect_threads hd).running.trans inv.running, rfl, ?_⟩
    have hcount : h'.clientCount = h.clientCount - 1 := hrem.clientCount
    dsimp only
    rw [hcount, hfull]
    decide
  · exfalso
    rw [hone] at hwhy
    rcases hwhy with hwhy | hwhy | hwhy
    · omega
    · change h.clientCount ≤ 1 at hwhy
      rw [hfull] at hwhy
      exact absurd hwhy (by decide)
    · exact absurd hslot (Int.not_lt.mpr hwhy)

/-- The 256th client is refused; one client leaves, and nobody is entered again. -/
theorem accepter_dies :
    ∃ t made, Machine.exec accStep (.init newServer)
        (fill 4 255 [.test, .answer (.conn 300 peerA), .enter, .disconnect 1]) = some (t, made) ∧
      t.h.running = true ∧ t.phase = .ended ∧ t.h.clientCount < commsMaxClients ∧
      ¬ KeepsAccepting t := by
  obtain ⟨h', hinv, hcount, ⟨xs, hxs, hpos⟩, hexec⟩ :=
    exec_fill (accInv_init newServer_init rfl) (show (0 : ℤ) < 4 by decide) 255
      (show 1 + 255 ≤ 256 by decide)
  have hfull : h'.clientCount = 256 := hcount
  have hslot : 0 < (h'.slot 1).1 := by
    have hlen : 0 < h'.clients.length := by rw [clients_length, hfull]; decide
    have hmem : h'.slot 1 ∈ h'.clients := clients_getElem h' 0 hlen ▸ List.getElem_mem hlen
    rw [show h'.clients = xs from hxs] at hmem
    exact hpos _ hmem
  obtain ⟨t, made, he, hr, hended, hlt⟩ := exec_refuse hinv hfull hslot
  obtain ⟨made', he'⟩ := hexec _ _ _ he
  exact ⟨t, made', he', hr, hended, hlt, fun hk => hk.1 hr hended⟩

end DataCommons.Comms
