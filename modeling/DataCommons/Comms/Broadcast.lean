import DataCommons.Comms.Places

/-!
# A broadcast beside the other threads

`CommsSend` to all clients takes no lock: it tests `client_count`, reads a descriptor and
calls `send`, slot after slot, between any two stores of the accepter and of
`CommsDisconnect`.

* `Sending.Follows.step`: seen from one client, the loop is a cursor over a table whose
  entries move by copies;
* `broadcast_beside`: a client that is connected throughout gets the message at most twice,
  and when `CommsSend` returns `true`, at least once unless the client has moved down.
-/

namespace DataCommons.Comms

open Commh

/-- Where `CommsSend` stands: before the test of the loop, behind it, with the descriptor of
slot `i`, or behind the loop. -/
inductive SendPhase where
  | test (i : ℕ)
  | read (i : ℕ)
  | holding (i : ℕ) (fd : ℤ)
  | done (r : Bool)
  deriving DecidableEq

/-- A server, the caller of `CommsSend`, and how often it called `send` on the descriptor of
one connection. -/
structure Sending where
  shared : Shared
  phase : SendPhase
  sends : ℕ

def Sending.start (x : Shared) : Sending := ⟨x, .test 1, 0⟩

def sendTest (h : Commh) (i : ℕ) : SendPhase := if i < h.clientCount then .read i else .done true

/-- Behind a `send` that returned `ret`. -/
def sendNext (x : Shared) (i : ℕ) (ret : ℤ) : Shared × SendPhase :=
  if ret ≤ 0 then (x.withError .failedToSend "comms_send__opt" 417, .done false)
  else (x, .test (i + 1))

/-- A store of another thread, or a step of the loop; `sends` counts for connection `c`. -/
inductive SendStep (c : Conn) : Sending → Sending → Prop
  | shared {x : Sending} {y : Shared} (step : SharedStep x.shared y) :
      SendStep c x { x with shared := y }
  | test {x : Sending} {i : ℕ} (hp : x.phase = .test i) :
      SendStep c x { x with phase := sendTest x.shared.server.h i }
  | read {x : Sending} {i : ℕ} {fd : ℤ} {addr : SockaddrIn} (hp : x.phase = .read i)
      (hr : x.shared.server.h.slot? i = some (fd, addr)) :
      SendStep c x { x with phase := .holding i fd }
  | send {x : Sending} {i : ℕ} {fd : ℤ} (ret : ℤ) (hp : x.phase = .holding i fd) :
      SendStep c x {
        shared := (sendNext x.shared i ret).1
        phase := (sendNext x.shared i ret).2
        sends := x.sends + if x.shared.server.os.conns.find? (·.fd = fd) = some c then 1 else 0 }

/-- The slot that is going to be read. -/
def SendPhase.index : SendPhase → Option ℕ
  | .read i => some i
  | _ => none

/-- The loop as a cursor, seen from `c`; where a failed `send` left it does not matter. -/
def IsAt (c : Conn) : SendPhase → Trail.Pos → Prop
  | .test i, p | .read i, p => 1 ≤ i ∧ p = .before i
  | .holding i fd, p => p = .holding i (fd = c.fd)
  | .done true, p => p = .done
  | .done false, _ => True

/-- What the loop has seen of `c`, which stood in slot `s` when the loop began.  `base` is the
state without the error of a failed `send`. -/
def Sending.Seen (c : Conn) (s : ℕ) (trail₀ : Bool) (base : Shared) (x : Sending) : Prop :=
  ∃ k trail p, Located c base x.phase.index k trail ∧ IsAt c x.phase p ∧
    Relation.ReflTransGen Trail.Step ⟨s, trail₀, .before 1, 0⟩ ⟨k, trail, p, x.sends⟩

/-- It is said of `c` as long as it is connected. -/
structure Sending.Follows (sock : ℤ) (c : Conn) (s : ℕ) (trail₀ : Bool) (base : Shared)
    (x : Sending) : Prop where
  inv : SharedInv sock base
  error : ∃ err f l, x.shared = base.withError err f l
  old : c.id < base.server.os.next
  seen : c ∈ base.server.os.conns → x.Seen c s trail₀ base

/-! ## One step -/

section Step

variable {c : Conn} {s : ℕ} {trail₀ : Bool} {base : Shared} {x : Sending}

theorem Sending.Seen.test (hseen : x.Seen c s trail₀ base) {i : ℕ} (hp : x.phase = .test i) :
    Sending.Seen c s trail₀ base { x with phase := sendTest base.server.h i } := by
  obtain ⟨k, trail, p, loc, hat, hrun⟩ := hseen
  rw [hp] at hat loc
  obtain ⟨hi, rfl⟩ := hat
  rw [sendTest]
  split
  · rename_i hlt
    refine ⟨k, trail, _, ⟨loc.pos, loc.lt, fun m hm hm' => ?_, loc.junk, loc.kept⟩, ⟨hi, rfl⟩, hrun⟩
    refine loc.slot m hm (.inl (hm'.elim id fun he => ?_))
    exact Option.some.inj he ▸ hlt
  · rename_i hlt
    have hpast : k < i := lt_of_lt_of_le loc.standing.1.2.1 (not_lt.mp hlt)
    exact ⟨k, trail, _, loc, rfl, hrun.tail (.finish hpast)⟩

theorem Sending.Seen.read (hseen : x.Seen c s trail₀ base) {i : ℕ} {fd : ℤ} {addr : SockaddrIn}
    (hp : x.phase = .read i) (hr : base.server.h.slot? i = some (fd, addr)) :
    Sending.Seen c s trail₀ base { x with phase := .holding i fd } := by
  obtain ⟨k, trail, p, loc, hat, hrun⟩ := hseen
  rw [hp] at hat loc
  obtain ⟨hi, rfl⟩ := hat
  have hlt : i < commsMaxClients := by
    by_contra hge
    rw [slot?_eq_none _ (not_lt.mp hge)] at hr
    cases hr
  rw [slot?_eq _ hlt] at hr
  have hslot : (base.server.h.slot i).1 = fd := congrArg Prod.fst (Option.some.inj hr)
  have hown := loc.slot i hi (.inr rfl)
  rw [hslot] at hown
  refine ⟨k, trail, _, ⟨loc.pos, loc.lt, fun m hm hm' => ?_, loc.junk, loc.kept⟩, ?_,
    hrun.tail .take⟩
  · exact loc.slot m hm (.inl (hm'.resolve_right nofun))
  · exact congrArg _ (decide_eq_decide.mpr hown.symm)

theorem Sending.Seen.send (inv : OsInv base.server.os) (hc : c ∈ base.server.os.conns)
    (hseen : x.Seen c s trail₀ base) {i : ℕ} {fd : ℤ} (ret : ℤ) (hp : x.phase = .holding i fd)
    (y : Shared) : Sending.Seen c s trail₀ base
      ⟨y, (sendNext x.shared i ret).2,
        x.sends + if base.server.os.conns.find? (·.fd = fd) = some c then 1 else 0⟩ := by
  obtain ⟨k, trail, p, loc, hat, hrun⟩ := hseen
  rw [hp] at hat loc
  obtain rfl : p = .holding i (fd = c.fd) := hat
  have hvisit := hrun.tail Trail.Step.visit
  rw [inv.own_toNat hc] at hvisit
  rw [sendNext]
  split
  · exact ⟨k, trail, _, loc, trivial, hvisit⟩
  · exact ⟨k, trail, _, loc, ⟨Nat.le_add_left 1 i, rfl⟩, hvisit⟩

end Step

theorem Sending.Follows.step {sock : ℤ} {c : Conn} {s : ℕ} {trail₀ : Bool} {base : Shared}
    {x x' : Sending} (follows : x.Follows sock c s trail₀ base) (step : SendStep c x x') :
    ∃ base', x'.Follows sock c s trail₀ base' := by
  obtain ⟨inv, ⟨err, f, l, herr⟩, hold, hseen⟩ := follows
  obtain ⟨shared, phase, sends⟩ := x
  obtain rfl : shared = base.withError err f l := herr
  cases step with
  | @shared y step =>
    obtain ⟨base', err', f', l', hstep, rfl⟩ := step.of_error
    refine ⟨base', inv.step hstep, ⟨err', f', l', rfl⟩, lt_of_lt_of_le hold hstep.next_le,
      fun hc' => ?_⟩
    · have hc : c ∈ base.server.os.conns := by
        cases inv.came hstep hc' with
        | before hc => exact hc
        | now hsec hnew =>
          rw [hnew] at hold
          exact absurd hold (Nat.lt_irrefl _)
      obtain ⟨k, trail, p, loc, hat, hrun⟩ := hseen hc
      obtain ⟨t, ht, hx⟩ := inv.since
      obtain ⟨k', trail', loc', hmove⟩ := loc.step ht hx hstep hc hc'
      exact ⟨k', trail', p, loc', hat, hrun.tail (.move hmove)⟩
  | test hp => exact ⟨base, inv, ⟨err, f, l, rfl⟩, hold, fun hc => (hseen hc).test hp⟩
  | read hp hr => exact ⟨base, inv, ⟨err, f, l, rfl⟩, hold, fun hc => (hseen hc).read hp hr⟩
  | @send i fd ret hp =>
    refine ⟨base, inv, ?_, hold, fun hc => (hseen hc).send inv.osInv hc ret hp _⟩
    dsimp only
    rw [sendNext]
    split
    · exact ⟨_, _, _, rfl⟩
    · exact ⟨err, f, l, rfl⟩

/-! ## Every run -/

/-- **A broadcast beside the other threads.**  Let `c` stand in slot `s` when `CommsSend`
begins its loop over all clients, and still be connected, in slot `j`, after any steps of the
loop and any stores of the accepter and of `CommsDisconnect`.  Then `send` was called on its
descriptor at most twice, and when the loop has returned `true`, at least once, unless `c` has
moved down. -/
theorem broadcast_beside {h₀ h : Commh} {opt : CommsOpt} {env : InitEnv} {calls : List OsCall}
    (hinit : commsTcpserverInitOpt h₀ opt env = some (h, calls, true)) {x : Shared}
    (hreach : Relation.ReflTransGen SharedStep ⟨Server.init h env.socket, none, none⟩ x)
    {c : Conn} (hc : c ∈ x.server.os.conns) {s : ℕ} (hs : Standing c x s) {y : Sending}
    (hrun : Relation.ReflTransGen (SendStep c) (Sending.start x) y)
    (hc' : c ∈ y.shared.server.os.conns) {j : ℕ} (hj : Standing c y.shared j) :
    j ≤ s ∧ y.sends ≤ 2 ∧ (y.phase = .done true → 1 ≤ y.sends + (s - j)) := by
  have inv := placed hinit hreach
  obtain ⟨k, trail, loc⟩ := inv.placed c hc
  obtain rfl : k = s := loc.standing.unique hs
  have start : (Sending.start x).Follows env.socket c k trail x :=
    ⟨inv, ⟨_, _, _, rfl⟩, inv.osInv.id_lt hc,
      fun _ => ⟨k, trail, _, loc, ⟨Nat.le_refl 1, rfl⟩, .refl⟩⟩
  obtain ⟨base, follows⟩ := Machine.reachable_invariant
    (I := fun y => ∃ base, Sending.Follows env.socket c k trail base y)
    (fun _ _ ⟨_, follows⟩ step => follows.step step) hrun ⟨x, start⟩
  obtain ⟨err, f, l, herr⟩ := follows.error
  obtain ⟨shared, phase, sends⟩ := y
  obtain rfl : shared = base.withError err f l := herr
  obtain ⟨k', trail', p, loc', hat, hrun⟩ := follows.seen hc'
  obtain rfl : k' = j := loc'.standing.unique hj
  obtain ⟨hle, hmost, hdone⟩ := Trail.run_bounds loc.pos hrun
  refine ⟨hle, hmost, fun hphase => hdone ?_⟩
  obtain rfl : phase = .done true := hphase
  exact hat

/-! ## The loop alone -/

/-- How many of the calls are a `send` to the descriptor of `c`. -/
def sendsTo (os : Os) (c : Conn) (calls : List OsCall) : ℕ :=
  calls.countP fun call =>
    match call with
    | .send fd _ => os.conns.find? (·.fd = fd) = some c
    | _ => false

/-- Without a step of the loop the others go on. -/
theorem SharedStep.sending {x y : Shared} (hrun : Relation.ReflTransGen SharedStep x y) (c : Conn)
    (p : SendPhase) (n : ℕ) : Relation.ReflTransGen (SendStep c) ⟨x, p, n⟩ ⟨y, p, n⟩ := by
  induction hrun with
  | refl => exact .refl
  | tail _ step ih => exact ih.tail (.shared step)

section Alone

variable {c : Conn} {x : Shared} {i n : ℕ}

theorem test_go (hi : i < x.server.h.clientCount) : SendStep c ⟨x, .test i, n⟩ ⟨x, .read i, n⟩ := by
  have step := SendStep.test (c := c) (x := ⟨x, .test i, n⟩) rfl
  rwa [sendTest, if_pos hi] at step

theorem test_end (hi : x.server.h.clientCount ≤ i) :
    SendStep c ⟨x, .test i, n⟩ ⟨x, .done true, n⟩ := by
  have step := SendStep.test (c := c) (x := ⟨x, .test i, n⟩) rfl
  rwa [sendTest, if_neg (not_lt.mpr hi)] at step

theorem send_one (fd : ℤ) (msg : List UInt8) (ret : ℤ) : SendStep c ⟨x, .holding i fd, n⟩
    ⟨(sendNext x i ret).1, (sendNext x i ret).2, n + sendsTo x.server.os c [.send fd msg]⟩ := by
  have hone : sendsTo x.server.os c [.send fd msg] =
      if x.server.os.conns.find? (·.fd = fd) = some c then 1 else 0 := by
    simp [sendsTo]
  rw [hone]
  exact .send ret rfl

theorem round_run {fd : ℤ} {addr : SockaddrIn} (hi : i < x.server.h.clientCount)
    (hslot : x.server.h.slot? i = some (fd, addr)) (msg : List UInt8) (ret : ℤ) :
    Relation.ReflTransGen (SendStep c) ⟨x, .test i, n⟩
      ⟨(sendNext x i ret).1, (sendNext x i ret).2, n + sendsTo x.server.os c [.send fd msg]⟩ :=
  .tail (.tail (.single (test_go hi)) (.read rfl hslot)) (send_one fd msg ret)

end Alone

/-- Without a step of another thread the loop is that of `sendAll`. -/
theorem sendAll_run {c : Conn} {os : Os} {sec : Option Section} {a : Option (ℤ × SockaddrIn)}
    {h h' : Commh} {msg : List UInt8} {ret : ℕ → ℤ} {i k n : ℕ} {calls : List OsCall} {r : Bool}
    (hk : i + k = h.clientCount) (hsend : sendAll h msg ret i k = some (h', calls, r)) :
    Relation.ReflTransGen (SendStep c) ⟨⟨⟨h, os⟩, sec, a⟩, .test i, n⟩
      ⟨⟨⟨h', os⟩, sec, a⟩, .done r, n + sendsTo os c calls⟩ := by
  induction k generalizing i n calls with
  | zero =>
    cases hsend
    exact .single (test_end (x := ⟨⟨h, os⟩, sec, a⟩) hk.ge)
  | succ k ih =>
    rw [sendAll] at hsend
    split at hsend
    · cases hsend
    · rename_i sock addr hslot
      have hround := round_run (c := c) (x := ⟨⟨h, os⟩, sec, a⟩) (n := n)
        (lt_of_lt_of_eq (by omega) hk) hslot msg (ret (i - 1))
      split at hsend
      · rename_i hfail
        cases hsend
        rw [sendNext, if_pos hfail] at hround
        exact hround
      · rename_i hok
        split at hsend
        · cases hsend
        · rename_i g rest r' hrest
          cases hsend
          rw [sendNext, if_neg hok] at hround
          have hsum : n + sendsTo os c (.send sock msg :: rest) =
              n + sendsTo os c [.send sock msg] + sendsTo os c rest := by
            rw [Nat.add_assoc, sendsTo, sendsTo, sendsTo, ← List.countP_append]
            rfl
          rw [hsum]
          exact hround.trans (ih (by omega) hrest)

/-! The first of two clients is disconnected; the loop runs when the second one has been copied
to its slot. -/

/-- The copy is made, the slot behind it is not cleared. -/
def copied : Shared :=
  ⟨⟨(twoClients.h.setSlot 1 (0, .zero)).setSlot 1 (5, peerB),
    twoClients.os.calls [.shutdown 4, .close 4]⟩, some (.shift 2), none⟩

theorem copied_run : Relation.ReflTransGen SharedStep ⟨twoClients, none, none⟩ copied := by
  have hslot : twoClients.h.slot? 1 = some (4, peerA) := by decide +kernel
  have hlock : disconnectLock twoClients.h 1 = some (twoClients.h, some (.drop 1)) := by
    rw [disconnectLock, if_neg (by decide +kernel), if_neg (by decide +kernel),
      show (1 : BitVec 16).toNat = 1 from rfl, hslot]
    exact if_neg (by decide)
  have hdrop : sectionStep twoClients (.drop 1) =
      some (⟨twoClients.h, twoClients.os.calls [.shutdown 4, .close 4]⟩, some (.zero 1)) := by
    rw [sectionStep, hslot]
  have habove : (twoClients.h.setSlot 1 (0, .zero)).slot? 2 = some (5, peerB) := by decide +kernel
  have hshift : sectionStep
      ⟨twoClients.h.setSlot 1 (0, .zero), twoClients.os.calls [.shutdown 4, .close 4]⟩
      (.shift 1) = some (copied.server, some (.shift 2)) := by
    rw [sectionStep, if_pos (by decide +kernel), habove]
    rfl
  exact .tail (.tail (.tail (.single (.disconnect 1 rfl hlock)) (.store rfl hdrop))
    (.store (k := .zero 1) rfl rfl)) (.store (k := .shift 1) rfl hshift)

theorem copied_standing : Standing ⟨1, 5, peerB⟩ copied 1 :=
  ⟨by decide +kernel, fun _ hm => hm.1⟩

/-- It gets the message twice. -/
theorem sent_twice : Relation.ReflTransGen (SendStep ⟨1, 5, peerB⟩)
    (Sending.start ⟨twoClients, none, none⟩) ⟨copied, .done true, 2⟩ := by
  have hcopied := SharedStep.sending copied_run ⟨1, 5, peerB⟩ (.test 1) 0
  have hcount : copied.server.h.clientCount = 3 := by decide +kernel
  have hsend : sendsTo copied.server.os ⟨1, 5, peerB⟩ [.send 5 []] = 1 := by decide +kernel
  have hround : ∀ i n, i < 3 → copied.server.h.slot? i = some (5, peerB) →
      Relation.ReflTransGen (SendStep ⟨1, 5, peerB⟩) ⟨copied, .test i, n⟩
        ⟨copied, .test (i + 1), n + 1⟩ := by
    intro i n hi hslot
    have hround := round_run (c := ⟨1, 5, peerB⟩) (n := n) (hcount ▸ hi) hslot [] 1
    rwa [sendNext, if_neg (by decide), hsend] at hround
  refine (hcopied.trans (hround 1 0 (by decide) (by decide +kernel))).trans ?_
  exact (hround 2 1 (by decide) (by decide +kernel)).tail (test_end hcount.le)

/-- `CommsSend` returns `true`, and the second client, which moved down, got the message twice. -/
theorem broadcast_beside_second : 1 ≤ 2 ∧ 2 ≤ 2 ∧
    (SendPhase.done true = .done true → 1 ≤ 2 + (2 - 1)) := by
  have hs : Standing ⟨1, 5, peerB⟩ ⟨twoClients, none, none⟩ 2 := by
    refine ⟨by decide +kernel, ?_⟩
    rintro m ⟨hm, -, hfd⟩
    by_contra hlt
    obtain rfl : m = 1 := by omega
    exact absurd hfd (by decide +kernel)
  exact broadcast_beside newServer_init (run_of_calls twoClients_reachable) (by decide +kernel) hs
    sent_twice (by decide +kernel) copied_standing

end DataCommons.Comms
