import DataCommons.Lib.Ledger
import DataCommons.Comms.Accepter

/-!
# From `Init` to `CommsClose`

The books record which descriptors and threads a handle has obtained and which
it has closed or joined.  `lifeStep` interleaves the caller, who connects and at
the end calls `CommsClose`, with the accepter and with `CommsDisconnect` calls of
other threads.  `CommsClose` does not take the mutex: it goes statement by statement,
also while a `CommsDisconnect` holds the mutex.

* `closeSlots_alone`: alone, its statements are the loop of `commsClose`;
* `LifeInv`: the open descriptors are those in the slots and the one the accepter
  holds; the threads not yet joined are those that the stage of `CommsClose` says;
* `lifeStep_inv`: every step that is `Careful` keeps it;
* `lifecycle_settled`: a failed `Init` settles the books only if it got no socket,
  and a careful run settles them.
-/

namespace DataCommons.Comms

open Commh

/-! ## The books -/

inductive Kind where
  | udp
  | tcpClient
  | tcpServer
  deriving DecidableEq

/-- The `Init` function of each kind. -/
def commsInit (kind : Kind) (h : Commh) (opt : CommsOpt) (env : InitEnv) :
    Option (Commh × List OsCall × Bool) :=
  match kind with
  | .udp => some (commsUdpInitOpt h opt env)
  | .tcpClient => commsTcpclientInitOpt h opt env
  | .tcpServer => commsTcpserverInitOpt h opt env

structure Books where
  fds : Ledger ℤ
  threads : Ledger ℕ

def fdOp : OsCall → Option (Ledger.Op ℤ)
  | .socket fd => some (.acquire fd)
  | .close fd => some (.release fd)
  | _ => none

def threadOp : OsCall → Option (Ledger.Op ℕ)
  | .create thread => some (.acquire thread)
  | .join thread => some (.release thread)
  | _ => none

namespace Books

def empty : Books := ⟨.empty, .empty⟩

def record (b : Books) (calls : List OsCall) : Books :=
  ⟨b.fds.postAll (calls.filterMap fdOp), b.threads.postAll (calls.filterMap threadOp)⟩

/-- The descriptor that an answer of `accept` brings. -/
def accepted (b : Books) : AccEvent → Books
  | .answer (.conn cs _) => { b with fds := b.fds.post (.acquire cs) }
  | _ => b

/-- Every descriptor was closed once and no other; every thread was joined once and
no other. -/
def Settled (b : Books) : Prop := b.fds.Settled ∧ b.threads.Settled

end Books

/-! ## Steps -/

/-- The statements of a round of the loop of `CommsClose`. -/
inductive Statement where
  | test
  | shutdown
  | close
  | store
  | clear
  deriving DecidableEq

/-- Where the caller stands: before `CommsClose`; before the test of `i < client_count`;
at a statement of the round for slot `i`; before `running = false`; before the first or the
second join; behind `CommsClose`, or behind the join of a thread that was never created. -/
inductive Stage where
  | inUse
  | closing (i : ℕ)
  | round (statement : Statement) (i : ℕ)
  | leaving
  | joinListener
  | joinAccepter
  | closed
  | undefined
  deriving DecidableEq

/-- `inside` is the `cid` of the `CommsDisconnect` that holds the mutex. -/
structure Life where
  acc : AccSt
  books : Books
  stage : Stage
  inside : Option (BitVec 16)

/-- `lock` is the lock of a `CommsDisconnect`, whose effect and unlock are
`acc (.disconnect cid)`. -/
inductive LifeEvent where
  | acc (e : AccEvent)
  | lock (cid : BitVec 16)
  | connect (ip : BitVec 32) (port : BitVec 16) (ret : ℤ)
  | close
  | closeNext
  | joinListener
  | joinAccepter

/-- A statement of a round, on slot `i` with what it holds. -/
def roundNext (h : Commh) (i : ℕ) (sock : ℤ) (addr : SockaddrIn) :
    Statement → Commh × List OsCall × Stage
  | .test => (h, [], if sock > 0 then .round .shutdown i else .closing (i + 1))
  | .shutdown => (h, [.shutdown sock], .round .close i)
  | .close => (h, [.close sock], .round .store i)
  | .store => (h.setSlot i (-1, addr), [], .round .clear i)
  | .clear => (h.setSlot i (sock, .zero), [], .closing (i + 1))

/-- The next statement of `CommsClose` up to its joins. -/
def closeNext (h : Commh) : Stage → Option (Commh × List OsCall × Stage)
  | .closing i => some (h, [], if i < h.clientCount then .round .test i else .leaving)
  | .round statement i =>
    match h.slot? i with
    | none => none
    | some (sock, addr) => some (roundNext h i sock addr statement)
  | .leaving => some ({ h with running := false }, [], .joinListener)
  | _ => none

/-- The mutex keeps the thread waiting.  A `CommsDisconnect` has locked it before; one that
is for no server refuses without it. -/
def Life.waits (s : Life) : AccEvent → Bool
  | .enter => s.inside.isSome
  | .disconnect cid => s.acc.h.server && s.inside ≠ some cid
  | _ => false

/-- Who holds the mutex behind the event. -/
def insideAfter (inside : Option (BitVec 16)) : AccEvent → Option (BitVec 16)
  | .disconnect _ => none
  | _ => inside

/-- One step and the system calls it makes.  Joining a thread of the handle
succeeds, once the thread has ended. -/
def lifeStep (s : Life) : LifeEvent → Option (Life × List OsCall)
  | .acc e =>
    if s.waits e then none
    else
      match accStep s.acc e with
      | none => none
      | some (acc, calls) =>
        some ({ s with acc, books := (s.books.accepted e).record calls,
                       inside := insideAfter s.inside e }, calls)
  | .lock cid =>
    if s.acc.h.server = true ∧ s.inside = none then some ({ s with inside := some cid }, [])
    else none
  | .connect ip port ret =>
    if s.stage = .inUse then
      match commsConnect s.acc.h ip port ret with
      | none => none
      | some (h, _) => some ({ s with acc := { s.acc with h } }, [])
    else none
  | .close =>
    if s.stage = .inUse then
      some ({ s with stage := if s.acc.h.clientCount > 0 then .closing 0 else .leaving }, [])
    else none
  | .closeNext =>
    match closeNext s.acc.h s.stage with
    | none => none
    | some (h, calls, stage) =>
      some ({ s with acc := { s.acc with h }, books := s.books.record calls, stage }, calls)
  | .joinListener =>
    let h := s.acc.h
    let calls := [OsCall.join h.listener]
    if s.stage ≠ .joinListener then none
    else
      let stage := if h.listener ∉ s.books.threads.held then .undefined
        else if h.server then .joinAccepter else .closed
      some ({ s with books := s.books.record calls, stage }, calls)
  | .joinAccepter =>
    let h := s.acc.h
    let calls := [OsCall.join h.accepter]
    if s.stage ≠ .joinAccepter ∨ (h.accepter ∈ s.books.threads.held ∧ s.acc.phase ≠ .ended) then none
    else
      let stage := if h.accepter ∉ s.books.threads.held then .undefined else .closed
      some ({ s with books := s.books.record calls, stage }, calls)

/-- After an `Init` that returned `true`. -/
def Life.start (h : Commh) (calls : List OsCall) : Life :=
  ⟨⟨h, if h.server && h.running then .top else .ended⟩, Books.empty.record calls, .inUse, none⟩

namespace Stage

/-- A round has begun and not ended. -/
def inRound : Stage → Bool
  | .round _ _ => true
  | _ => false

def inLoop : Stage → Bool
  | .closing _ | .round _ _ => true
  | _ => false

end Stage

/-- What a step has to heed: `accept` gives a positive descriptor; a connection is
not entered once `CommsClose` has left its loop; `CommsClose` is called on a handle
with a callback and a positive socket, and on a UDP or TCP client handle only when
`client_count` has come up to slot 0 and no leftover descriptor stands behind it; and no
`CommsDisconnect` overlaps a round of its loop. -/
def Heeds (s : Life) : LifeEvent → Prop
  | .acc (.answer (.conn cs _)) => 0 < cs
  | .acc .enter => s.stage = .inUse ∨ s.stage.inLoop = true ∨ commsMaxClients ≤ s.acc.h.clientCount
  | .lock _ => s.stage.inRound = false
  | .close => s.acc.h.recvcb = true ∧ 0 < (s.acc.h.slot 0).1 ∧
      (s.acc.h.server = false → 1 ≤ s.acc.h.clientCount ∧ ∀ x ∈ s.acc.h.clients, live x = false)
  | .closeNext => s.stage.inLoop = true → s.inside = none
  | _ => True

instance (s : Life) : DecidablePred (Heeds s)
  | .acc (.answer (.conn cs _)) => inferInstanceAs (Decidable (0 < cs))
  | .acc (.answer (.fail _)) => inferInstanceAs (Decidable True)
  | .acc .enter => inferInstanceAs (Decidable (_ ∨ _ ∨ _))
  | .acc .test => inferInstanceAs (Decidable True)
  | .acc (.disconnect _) => inferInstanceAs (Decidable True)
  | .lock _ => inferInstanceAs (Decidable (_ = _))
  | .connect _ _ _ => inferInstanceAs (Decidable True)
  | .close => inferInstanceAs (Decidable (_ ∧ _ ∧ _))
  | .closeNext => inferInstanceAs (Decidable (_ → _))
  | .joinListener => inferInstanceAs (Decidable True)
  | .joinAccepter => inferInstanceAs (Decidable True)

def Careful : Life → List LifeEvent → Prop := Machine.Along lifeStep Heeds

instance (s : Life) (es : List LifeEvent) : Decidable (Careful s es) :=
  inferInstanceAs (Decidable (Machine.Along _ _ _ _))

/-! ## CommsClose alone -/

/-- The statements of `CommsClose` without a step of another thread between them. -/
def closeAlone (s : Commh × Stage) (_ : Unit) : Option ((Commh × Stage) × List OsCall) :=
  match closeNext s.1 s.2 with
  | none => none
  | some (h, calls, stage) => some ((h, stage), calls)

theorem setSlot_setSlot (h : Commh) (i : ℕ) (x y : ℤ × SockaddrIn) :
    (h.setSlot i x).setSlot i y = h.setSlot i y := by
  simp [Commh.setSlot, Vector.setIfInBounds_setIfInBounds]

theorem closeAlone_live {h : Commh} {i : ℕ} (hi : i < h.clientCount) (hbound : i < commsMaxClients)
    (hl : (h.slot i).1 > 0) {n : ℕ} {h' : Commh} {outs : List (List OsCall)}
    (hrest : Machine.exec closeAlone (h.setSlot i (-1, .zero), .closing (i + 1))
      (List.replicate n ()) = some ((h', .leaving), outs)) :
    Machine.exec closeAlone (h, .closing i) (List.replicate (n + 6) ()) = some ((h', .leaving),
      [] :: [] :: [.shutdown (h.slot i).1] :: [.close (h.slot i).1] :: [] :: [] :: outs) := by
  have hslot := h.slot?_eq hbound
  have hstored := (h.setSlot i (-1, (h.slot i).2)).slot?_eq hbound
  rw [slot_setSlot _ _ _ _ hbound, if_pos rfl] at hstored
  rw [← setSlot_setSlot h i (-1, (h.slot i).2)] at hrest
  have hcount : closeAlone (h, .closing i) () = some ((h, .round .test i), []) := by
    simp only [closeAlone, closeNext, if_pos hi]
  have htest : closeAlone (h, .round .test i) () = some ((h, .round .shutdown i), []) := by
    simp only [closeAlone, closeNext, hslot, roundNext, if_pos hl]
  have hshutdown : closeAlone (h, .round .shutdown i) ()
      = some ((h, .round .close i), [.shutdown (h.slot i).1]) := by
    simp only [closeAlone, closeNext, hslot, roundNext]
  have hclose : closeAlone (h, .round .close i) ()
      = some ((h, .round .store i), [.close (h.slot i).1]) := by
    simp only [closeAlone, closeNext, hslot, roundNext]
  have hstore : closeAlone (h, .round .store i) ()
      = some ((h.setSlot i (-1, (h.slot i).2), .round .clear i), []) := by
    simp only [closeAlone, closeNext, hslot, roundNext]
  refine Machine.exec_cons hcount (Machine.exec_cons htest (Machine.exec_cons hshutdown
    (Machine.exec_cons hclose (Machine.exec_cons hstore (Machine.exec_cons ?_ hrest)))))
  simp only [closeAlone, closeNext, hstored, roundNext]

theorem closeAlone_dead {h : Commh} {i : ℕ} (hi : i < h.clientCount) (hbound : i < commsMaxClients)
    (hl : ¬ (h.slot i).1 > 0) {n : ℕ} {h' : Commh} {outs : List (List OsCall)}
    (hrest : Machine.exec closeAlone (h, .closing (i + 1)) (List.replicate n ())
      = some ((h', .leaving), outs)) :
    Machine.exec closeAlone (h, .closing i) (List.replicate (n + 2) ())
      = some ((h', .leaving), [] :: [] :: outs) := by
  have hcount : closeAlone (h, .closing i) () = some ((h, .round .test i), []) := by
    simp only [closeAlone, closeNext, if_pos hi]
  refine Machine.exec_cons hcount (Machine.exec_cons ?_ hrest)
  simp only [closeAlone, closeNext, h.slot?_eq hbound, roundNext, if_neg hl]

/-- **Alone, the statements are the loop of `commsClose`.** -/
theorem closeSlots_alone {h h' : Commh} {i k : ℕ} (hk : h.clientCount = i + k)
    {calls : List OsCall} (hc : closeSlots h i k = some (h', calls)) :
    ∃ n outs, Machine.exec closeAlone (h, .closing i) (List.replicate n ())
      = some ((h', .leaving), outs) ∧ outs.flatten = calls := by
  induction k generalizing h i calls with
  | zero =>
    cases hc
    refine ⟨1, [[]], Machine.exec_cons ?_ rfl, rfl⟩
    simp only [closeAlone, closeNext, if_neg (show ¬ i < h'.clientCount by omega)]
  | succ k ih =>
    have hi : i < h.clientCount := by omega
    have hbound : i < commsMaxClients := by
      by_contra hge
      rw [closeSlots, slot?_eq_none _ (Nat.le_of_not_lt hge)] at hc
      cases hc
    rw [closeSlots, slot?_eq _ hbound] at hc
    dsimp only at hc
    split at hc
    · rename_i hl
      split at hc
      · cases hc
      · rename_i hrest
        cases hc
        obtain ⟨n, outs, hexec, hflat⟩ := ih (by rw [setSlot_clientCount]; omega) hrest
        exact ⟨n + 6, _, closeAlone_live hi hbound hl hexec, by simp [hflat]⟩
    · rename_i hl
      obtain ⟨n, outs, hexec, hflat⟩ := ih (by omega) hc
      exact ⟨n + 2, _, closeAlone_dead hi hbound hl hexec, by simp [hflat]⟩

/-! ## Live descriptors -/

/-- The slots `0 .. client_count - 1`. -/
def Commh.slots (h : Commh) : List (ℤ × SockaddrIn) := (List.range h.clientCount).map h.slot

/-- The descriptors that `CommsClose` would close. -/
def liveFds (xs : List (ℤ × SockaddrIn)) : List ℤ := (xs.filter live).map Prod.fst

def AccPhase.fds : AccPhase → List ℤ
  | .holding cs _ => [cs]
  | _ => []

@[simp] theorem AccPhase.fds_top : AccPhase.top.fds = [] := rfl

@[simp] theorem AccPhase.fds_accepting : AccPhase.accepting.fds = [] := rfl

@[simp] theorem AccPhase.fds_holding (cs : ℤ) (cli : SockaddrIn) :
    (AccPhase.holding cs cli).fds = [cs] := rfl

@[simp] theorem AccPhase.fds_ended : AccPhase.ended.fds = [] := rfl

theorem slots_length (h : Commh) : h.slots.length = h.clientCount := by
  simp [Commh.slots]

theorem slots_getElem (h : Commh) (i : ℕ) (hi : i < h.slots.length) : h.slots[i] = h.slot i := by
  simp [Commh.slots]

theorem slots_eq_cons {h : Commh} (hpos : 1 ≤ h.clientCount) :
    h.slots = h.slot 0 :: h.clients := by
  rw [Commh.slots, ← Nat.sub_add_cancel hpos, List.range_succ_eq_map, List.map_cons, List.map_map]
  rfl

theorem liveFds_append (xs ys : List (ℤ × SockaddrIn)) :
    liveFds (xs ++ ys) = liveFds xs ++ liveFds ys := by
  simp [liveFds]

theorem liveFds_cons_of_live {x : ℤ × SockaddrIn} (hx : 0 < x.1) (xs : List (ℤ × SockaddrIn)) :
    liveFds (x :: xs) = x.1 :: liveFds xs := by
  rw [liveFds, List.filter_cons_of_pos (live_iff.mpr hx), List.map_cons]
  rfl

theorem liveFds_of_dead {xs : List (ℤ × SockaddrIn)} (h : ∀ x ∈ xs, live x = false) :
    liveFds xs = [] := by
  rw [liveFds, List.filter_eq_nil_iff.mpr fun x hx => by simp [h x hx], List.map_nil]

theorem liveFds_split (xs ys : List (ℤ × SockaddrIn)) {x : ℤ × SockaddrIn} (hx : 0 < x.1) :
    (liveFds (xs ++ x :: ys)).Perm (x.1 :: liveFds (xs ++ ys)) := by
  rw [liveFds_append, liveFds_append, liveFds_cons_of_live hx]
  exact List.perm_middle

theorem split_at {xs : List (ℤ × SockaddrIn)} {i : ℕ} (hi : i < xs.length) :
    xs = xs.take i ++ xs[i] :: xs.drop (i + 1) := by
  rw [List.getElem_cons_drop, List.take_append_drop]

theorem liveFds_eraseIdx {xs : List (ℤ × SockaddrIn)} {i : ℕ} (hi : i < xs.length)
    (hx : 0 < xs[i].1) : (liveFds xs).Perm (xs[i].1 :: liveFds (xs.eraseIdx i)) := by
  rw [List.eraseIdx_eq_take_drop_succ]
  conv_lhs => rw [split_at hi]
  exact liveFds_split _ _ hx

/-! ## The invariant -/

/-- The threads of a handle with a callback. -/
def Commh.threads (h : Commh) : List ℕ :=
  if h.server then [h.listener, h.accepter] else [h.listener]

/-- The open descriptors that the table accounts for.  Between `close` and the store of -1
slot `i` holds one that is not open. -/
def openFds (h : Commh) : Stage → List ℤ
  | .inUse => (h.slot 0).1 :: if h.server then liveFds h.clients else []
  | .closing _ => liveFds h.slots
  | .round .store i => liveFds (h.slots.set i (-1, .zero))
  | .round _ _ => liveFds h.slots
  | _ => []

/-- The slots before `i` are dealt with. -/
def SweptTo (h : Commh) (i : ℕ) : Prop := ∀ x ∈ h.slots.take i, live x = false

/-- What a statement of the round finds in its slot. -/
def Statement.Finds : Statement → ℤ × SockaddrIn → Prop
  | .test, _ => True
  | .clear, x => live x = false
  | _, x => 0 < x.1

/-- The slots that `CommsClose` has dealt with. -/
def Swept (h : Commh) : Stage → Prop
  | .inUse => True
  | .closing i => i ≤ h.clientCount ∧ SweptTo h i
  | .round statement i => i < h.clientCount ∧ SweptTo h i ∧ statement.Finds (h.slot i)
  | _ => ∀ x ∈ h.slots, live x = false

/-- The threads that are not joined yet. -/
def ThreadsInv (h : Commh) (held : List ℕ) : Stage → Prop
  | .inUse => h.recvcb = true → held = h.threads
  | .joinAccepter => held = [h.accepter]
  | .closed => held = []
  | .undefined => False
  | _ => held = h.threads

structure LifeInv (s : Life) : Prop where
  kind : IsServer s.acc.h ∨ (s.acc.h.server = false ∧ s.acc.phase = .ended)
  positive : ∀ fd ∈ s.acc.phase.fds, 0 < fd
  fds : s.books.fds.held.Perm (openFds s.acc.h s.stage ++ s.acc.phase.fds)
  swept : Swept s.acc.h s.stage
  fdsStray : s.books.fds.stray = []
  threads : ThreadsInv s.acc.h s.books.threads.held s.stage
  threadsStray : s.books.threads.stray = []
  apart : s.inside ≠ none → s.stage.inRound = false
  done : s.stage = .closed → s.acc.phase = .ended

theorem LifeInv.settled {s : Life} (inv : LifeInv s) (hdone : s.stage = .closed) :
    s.books.Settled := by
  have hfds := inv.fds
  have hthreads := inv.threads
  rw [inv.done hdone, hdone] at hfds
  rw [hdone] at hthreads
  exact ⟨⟨List.perm_nil.mp hfds, inv.fdsStray⟩, ⟨hthreads, inv.threadsStray⟩⟩

/-! ## Frames -/

theorem Commh.SameTable.slots {h h' : Commh} (st : SameTable h h') : h'.slots = h.slots := by
  rw [Commh.slots, Commh.slots, st.clientCount]
  exact List.map_congr_left fun i _ => st.slot i

theorem openFds_of_sameTable {h h' : Commh} (st : SameTable h h') (stage : Stage) :
    openFds h' stage = openFds h stage := by
  cases stage <;> simp only [openFds, st.slots, st.clients, st.slot, st.server]

theorem SweptTo.of_slots {h h' : Commh} (hslots : h'.slots = h.slots) {i : ℕ}
    (hsw : SweptTo h i) : SweptTo h' i := by
  rw [SweptTo, hslots]
  exact hsw

theorem Swept.of_sameTable {h h' : Commh} (st : SameTable h h') {stage : Stage}
    (hsw : Swept h stage) : Swept h' stage := by
  cases stage with
  | inUse => trivial
  | closing i => exact ⟨st.clientCount ▸ hsw.1, hsw.2.of_slots st.slots⟩
  | round statement i =>
    refine ⟨st.clientCount ▸ hsw.1, hsw.2.1.of_slots st.slots, ?_⟩
    rw [st.slot]
    exact hsw.2.2
  | _ => simpa only [Swept, st.slots] using hsw

theorem ThreadsInv.of_same {h h' : Commh} (ht : SameThreads h h') (hs : h'.server = h.server)
    {held : List ℕ} {stage : Stage} (inv : ThreadsInv h held stage) :
    ThreadsInv h' held stage := by
  cases stage with
  | undefined => exact inv
  | closed => exact inv
  | _ =>
    simpa only [ThreadsInv, Commh.threads, ht.recvcb, ht.listener, ht.accepter, hs] using inv

theorem LifeInv.setError {s : Life} (inv : LifeInv s) (err : CommsError) (f : String) (l : ℕ) :
    LifeInv { s with acc := { s.acc with h := Comms.setError s.acc.h err f l } } := by
  have hst := SameTable.of_setError s.acc.h err f l
  refine ⟨?_, inv.positive, ?_, inv.swept.of_sameTable hst, inv.fdsStray,
    inv.threads.of_same ⟨rfl, rfl, rfl, rfl⟩ rfl, inv.threadsStray, inv.apart, inv.done⟩
  · exact inv.kind.imp (fun hs => hs.of_sameFrame hst.toSameFrame) id
  · rw [openFds_of_sameTable hst]
    exact inv.fds

theorem LifeInv.unlock {s : Life} (inv : LifeInv s) : LifeInv { s with inside := none } :=
  { inv with apart := fun h => absurd rfl h }

/-! ## Steps of the accepter -/

theorem LifeInv.of_phase {s : Life} (inv : LifeInv s) (hserver : IsServer s.acc.h)
    {phase : AccPhase} (hold : s.acc.phase.fds = []) (hnew : phase.fds = [])
    (hended : s.acc.phase ≠ .ended) :
    LifeInv { s with acc := { s.acc with phase } } := by
  refine ⟨Or.inl hserver, by simp [hnew], ?_, inv.swept, inv.fdsStray, inv.threads,
    inv.threadsStray, inv.apart, fun hd => absurd (inv.done hd) hended⟩
  dsimp only
  rw [hnew, ← hold]
  exact inv.fds

theorem LifeInv.conn {s : Life} (inv : LifeInv s) (hserver : IsServer s.acc.h) {cs : ℤ}
    (cli : SockaddrIn) (hcs : 0 < cs) (hphase : s.acc.phase = .accepting) :
    LifeInv { s with
      acc := { s.acc with phase := .holding cs cli }
      books := { s.books with fds := s.books.fds.post (.acquire cs) } } := by
  have hfds := inv.fds
  rw [hphase] at hfds
  refine ⟨Or.inl hserver, by simpa using hcs, ?_, inv.swept, inv.fdsStray,
    inv.threads, inv.threadsStray, inv.apart, fun hd => ?_⟩
  · have := hfds.append_right [cs]
    rwa [AccPhase.fds_accepting, List.append_nil] at this
  · have := inv.done hd
    rw [hphase] at this
    cases this

theorem Entered.slots {h h' : Commh} {x : ℤ × SockaddrIn} (hent : Entered h x h')
    (hserver : IsServer h) : h'.slots = h.slots ++ [x] := by
  rw [slots_eq_cons hent.isServer.count_pos, slots_eq_cons hserver.count_pos, hent.clients,
    hent.slot_zero]
  rfl

/-- A connection behind the last client is no concern of `CommsClose` yet. -/
theorem Entered.swept {h h' : Commh} {x : ℤ × SockaddrIn} (hent : Entered h x h')
    (hserver : IsServer h) {stage : Stage} (hstage : stage = .inUse ∨ stage.inLoop = true)
    (hsw : Swept h stage) : Swept h' stage := by
  have hslots := hent.slots hserver
  have hto : ∀ i ≤ h.clientCount, SweptTo h i → SweptTo h' i := by
    intro i hi hto
    rwa [SweptTo, hslots, List.take_append_of_le_length (by rw [slots_length]; exact hi)]
  cases stage with
  | inUse => trivial
  | closing i =>
    refine ⟨?_, hto i hsw.1 hsw.2⟩
    rw [hent.clientCount]
    exact Nat.le_succ_of_le hsw.1
  | round statement i =>
    obtain ⟨hi, hsw, hfinds⟩ := hsw
    have hslot : h'.slot i = h.slot i := by
      have hlt : i < h.slots.length := by rw [slots_length]; exact hi
      rw [← slots_getElem h' i (by rw [hslots, List.length_append]; omega),
        ← slots_getElem h i hlt]
      simp only [hslots, List.getElem_append_left hlt]
    refine ⟨?_, hto i hi.le hsw, hslot ▸ hfinds⟩
    rw [hent.clientCount]
    exact Nat.lt_succ_of_lt hi
  | _ => simp [Stage.inLoop] at hstage

theorem Entered.openFds {h h' : Commh} {cs : ℤ} {cli : SockaddrIn} (hcs : 0 < cs)
    (hent : Entered h (cs, cli) h') (hserver : IsServer h) {stage : Stage}
    (hstage : stage = .inUse ∨ stage.inLoop = true) (hsw : Swept h stage) :
    Comms.openFds h' stage = Comms.openFds h stage ++ [cs] := by
  have hslots := hent.slots hserver
  have hnew : liveFds [(cs, cli)] = [cs] := liveFds_cons_of_live hcs []
  cases stage with
  | inUse =>
    simp only [Comms.openFds, hent.isServer.server, hserver.server, ↓reduceIte, hent.clients,
      hent.slot_zero, liveFds_append, hnew, List.cons_append]
  | closing i => simp only [Comms.openFds, hslots, liveFds_append, hnew]
  | round statement i =>
    have hi : i < h.slots.length := by rw [slots_length]; exact hsw.1
    cases statement with
    | store =>
      simp only [Comms.openFds, hslots, List.set_append_left _ _ hi, liveFds_append, hnew]
    | _ => simp only [Comms.openFds, hslots, liveFds_append, hnew]
  | _ => simp [Stage.inLoop] at hstage

theorem LifeInv.enter {s : Life} (inv : LifeInv s) {cs : ℤ} {cli : SockaddrIn} {h' : Commh}
    (hphase : s.acc.phase = .holding cs cli) (hserver : IsServer s.acc.h)
    (hent : Entered s.acc.h (cs, cli) h') (ht : SameThreads s.acc.h h')
    (hstage : s.stage = .inUse ∨ s.stage.inLoop = true) :
    LifeInv { s with acc := ⟨h', .top⟩ } := by
  have hfds := inv.fds
  have hcs : 0 < cs := inv.positive cs (by simp [hphase])
  have hsrv : h'.server = s.acc.h.server := hent.isServer.server.trans hserver.server.symm
  refine ⟨Or.inl hent.isServer, by simp, ?_, hent.swept hserver hstage inv.swept, inv.fdsStray,
    inv.threads.of_same ht hsrv, inv.threadsStray, inv.apart, fun hd => ?_⟩
  · rw [hphase] at hfds
    dsimp only
    rw [hent.openFds hcs hserver hstage inv.swept, AccPhase.fds_top, List.append_nil]
    exact hfds
  · have := inv.done hd
    rw [hphase] at this
    cases this

theorem LifeInv.refuse {s : Life} (inv : LifeInv s) {cs : ℤ} {cli : SockaddrIn}
    (hphase : s.acc.phase = .holding cs cli) (hserver : IsServer s.acc.h) :
    LifeInv { s with
      acc := { s.acc with phase := .ended }
      books := { s.books with fds := s.books.fds.post (.release cs) } } := by
  have hfds := inv.fds
  rw [hphase] at hfds
  obtain ⟨hheld, hstray⟩ :=
    Ledger.release_of_perm (hfds.trans (List.perm_append_singleton cs _))
  refine ⟨Or.inl hserver, by simp, ?_, inv.swept, hstray.trans inv.fdsStray,
    inv.threads, inv.threadsStray, inv.apart, fun _ => rfl⟩
  dsimp only
  rw [AccPhase.fds_ended, List.append_nil]
  exact hheld

/-! ## Removing a client -/

theorem Removed.slots {h h' : Commh} {cid : ℕ} (hrem : Removed h cid h') (hk : 1 ≤ cid)
    (hk' : cid < h.clientCount) : h'.slots = h.slots.eraseIdx cid := by
  obtain ⟨k, rfl⟩ : ∃ k, cid = k + 1 := ⟨cid - 1, by omega⟩
  rw [slots_eq_cons hrem.isServer.count_pos, slots_eq_cons (by omega), hrem.clients,
    hrem.slot_zero]
  rfl

theorem SweptTo.le_of_live {h : Commh} {i k : ℕ} (hsw : SweptTo h i) (hk : k < h.clientCount)
    (hl : 0 < (h.slot k).1) : i ≤ k := by
  by_contra hlt
  have hk' : k < (h.slots.take i).length := by
    rw [List.length_take, slots_length]
    omega
  have hdead := hsw _ (List.getElem_mem hk')
  rw [List.getElem_take, slots_getElem, ← Bool.not_eq_true, live_iff] at hdead
  exact hdead hl

theorem mem_slots {h : Commh} {k : ℕ} (hk : k < h.clientCount) : h.slot k ∈ h.slots :=
  List.mem_map.mpr ⟨k, List.mem_range.mpr hk, rfl⟩

/-- The open descriptors before and after a removal outside a round. -/
theorem Removed.openFds {h h' : Commh} {cid : ℕ} (hrem : Removed h cid h') (hs : IsServer h)
    (hk : 1 ≤ cid) (hk' : cid < h.clientCount) (hl : 0 < (h.slot cid).1) {stage : Stage}
    (hround : stage.inRound = false) (hsw : Swept h stage) :
    (openFds h stage).Perm ((h.slot cid).1 :: Comms.openFds h' stage) ∧ Swept h' stage := by
  have hslots := hrem.slots hk hk'
  have hlen : cid < h.slots.length := by rw [slots_length]; exact hk'
  have hlive : 0 < (h.slots[cid]).1 := by rw [slots_getElem]; exact hl
  cases stage with
  | inUse =>
    have hlen' : cid - 1 < h.clients.length := by rw [clients_length]; omega
    have hget : h.clients[cid - 1] = h.slot cid := by
      rw [clients_getElem, Nat.sub_add_cancel hk]
    have hperm := liveFds_eraseIdx hlen' (by rw [hget]; exact hl)
    rw [hget, ← hrem.clients] at hperm
    refine ⟨?_, trivial⟩
    simp only [Comms.openFds, hs.server, hrem.isServer.server, ↓reduceIte, hrem.slot_zero]
    exact (hperm.cons _).trans (List.Perm.swap ..)
  | closing i =>
    have hperm := liveFds_eraseIdx hlen hlive
    rw [slots_getElem, ← hslots] at hperm
    refine ⟨hperm, ?_⟩
    have hi := hsw.2.le_of_live hk' hl
    have htake : h'.slots.take i = h.slots.take i := by
      rw [hslots, List.eraseIdx_eq_take_drop_succ, List.take_append_of_le_length
        (by rw [List.length_take]; omega), List.take_take, Nat.min_eq_left hi]
    refine ⟨?_, by rw [SweptTo, htake]; exact hsw.2⟩
    rw [hrem.clientCount]
    omega
  | round statement i => cases hround
  | _ =>
    have hdead := hsw _ (mem_slots hk')
    rw [← Bool.not_eq_true, live_iff] at hdead
    exact absurd hl hdead

theorem LifeInv.disconnect {s : Life} (inv : LifeInv s) {cid : BitVec 16}
    (hwaits : s.waits (.disconnect cid) = false) {h' : Commh} {calls : List OsCall} {r : Bool}
    (hd : commsDisconnect s.acc.h cid = some (h', calls, r)) :
    LifeInv { s with acc := { s.acc with h := h' }, books := s.books.record calls } := by
  rcases inv.kind with hs | ⟨hs, hended⟩
  · rcases commsDisconnect_spec hs cid with ⟨h₁, hd', hk, hk', hl, hrem⟩ | ⟨line, hd', -⟩
    · cases hd.symm.trans hd'
      have ht := commsDisconnect_threads hd
      have hround : s.stage.inRound = false := by
        apply inv.apart
        simp only [Life.waits, hs.server, Bool.true_and, ne_eq, decide_not,
          Bool.not_eq_false', decide_eq_true_eq] at hwaits
        simp [hwaits]
      obtain ⟨hperm, hsw⟩ := hrem.openFds hs hk hk' hl hround inv.swept
      obtain ⟨hheld, hstray⟩ :=
        Ledger.release_of_perm (inv.fds.trans (hperm.append_right s.acc.phase.fds))
      exact ⟨Or.inl hrem.isServer, inv.positive, hheld, hsw, hstray.trans inv.fdsStray,
        inv.threads.of_same ht (hrem.isServer.server.trans hs.server.symm), inv.threadsStray,
        inv.apart, inv.done⟩
    · cases hd.symm.trans hd'
      exact inv.setError _ _ _
  · cases hd.symm.trans (commsDisconnect_client hs cid)
    exact inv.setError _ _ _

/-! ## Steps -/

theorem LifeInv.acc {s : Life} (inv : LifeInv s) {e : AccEvent} (hwaits : s.waits e = false)
    {acc : AccSt} {calls : List OsCall} (hstep : accStep s.acc e = some (acc, calls))
    (hheeds : Heeds s (.acc e)) :
    LifeInv { s with acc, books := (s.books.accepted e).record calls } := by
  have hserver : s.acc.phase ≠ .ended → IsServer s.acc.h := fun hne =>
    inv.kind.resolve_right fun hk => hne hk.2
  obtain ⟨⟨h, phase⟩, books, stage, inside⟩ := s
  cases accStep_cases hstep with
  | test h => exact inv.of_phase (hserver (by simp)) rfl (by split <;> rfl) (by simp)
  | @fail h errno loop hacc =>
    exact inv.of_phase (hserver (by simp)) rfl (by cases loop <;> rfl) (by simp)
  | conn h hcs cli => exact inv.conn (hserver (by simp)) cli hheeds rfl
  | @enter h h' cs cli calls loop hacc =>
    have hs := hserver (by simp)
    have ht := commsAccepter_threads h (.conn cs cli)
    have hcs : 0 < cs := inv.positive cs (by simp)
    rcases Nat.lt_or_ge h.clientCount commsMaxClients with hlt | hfull
    · obtain ⟨h₁, hacc₁, hent⟩ := commsAccepter_enter hs cs cli hlt
      rw [hacc₁] at ht
      cases hacc₁.symm.trans hacc
      have hstage : stage = .inUse ∨ stage.inLoop = true := by
        rcases hheeds with hst | hst | hfull
        · exact Or.inl hst
        · exact Or.inr hst
        · exact absurd hlt (not_lt.mpr hfull)
      exact inv.enter rfl hs hent ht hstage
    · have hrefuse := commsAccepter_full cs cli hfull
      rw [if_pos hcs] at hrefuse
      cases hrefuse.symm.trans hacc
      exact (inv.refuse rfl hs).setError _ _ _
  | disconnect phase hd => exact inv.disconnect hwaits hd

/-- `CommsConnect` on a UDP or TCP client handle leaves the descriptors. -/
theorem commsConnect_frame {h h' : Commh} (hs : h.server = false) {ip : BitVec 32}
    {port : BitVec 16} {ret : ℤ} {r : Bool} (hc : commsConnect h ip port ret = some (h', r)) :
    h'.clientsSocks = h.clientsSocks ∧ h'.server = false ∧ SameThreads h h' := by
  obtain ⟨line, rfl⟩ | ⟨addresses, count, rfl⟩ := commsConnect_cases hc
  · exact ⟨rfl, hs, rfl, rfl, rfl, rfl⟩
  · exact ⟨rfl, hs, rfl, rfl, rfl, rfl⟩

theorem LifeInv.connect {s : Life} (inv : LifeInv s) (hstage : s.stage = .inUse) {ip : BitVec 32}
    {port : BitVec 16} {ret : ℤ} {h' : Commh} {r : Bool}
    (hc : commsConnect s.acc.h ip port ret = some (h', r)) :
    LifeInv { s with acc := { s.acc with h := h' } } := by
  rcases inv.kind with hs | ⟨hs, hended⟩
  · rw [commsConnect, if_pos hs.server] at hc
    cases hc
    exact inv.setError _ _ _
  · obtain ⟨hsocks, hs', ht⟩ := commsConnect_frame hs hc
    have hfds := inv.fds
    rw [hstage] at hfds
    have hslot : (h'.slot 0).1 = (s.acc.h.slot 0).1 := by rw [Commh.slot, Commh.slot, hsocks]
    refine ⟨Or.inr ⟨hs', hended⟩, inv.positive, ?_, ?_, inv.fdsStray,
      inv.threads.of_same ht (hs'.trans hs.symm), inv.threadsStray, inv.apart, inv.done⟩
    · simp only [openFds, hs, Bool.false_eq_true, ↓reduceIte] at hfds
      simp only [hstage, openFds, hs', hslot, Bool.false_eq_true, ↓reduceIte]
      exact hfds
    · simp only [hstage, Swept]

theorem LifeInv.close {s : Life} (inv : LifeInv s) (hstage : s.stage = .inUse)
    (hheeds : Heeds s .close) :
    LifeInv { s with stage := if s.acc.h.clientCount > 0 then .closing 0 else .leaving } := by
  obtain ⟨hcb, hsock, hclient⟩ := hheeds
  have hfds := inv.fds
  have hthreads := inv.threads
  rw [hstage] at hfds hthreads
  have hcount : 1 ≤ s.acc.h.clientCount := by
    rcases inv.kind with hs | ⟨hs, -⟩
    · exact hs.count_pos
    · exact (hclient hs).1
  have hopen : liveFds s.acc.h.slots = openFds s.acc.h .inUse := by
    rw [slots_eq_cons hcount, liveFds_cons_of_live hsock, openFds]
    rcases inv.kind with hs | ⟨hs, -⟩
    · rw [if_pos hs.server]
    · rw [if_neg (by simp [hs]), liveFds_of_dead (hclient hs).2]
  rw [if_pos (show s.acc.h.clientCount > 0 from hcount)]
  refine ⟨inv.kind, inv.positive, ?_, ⟨Nat.zero_le _, nofun⟩, inv.fdsStray, hthreads hcb,
    inv.threadsStray, fun _ => rfl, nofun⟩
  dsimp only
  rw [openFds, hopen]
  exact hfds

/-! ## The statements of CommsClose -/

theorem setSlot_slots (h : Commh) {i : ℕ} (hi : i < commsMaxClients) (x : ℤ × SockaddrIn) :
    (h.setSlot i x).slots = h.slots.set i x := by
  apply List.ext_getElem
  · rw [List.length_set, slots_length, slots_length, setSlot_clientCount]
  · intro j h₁ h₂
    rw [slots_getElem, slot_setSlot _ _ _ _ hi, List.getElem_set, slots_getElem]
    exact if_congr eq_comm rfl rfl

theorem liveFds_set_dead {xs : List (ℤ × SockaddrIn)} {i : ℕ} (hi : i < xs.length)
    {x : ℤ × SockaddrIn} (hx : live x = false) :
    liveFds (xs.set i x) = liveFds (xs.take i ++ xs.drop (i + 1)) := by
  have hcons : ∀ ys, liveFds (x :: ys) = liveFds ys := fun ys => by
    rw [liveFds, liveFds, List.filter_cons_of_neg (by rw [hx]; decide)]
  rw [List.set_eq_take_append_cons_drop, if_pos hi, liveFds_append, hcons, ← liveFds_append]

/-- The descriptor of a live slot and the others. -/
theorem liveFds_set {xs : List (ℤ × SockaddrIn)} {i : ℕ} (hi : i < xs.length) (hl : 0 < xs[i].1)
    {x : ℤ × SockaddrIn} (hx : live x = false) :
    (liveFds xs).Perm (xs[i].1 :: liveFds (xs.set i x)) := by
  rw [liveFds_set_dead hi hx]
  conv_lhs => rw [split_at hi]
  exact liveFds_split _ _ hl

/-- What a statement stores in slot `i` does not touch the slots before it. -/
theorem SweptTo.setSlot {h : Commh} {i : ℕ} (hsw : SweptTo h i) (hi : i < commsMaxClients)
    (x : ℤ × SockaddrIn) : SweptTo (h.setSlot i x) i := by
  rw [SweptTo, setSlot_slots h hi, List.take_set_of_le le_rfl]
  exact hsw

theorem SweptTo.succ {h : Commh} {i : ℕ} (hsw : SweptTo h i) (hi : i < h.clientCount)
    (hdead : live (h.slot i) = false) : SweptTo h (i + 1) := by
  have hi' : i < h.slots.length := by rw [slots_length]; exact hi
  rw [SweptTo, List.take_succ_eq_append_getElem hi', slots_getElem]
  intro x hx
  rcases List.mem_append.mp hx with hx | hx
  · exact hsw x hx
  · rw [List.mem_singleton.mp hx]
    exact hdead

theorem threadsInv_inLoop {h : Commh} {held : List ℕ} {stage : Stage} (hst : stage.inLoop = true) :
    ThreadsInv h held stage ↔ held = h.threads := by
  cases stage <;> first | exact Iff.rfl | cases hst

/-- A statement of the loop that closes nothing. -/
theorem LifeInv.inLoop {s : Life} (inv : LifeInv s) (hst : s.stage.inLoop = true)
    (hinside : s.inside = none) (h' : Commh) (hf : SameFrame s.acc.h h')
    (ht : SameThreads s.acc.h h') (stage : Stage) (hst' : stage.inLoop = true)
    (hopen : openFds h' stage = openFds s.acc.h s.stage) (hsw : Swept h' stage) :
    LifeInv { s with acc := { s.acc with h := h' }, stage } := by
  have hthreads := (threadsInv_inLoop hst).mp inv.threads
  refine ⟨?_, inv.positive, ?_, hsw, inv.fdsStray, ?_, inv.threadsStray,
    fun h => absurd hinside h, fun hc => ?_⟩
  · exact inv.kind.imp (fun hs => hs.of_sameFrame hf) fun hk => ⟨hf.server.trans hk.1, hk.2⟩
  · rw [hopen]
    exact inv.fds
  · refine (threadsInv_inLoop hst').mpr (hthreads.trans ?_)
    rw [Commh.threads, Commh.threads, ht.listener, ht.accepter, hf.server]
  · cases hc
    cases hst'

theorem LifeInv.closing {s : Life} (inv : LifeInv s) {i : ℕ} (hstage : s.stage = .closing i)
    (hinside : s.inside = none) :
    LifeInv { s with stage := if i < s.acc.h.clientCount then .round .test i else .leaving } := by
  have hsw := inv.swept
  rw [hstage] at hsw
  split
  · rename_i hi
    exact inv.inLoop (by rw [hstage]; rfl) hinside s.acc.h ⟨rfl, rfl, rfl⟩ ⟨rfl, rfl, rfl, rfl⟩
      (.round .test i) rfl (by rw [hstage]; rfl) ⟨hi, hsw.2, trivial⟩
  · rename_i hi
    have hall : ∀ x ∈ s.acc.h.slots, live x = false := by
      have hlen : s.acc.h.slots.length ≤ i := by rw [slots_length]; omega
      have hdead := hsw.2
      rwa [SweptTo, List.take_of_length_le hlen] at hdead
    have hfds := inv.fds
    have hthreads := inv.threads
    rw [hstage] at hfds hthreads
    rw [openFds, liveFds_of_dead hall] at hfds
    exact ⟨inv.kind, inv.positive, hfds, hall, inv.fdsStray, hthreads, inv.threadsStray,
      fun _ => rfl, nofun⟩

/-- `close`, which is called on the descriptor that slot `i` still holds. -/
theorem LifeInv.release {s : Life} (inv : LifeInv s) {i : ℕ} (hstage : s.stage = .round .close i)
    (hinside : s.inside = none) :
    LifeInv { s with
      books := s.books.record [.close (s.acc.h.slot i).1], stage := .round .store i } := by
  have hfds := inv.fds
  have hsw := inv.swept
  have hthreads := inv.threads
  rw [hstage] at hfds hsw hthreads
  obtain ⟨hi, hto, hlive⟩ := hsw
  have hi' : i < s.acc.h.slots.length := by rw [slots_length]; exact hi
  have hperm := liveFds_set (x := (-1, .zero)) hi' (by rw [slots_getElem]; exact hlive) rfl
  rw [slots_getElem] at hperm
  obtain ⟨hheld, hstray⟩ :=
    Ledger.release_of_perm (hfds.trans (hperm.append_right s.acc.phase.fds))
  exact ⟨inv.kind, inv.positive, hheld, ⟨hi, hto, hlive⟩, hstray.trans inv.fdsStray, hthreads,
    inv.threadsStray, fun h => absurd hinside h, nofun⟩

/-- The store of -1, which makes the table agree with what is open again. -/
theorem LifeInv.store {s : Life} (inv : LifeInv s) {i : ℕ} (hstage : s.stage = .round .store i)
    (hinside : s.inside = none) (hbound : i < commsMaxClients) (addr : SockaddrIn) :
    LifeInv { s with
      acc := { s.acc with h := s.acc.h.setSlot i (-1, addr) }, stage := .round .clear i } := by
  have hsw := inv.swept
  rw [hstage] at hsw
  obtain ⟨hi, hto, -⟩ := hsw
  have hi' : i < s.acc.h.slots.length := by rw [slots_length]; exact hi
  refine inv.inLoop (by rw [hstage]; rfl) hinside (s.acc.h.setSlot i (-1, addr)) ⟨rfl, rfl, rfl⟩
    ⟨rfl, rfl, rfl, rfl⟩ (.round .clear i) rfl ?_ ⟨hi, hto.setSlot hbound _, ?_⟩
  · rw [hstage]
    change liveFds (s.acc.h.setSlot i (-1, addr)).slots = liveFds (s.acc.h.slots.set i (-1, .zero))
    rw [setSlot_slots _ hbound, liveFds_set_dead hi' rfl, liveFds_set_dead hi' rfl]
  · rw [slot_setSlot _ _ _ _ hbound, if_pos rfl]
    rfl

theorem LifeInv.clear {s : Life} (inv : LifeInv s) {i : ℕ} (hstage : s.stage = .round .clear i)
    (hinside : s.inside = none) (hbound : i < commsMaxClients) :
    LifeInv { s with
      acc := { s.acc with h := s.acc.h.setSlot i ((s.acc.h.slot i).1, .zero) }
      stage := .closing (i + 1) } := by
  have hsw := inv.swept
  rw [hstage] at hsw
  obtain ⟨hi, hto, hfinds⟩ := hsw
  have hi' : i < s.acc.h.slots.length := by rw [slots_length]; exact hi
  have hdead : live ((s.acc.h.slot i).1, SockaddrIn.zero) = false := hfinds
  refine inv.inLoop (by rw [hstage]; rfl) hinside
    (s.acc.h.setSlot i ((s.acc.h.slot i).1, .zero)) ⟨rfl, rfl, rfl⟩ ⟨rfl, rfl, rfl, rfl⟩
    (.closing (i + 1)) rfl ?_ ⟨hi, (hto.setSlot hbound _).succ hi ?_⟩
  · have hself : s.acc.h.slots.set i (s.acc.h.slot i) = s.acc.h.slots := by
      rw [← slots_getElem _ i hi', List.set_getElem_self]
    have hopen := liveFds_set_dead hi' hfinds
    rw [hself, ← liveFds_set_dead hi' hdead, ← setSlot_slots _ hbound] at hopen
    rw [hstage]
    exact hopen.symm
  · rw [slot_setSlot _ _ _ _ hbound, if_pos rfl]
    exact hdead

theorem LifeInv.round {s : Life} (inv : LifeInv s) {statement : Statement} {i : ℕ}
    (hstage : s.stage = .round statement i) (hinside : s.inside = none)
    (hbound : i < commsMaxClients) {h' : Commh} {calls : List OsCall} {stage : Stage}
    (hr : roundNext s.acc.h i (s.acc.h.slot i).1 (s.acc.h.slot i).2 statement
      = (h', calls, stage)) :
    LifeInv { s with acc := { s.acc with h := h' }, books := s.books.record calls, stage } := by
  have hsw := inv.swept
  rw [hstage] at hsw
  obtain ⟨hi, hto, hfinds⟩ := hsw
  -- a statement that leaves the table
  have hnext := inv.inLoop (by rw [hstage]; rfl) hinside s.acc.h ⟨rfl, rfl, rfl⟩
    ⟨rfl, rfl, rfl, rfl⟩
  cases statement with
  | test =>
    cases hr
    split
    · rename_i hl
      exact hnext (.round .shutdown i) rfl (by rw [hstage]; rfl) ⟨hi, hto, hl⟩
    · rename_i hl
      have hdead : live (s.acc.h.slot i) = false := by
        rw [← Bool.not_eq_true, live_iff]
        exact hl
      exact hnext (.closing (i + 1)) rfl (by rw [hstage]; rfl) ⟨hi, hto.succ hi hdead⟩
  | shutdown =>
    cases hr
    exact hnext (.round .close i) rfl (by rw [hstage]; rfl) ⟨hi, hto, hfinds⟩
  | close =>
    cases hr
    exact inv.release hstage hinside
  | store =>
    cases hr
    exact inv.store hstage hinside hbound _
  | clear =>
    cases hr
    exact inv.clear hstage hinside hbound

theorem LifeInv.leave {s : Life} (inv : LifeInv s) (hstage : s.stage = .leaving) :
    LifeInv { s with
      acc := { s.acc with h := { s.acc.h with running := false } }, stage := .joinListener } := by
  have hfds := inv.fds
  have hsw := inv.swept
  have hthreads := inv.threads
  rw [hstage] at hfds hsw hthreads
  refine ⟨?_, inv.positive, hfds, hsw, inv.fdsStray, hthreads, inv.threadsStray, fun _ => rfl, nofun⟩
  exact inv.kind.imp (fun hs => hs.of_sameFrame ⟨rfl, rfl, rfl⟩) id

theorem LifeInv.closeNext {s : Life} (inv : LifeInv s) (hheeds : Heeds s .closeNext) {h' : Commh}
    {calls : List OsCall} {stage : Stage}
    (hc : Comms.closeNext s.acc.h s.stage = some (h', calls, stage)) :
    LifeInv { s with acc := { s.acc with h := h' }, books := s.books.record calls, stage } := by
  cases hstage : s.stage with
  | closing i =>
    rw [hstage] at hc
    cases hc
    exact inv.closing hstage (hheeds (by rw [hstage]; rfl))
  | round statement i =>
    rw [hstage, Comms.closeNext] at hc
    have hbound : i < commsMaxClients := by
      by_contra hge
      rw [slot?_eq_none _ (Nat.le_of_not_lt hge)] at hc
      cases hc
    rw [slot?_eq _ hbound] at hc
    exact inv.round hstage (hheeds (by rw [hstage]; rfl)) hbound (Option.some.inj hc)
  | leaving =>
    rw [hstage] at hc
    cases hc
    exact inv.leave hstage
  | _ =>
    rw [hstage] at hc
    cases hc

/-! ## The joins -/

theorem LifeInv.joinListener {s : Life} (inv : LifeInv s) (hstage : s.stage = .joinListener) :
    LifeInv { s with
      books := s.books.record [.join s.acc.h.listener]
      stage := if s.acc.h.listener ∉ s.books.threads.held then .undefined
        else if s.acc.h.server then .joinAccepter else .closed } := by
  have hfds := inv.fds
  have hthreads := inv.threads
  have hsw := inv.swept
  rw [hstage] at hfds hthreads hsw
  rcases inv.kind with hs | ⟨hs, hended⟩
  · have hheld : s.books.threads.held = [s.acc.h.listener, s.acc.h.accepter] :=
      hthreads.trans (if_pos hs.server)
    have hrel := Ledger.release_head hheld
    rw [if_neg (by simp [hheld]), if_pos hs.server]
    exact ⟨inv.kind, inv.positive, hfds, hsw, inv.fdsStray, congrArg Ledger.held hrel,
      (congrArg Ledger.stray hrel).trans inv.threadsStray, fun _ => rfl, nofun⟩
  · have hheld : s.books.threads.held = [s.acc.h.listener] :=
      hthreads.trans (if_neg (by simp [hs]))
    have hrel := Ledger.release_head hheld
    rw [if_neg (by simp [hheld]), if_neg (by simp [hs])]
    exact ⟨inv.kind, inv.positive, hfds, hsw, inv.fdsStray, congrArg Ledger.held hrel,
      (congrArg Ledger.stray hrel).trans inv.threadsStray, fun _ => rfl, fun _ => hended⟩

theorem LifeInv.joinAccepter {s : Life} (inv : LifeInv s) (hstage : s.stage = .joinAccepter)
    (hended : s.acc.h.accepter ∈ s.books.threads.held → s.acc.phase = .ended) :
    LifeInv { s with
      books := s.books.record [.join s.acc.h.accepter]
      stage := if s.acc.h.accepter ∉ s.books.threads.held then .undefined else .closed } := by
  have hfds := inv.fds
  have hthreads := inv.threads
  have hsw := inv.swept
  rw [hstage] at hfds hthreads hsw
  have hheld : s.books.threads.held = [s.acc.h.accepter] := hthreads
  have hmem : s.acc.h.accepter ∈ s.books.threads.held := by simp [hheld]
  have hrel := Ledger.release_head hheld
  rw [if_neg (not_not.mpr hmem)]
  exact ⟨inv.kind, inv.positive, hfds, hsw, inv.fdsStray, congrArg Ledger.held hrel,
    (congrArg Ledger.stray hrel).trans inv.threadsStray, fun _ => rfl, fun _ => hended hmem⟩

/-- **Step lemma.**  A step that heeds keeps the invariant. -/
theorem lifeStep_inv {s t : Life} (inv : LifeInv s) {e : LifeEvent} {calls : List OsCall}
    (hheeds : Heeds s e) (hstep : lifeStep s e = some (t, calls)) : LifeInv t := by
  cases e with
  | acc e =>
    rw [lifeStep] at hstep
    split at hstep
    · cases hstep
    · rename_i hwaits
      split at hstep
      · cases hstep
      · rename_i hacc
        cases hstep
        have inv' := inv.acc (Bool.eq_false_iff.mpr hwaits) hacc hheeds
        cases e with
        | disconnect cid => exact inv'.unlock
        | _ => exact inv'
  | lock cid =>
    rw [lifeStep] at hstep
    split at hstep
    · cases hstep
      exact { inv with apart := fun _ => hheeds }
    · cases hstep
  | connect ip port ret =>
    rw [lifeStep] at hstep
    split at hstep
    · rename_i hstage
      split at hstep
      · cases hstep
      · rename_i hc
        cases hstep
        exact inv.connect hstage hc
    · cases hstep
  | close =>
    rw [lifeStep] at hstep
    split at hstep
    · rename_i hstage
      cases hstep
      exact inv.close hstage hheeds
    · cases hstep
  | closeNext =>
    rw [lifeStep] at hstep
    split at hstep
    · cases hstep
    · rename_i hc
      cases hstep
      exact inv.closeNext hheeds hc
  | joinListener =>
    simp only [lifeStep] at hstep
    split at hstep
    · cases hstep
    · rename_i hguard
      cases hstep
      exact inv.joinListener (not_not.mp hguard)
  | joinAccepter =>
    simp only [lifeStep] at hstep
    split at hstep
    · cases hstep
    · rename_i hguard
      rw [not_or, not_not, not_and_not_right] at hguard
      cases hstep
      exact inv.joinAccepter hguard.1 hguard.2

/-! ## After `Init` -/

/-- What a successful `Init` leaves: a socket in slot 0 and, with a callback, the
threads. -/
structure Started (h : Commh) (calls : List OsCall) : Prop where
  kind : (IsServer h ∧ h.clients = []) ∨ h.server = false
  calls : calls = .socket (h.slot 0).1 :: if h.recvcb then h.threads.map OsCall.create else []

theorem startListener_true {g h : Commh} {env : InitEnv} {f : String} {line : ℕ}
    {cs calls : List OsCall} (hs : g.server = false) (hr : g.running = g.recvcb)
    (hst : startListener g env f line cs = (h, calls, true)) :
    h.server = false ∧ h.clientsSocks = g.clientsSocks ∧
      calls = cs ++ if h.recvcb then h.threads.map OsCall.create else [] := by
  cases startListener_cases hst with
  | off hrun => exact ⟨hs, rfl, by simp [← hr, hrun]⟩
  | thread hrun => exact ⟨hs, rfl, by simp [Commh.threads, hs, ← hr, hrun]⟩

theorem startServer_true {g h : Commh} {env : InitEnv} {cs calls : List OsCall}
    (hs : g.server = true) (hr : g.running = g.recvcb)
    (hst : startServer g env cs = (h, calls, true)) :
    calls = cs ++ if h.recvcb then h.threads.map OsCall.create else [] := by
  cases startServer_cases hst with
  | off hrun => simp [← hr, hrun]
  | threads hrun hlistener haccepter => simp [Commh.threads, hs, ← hr, hrun]

theorem commsInit_started {kind : Kind} {h₀ h : Commh} {opt : CommsOpt} {env : InitEnv}
    {calls : List OsCall} (hinit : commsInit kind h₀ opt env = some (h, calls, true)) :
    Started h calls := by
  cases kind with
  | udp =>
    cases commsUdpInitOpt_cases (Option.some.inj hinit) with
    | starts hsocket hstart =>
      obtain ⟨hs, hsocks, hcalls⟩ := startListener_true rfl rfl hstart
      have hslot := slot_zero_of_socks hsocks
      exact ⟨Or.inr hs, by rw [hslot]; exact hcalls⟩
  | tcpClient =>
    cases commsTcpclientInitOpt_cases hinit with
    | closes hsocket herr hclose => exact absurd hclose closeAndFail_ne_true
    | starts hsocket hstart =>
      obtain ⟨hs, hsocks, hcalls⟩ := startListener_true rfl rfl hstart
      have hslot := slot_zero_of_socks hsocks
      exact ⟨Or.inr hs, by rw [hslot]; exact hcalls⟩
  | tcpServer =>
    obtain ⟨hs, hcount, hslot⟩ := commsTcpserverInitOpt_spec hinit
    refine ⟨Or.inl ⟨hs, ?_⟩, ?_⟩
    · rw [← List.length_eq_zero_iff, clients_length, hcount]
    · cases commsTcpserverInitOpt_cases hinit with
      | closes hsocket hfails hclose => exact absurd hclose closeAndFail_ne_true
      | starts hipv4 hsocket hbind hlisten hstart =>
        rw [hslot]
        exact startServer_true rfl rfl hstart

theorem Started.books {h : Commh} {calls : List OsCall} (hst : Started h calls) :
    Books.empty.record calls =
      ⟨⟨[(h.slot 0).1], []⟩, ⟨if h.recvcb then h.threads else [], []⟩⟩ := by
  rw [hst.calls, Commh.threads]
  cases h.recvcb <;> cases h.server <;> rfl

theorem Started.inv {h : Commh} {calls : List OsCall} (hst : Started h calls) :
    LifeInv (Life.start h calls) := by
  have hphase : (Life.start h calls).acc.phase.fds = [] := by
    change (if h.server && h.running then AccPhase.top else .ended).fds = []
    split <;> rfl
  have hbooks : (Life.start h calls).books = _ := hst.books
  refine ⟨?_, by simp [hphase], ?_, trivial, by rw [hbooks], ?_, by rw [hbooks], fun _ => rfl,
    fun hd => ?_⟩
  · rcases hst.kind with ⟨hs, -⟩ | hs
    · exact Or.inl hs
    · exact Or.inr ⟨hs, by simp [Life.start, hs]⟩
  · rw [hbooks, hphase]
    rcases hst.kind with ⟨hs, hclients⟩ | hs
    · simp [Life.start, openFds, hclients, liveFds]
    · simp [Life.start, openFds, hs]
  · rw [hbooks]
    intro hcb
    exact if_pos hcb
  · cases hd

/-! ## A failed `Init` -/

theorem closeSlots_threadOps {h h' : Commh} {i k : ℕ} {calls : List OsCall}
    (hc : closeSlots h i k = some (h', calls)) : calls.filterMap threadOp = [] := by
  induction k generalizing h i calls with
  | zero =>
    cases hc
    rfl
  | succ k ih =>
    rw [closeSlots] at hc
    split at hc
    · cases hc
    · split at hc
      · split at hc
        · cases hc
        · rename_i hrest
          cases hc
          have hops := ih hrest
          exact hops
      · exact ih hc

/-- `CommsClose` joins the listener, whether there is one or not. -/
theorem commsClose_threadOps {h h' : Commh} {rcListener rcAccepter : ℤ} {calls : List OsCall}
    {r : Bool} (hc : commsClose h rcListener rcAccepter = some (h', calls, r)) :
    ∃ thread ops, calls.filterMap threadOp = .release thread :: ops := by
  unfold commsClose at hc
  split at hc
  · cases hc
  · rename_i g cs hslots
    have hops := closeSlots_threadOps hslots
    dsimp only at hc
    split at hc
    · cases hc
      exact ⟨g.listener, _, by rw [List.filterMap_append, hops]; rfl⟩
    · split at hc
      · split at hc
        · cases hc
          exact ⟨g.listener, _, by rw [List.filterMap_append, List.filterMap_append, hops]; rfl⟩
        · cases hc
          exact ⟨g.listener, _, by rw [List.filterMap_append, List.filterMap_append, hops]; rfl⟩
      · cases hc
        exact ⟨g.listener, _, by rw [List.filterMap_append, hops]; rfl⟩

/-- An error path through `CommsClose` joins a thread that was never created. -/
theorem closeAndFail_not_settled {g h : Commh} {env : InitEnv} {fd : ℤ} {calls : List OsCall}
    {r : Bool} (hf : closeAndFail g env [.socket fd] = some (h, calls, r)) :
    ¬ (Books.empty.record calls).Settled := by
  unfold closeAndFail at hf
  split at hf
  · cases hf
  · rename_i hclose
    cases hf
    obtain ⟨thread, ops, hops⟩ := commsClose_threadOps hclose
    rintro ⟨-, -, hstray⟩
    refine Ledger.stray_ne_nil (l := Ledger.empty.post (.release thread)) ops ?_ ?_
    · simp [Ledger.empty, Ledger.post]
    · rw [← Ledger.postAll_cons, ← hops]
      exact hstray

/-- A call list that opens its first descriptor and closes none. -/
theorem not_settled_of_socket {fd : ℤ} {calls : List OsCall}
    (h : calls.filterMap fdOp = []) :
    ¬ (Books.empty.record (.socket fd :: calls)).Settled := by
  rintro ⟨⟨hheld, -⟩, -⟩
  have hbooks : (Books.empty.record (.socket fd :: calls)).fds = ⟨[fd], []⟩ := by
    have hops : (OsCall.socket fd :: calls).filterMap fdOp = .acquire fd :: [] := by
      rw [← h]
      rfl
    rw [Books.record, hops]
    rfl
  rw [hbooks] at hheld
  cases hheld

theorem startListener_false {g h : Commh} {env : InitEnv} {f : String} {line : ℕ}
    {cs calls : List OsCall} (hst : startListener g env f line cs = (h, calls, false)) :
    calls = cs := by
  cases startListener_cases hst with
  | noListener hrun => rfl

theorem startServer_false {g h : Commh} {env : InitEnv} {cs calls : List OsCall}
    (hst : startServer g env cs = (h, calls, false)) :
    ∃ created, calls = cs ++ created ∧ created.filterMap fdOp = [] := by
  cases startServer_cases hst with
  | noListener hrun hlistener => exact ⟨[], by simp, rfl⟩
  | noAccepter hrun hlistener haccepter => exact ⟨[.create env.listenerTid], rfl, rfl⟩

/-- An `Init` that fails after it got its socket does not give it back. -/
theorem commsInit_false {kind : Kind} {h₀ h : Commh} {opt : CommsOpt} {env : InitEnv}
    {calls : List OsCall} (hinit : commsInit kind h₀ opt env = some (h, calls, false)) :
    (Books.empty.record calls).Settled ↔ env.socket < 0 := by
  have hnone : (Books.empty.record []).Settled := ⟨⟨rfl, rfl⟩, ⟨rfl, rfl⟩⟩
  cases kind with
  | udp =>
    cases commsUdpInitOpt_cases (Option.some.inj hinit) with
    | noSocket hsocket herr => exact iff_of_true hnone hsocket
    | noBind hsocket herr => exact iff_of_false (not_settled_of_socket rfl) (not_lt.mpr hsocket)
    | starts hsocket hstart =>
      rw [startListener_false hstart]
      exact iff_of_false (not_settled_of_socket rfl) (not_lt.mpr hsocket)
  | tcpClient =>
    cases commsTcpclientInitOpt_cases hinit with
    | noSocket hsocket herr => exact iff_of_true hnone hsocket
    | closes hsocket herr hclose =>
      exact iff_of_false (closeAndFail_not_settled hclose) (not_lt.mpr hsocket)
    | starts hsocket hstart =>
      rw [startListener_false hstart]
      exact iff_of_false (not_settled_of_socket rfl) (not_lt.mpr hsocket)
  | tcpServer =>
    cases commsTcpserverInitOpt_cases hinit with
    | noSocket hsocket herr => exact iff_of_true hnone hsocket
    | closes hsocket hfails hclose =>
      exact iff_of_false (closeAndFail_not_settled hclose) (not_lt.mpr hsocket)
    | starts hipv4 hsocket hbind hlisten hstart =>
      obtain ⟨created, hcalls, hops⟩ := startServer_false hstart
      rw [hcalls]
      exact iff_of_false (not_settled_of_socket hops) (not_lt.mpr hsocket)

/-! ## Runs -/

/-- **The books of a handle.**  A failed `Init` leaves them settled exactly if it
got no socket; after a successful one, every run of careful steps up to the end of
`CommsClose` does. -/
theorem lifecycle_settled {kind : Kind} {h₀ h : Commh} {opt : CommsOpt} {env : InitEnv}
    {calls : List OsCall} {r : Bool} (hinit : commsInit kind h₀ opt env = some (h, calls, r)) :
    (r = false → ((Books.empty.record calls).Settled ↔ env.socket < 0)) ∧
    (r = true → ∀ es s made, Machine.exec lifeStep (Life.start h calls) es = some (s, made) →
      Careful (Life.start h calls) es → s.stage = .closed → s.books.Settled) := by
  constructor
  · rintro rfl
    exact commsInit_false hinit
  · rintro rfl es s made hexec hcareful hdone
    have inv : LifeInv s := Machine.exec_invariant
      (fun _ _ _ _ inv hheeds hstep => lifeStep_inv inv hheeds hstep) (commsInit_started hinit).inv
      hcareful hexec
    exact inv.settled hdone

/-- A client comes and is disconnected, and the server is closed. -/
theorem lifecycle_settled_server :
    ∃ s made, Machine.exec lifeStep (Life.start newServer [.socket 3, .create 1, .create 2])
        [.acc .test, .acc (.answer (.conn 4 .zero)), .acc .enter, .lock 1, .close,
          .acc (.disconnect 1), .closeNext, .closeNext, .closeNext, .closeNext, .closeNext,
          .closeNext, .closeNext, .closeNext, .acc .test, .joinListener, .joinAccepter] =
          some (s, made) ∧ s.books.Settled := by
  have hsome : (Machine.exec lifeStep (Life.start newServer [.socket 3, .create 1, .create 2])
      [.acc .test, .acc (.answer (.conn 4 .zero)), .acc .enter, .lock 1, .close,
        .acc (.disconnect 1), .closeNext, .closeNext, .closeNext, .closeNext, .closeNext,
        .closeNext, .closeNext, .closeNext, .acc .test, .joinListener, .joinAccepter]).map
          (fun r => r.1.stage) = some .closed := by decide +kernel
  obtain ⟨⟨s, made⟩, hexec, hclosed⟩ := Option.map_eq_some_iff.mp hsome
  exact ⟨s, made, hexec, (@lifecycle_settled .tcpServer _ _ _ _ _ _ newServer_init).2 rfl _ _ _
    hexec (by decide +kernel) hclosed⟩

/-- A UDP handle that never connects keeps its socket open. -/
theorem udp_close_leaks :
    ∃ h calls s made, commsInit .udp .zero defaultOpt okEnv = some (h, calls, true) ∧
      Machine.exec lifeStep (Life.start h calls) [.close, .closeNext, .joinListener] =
        some (s, made) ∧
      s.stage = .closed ∧ s.books.fds.held = [3] ∧ ¬ s.books.Settled := by
  refine ⟨_, _, _, _, rfl, rfl, rfl, rfl, fun hs => ?_⟩
  exact absurd hs.1.1 (List.cons_ne_nil _ _)

end DataCommons.Comms
