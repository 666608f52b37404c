import DataCommons.Lib.ArrivalList
import DataCommons.Comms.Server

/-!
# The listener beside the other threads

`SysStep` interleaves the listener's steps with accepter iterations and
`CommsDisconnect` calls of the user.  The listener reads slot `i` under the lock,
lets go of it for the `recv`, and disconnects by the number `i` later.

The log keeps who was removed and why; `stale` remembers that the user has removed
a client from a slot up to `i` since the listener read slot `i`.

* `listener_safe`: in runs where the listener never disconnects by a stale number,
  every client that it removes had reported the end of its stream or an error;
* `healthy_client_removed`: with a stale number it removes a healthy client.
-/

namespace DataCommons.Comms

open Commh

/-! ## The system -/

/-- The answer of `recv` ends the connection: no bytes, or an error that does not pass. -/
def RecvResult.isEnd : RecvResult → Bool
  | .data msg => msg.isEmpty
  | .fail errno => errno ≠ .EAGAIN ∧ errno ≠ .EWOULDBLOCK ∧ errno ≠ .EINTR

def Server.client (s : Server) (k : ℕ) : Option Conn :=
  if 1 ≤ k ∧ k < s.h.clientCount then s.os.conns.find? (·.fd = (s.h.slot k).1) else none

/-- The connections that a step took away. -/
def gone (os os' : Os) : List Conn := os.conns.filter (· ∉ os'.conns)

/-- What the system has done: delivered bytes, or removed clients because the user
named one or because the descriptor of one reported its end. -/
inductive Event where
  | recvcb (d : Delivery)
  | user (named : Option Conn) (removed : List Conn)
  | listener (reported : Option Conn) (removed : List Conn)

/-- Only the client that was named or that reported is removed. -/
def Event.Safe : Event → Prop
  | .recvcb _ => True
  | .user named removed => ∀ c ∈ removed, named = some c
  | .listener reported removed => ∀ c ∈ removed, reported = some c

/-- The server, the listener's position, the connection whose descriptor the last
`recv` was made on, and whether slot numbers have moved under the listener. -/
structure System where
  server : Server
  phase : Phase
  reported : Option Conn
  stale : Bool
  log : List Event

def System.init (h : Commh) (sock : ℤ) : System := ⟨Server.init h sock, .top, none, false, []⟩

/-- The slot number that the listener carries from one locked section to the next. -/
def Phase.held : Phase → Option ℕ
  | .holding i _ _ _ => some i
  | .closing i _ => some i
  | _ => none

/-- A removal from slot `cid` moves or frees the slot that the listener has read. -/
def Phase.outdatedBy (p : Phase) (cid : ℕ) : Bool := p.held.any (cid ≤ ·)

/-- A step of the accepter, the user or the listener. -/
inductive SysStep : System → System → Prop
  | accept {y : System} (cs : ℤ) (cli : SockaddrIn) (fresh : y.server.os.Fresh cs) :
      SysStep y { y with server := y.server.accept cs cli }
  | user {y : System} {h' : Commh} {calls : List OsCall} {r : Bool} (cid : BitVec 16)
      (hd : commsDisconnect y.server.h cid = some (h', calls, r)) :
      SysStep y { y with
        server := ⟨h', y.server.os.calls calls⟩
        stale := y.stale || (r && y.phase.outdatedBy cid.toNat)
        log := .user (y.server.client cid.toNat) (gone y.server.os (y.server.os.calls calls)) ::
          y.log }
  | count {y : System} (hp : y.phase = .top) (hr : y.server.h.running = true) :
      SysStep y { y with phase := listenerCount y.server.h }
  | read {y : System} {i n : ℕ} {p : Phase} (hp : y.phase = .scan i n)
      (hr : listenerRead y.server.h i n = some p) :
      SysStep y { y with phase := p, stale := false }
  | recv {y : System} {i n : ℕ} {fd : ℤ} {addr : SockaddrIn} (answer : RecvResult)
      (hp : y.phase = .holding i n fd addr) :
      SysStep y { y with
        phase := (listenerRecv y.server.h i n addr answer).1
        reported := y.server.os.conns.find? (·.fd = fd)
        log := ((listenerRecv y.server.h i n addr answer).2.map Event.recvcb).toList ++ y.log }
  | disconnect {y : System} {i n : ℕ} {h' : Commh} {calls : List OsCall} {p : Phase}
      (hp : y.phase = .closing i n)
      (hd : listenerDisconnect y.server.h i n = some (h', calls, p)) :
      SysStep y { y with
        server := ⟨h', y.server.os.calls calls⟩
        phase := p
        log := .listener y.reported (gone y.server.os (y.server.os.calls calls)) :: y.log }

/-- The listener leaves `closing i` only with a slot number that is not outdated,
or that no client has. -/
def Meets (y y' : System) : Prop :=
  ∀ i n, y.phase = .closing i n → y'.phase ≠ y.phase →
    y.stale = false ∨ y.server.h.clientCount ≤ i

/-! ## The invariant -/

/-- Slots from the count up to `n` hold no descriptor. -/
def Unused (h : Commh) (n : ℕ) : Prop :=
  n ≤ commsMaxClients ∧ ∀ j, h.clientCount ≤ j → j < n → (h.slot j).1 ≤ 0

/-- While nothing is stale, the listener's number is that of the client it read. -/
def PhaseInv (y : System) : Prop :=
  match y.phase with
  | .top => True
  | .scan i n => 1 ≤ i ∧ Unused y.server.h n
  | .holding i n fd addr => 1 ≤ i ∧ i < n ∧ Unused y.server.h n ∧
      (y.stale = false → ∃ c, y.server.os.conns[i - 1]? = some c ∧ c.entry = (fd, addr))
  | .closing i n => 1 ≤ i ∧ i < n ∧ Unused y.server.h n ∧
      (y.stale = false → ∃ c, y.server.os.conns[i - 1]? = some c ∧ y.reported = some c)

structure SystemInv (sock : ℤ) (y : System) : Prop where
  table : TableInv sock y.server
  phase : PhaseInv y
  log : ∀ e ∈ y.log, e.Safe

theorem OsInv.find_fd {os : Os} (inv : OsInv os) {c : Conn} (hc : c ∈ os.conns) :
    os.conns.find? (·.fd = c.fd) = some c := ArrivalList.find?_key inv.fds hc

/-- A descriptor is `c`'s exactly if `c` is what the operating system finds behind it. -/
theorem OsInv.own_toNat {os : Os} (inv : OsInv os) {c : Conn} (hc : c ∈ os.conns) (fd : ℤ) :
    (decide (fd = c.fd)).toNat = if os.conns.find? (·.fd = fd) = some c then 1 else 0 := by
  have hfind : os.conns.find? (·.fd = fd) = some c ↔ fd = c.fd := by
    refine ⟨fun hf => ?_, ?_⟩
    · have hfd := List.find?_some hf
      exact (of_decide_eq_true hfd).symm
    · rintro rfl
      exact inv.find_fd hc
  rw [if_congr hfind rfl rfl]
  by_cases hfd : fd = c.fd <;> simp [hfd]

theorem TableInv.client_eq {sock : ℤ} {s : Server} (inv : TableInv sock s) {k : ℕ} (hk : 1 ≤ k)
    (hk' : k < s.h.clientCount) : s.client k = s.os.conns[k - 1]? := by
  obtain ⟨c, hget, hentry⟩ := inv.slot_entry hk hk'
  rw [Server.client, if_pos ⟨hk, hk'⟩, hentry, hget]
  exact inv.os.find_fd (List.mem_of_getElem? hget)

/-! ## What one step of the table keeps -/

theorem Unused.removed {h h' : Commh} {cid n : ℕ} (hn : Unused h n) (hrem : Removed h cid h') :
    Unused h' n := by
  refine ⟨hn.1, fun j hj hjn => ?_⟩
  rw [hrem.clientCount] at hj
  by_cases hlast : j = h.clientCount - 1
  · rw [hlast, hrem.freed]
  · rw [hrem.unused j (by omega)]
    exact hn.2 j (by omega) hjn

/-- The slots behind the clients stay unused. -/
theorem TableInv.unused_tableStep {sock : ℤ} {s t : Server} (inv : TableInv sock s)
    (step : TableStep s t) {n : ℕ} (hn : Unused s.h n) : Unused t.h n := by
  cases step with
  | accept cs cli fresh =>
    rcases commsAccepter_spec inv.isServer cs cli fresh.1 with ⟨-, h', hacc, hent⟩ | ⟨-, hacc⟩
    · rw [Server.accept, hacc]
      refine ⟨hn.1, fun j hj hjn => ?_⟩
      dsimp only at hj
      rw [hent.clientCount] at hj
      dsimp only
      rw [hent.unused j (by omega)]
      exact hn.2 j (by omega) hjn
    · rw [Server.accept, hacc]
      exact hn
  | acceptFail errno =>
    obtain ⟨loop, hacc⟩ := commsAccepter_fail s.h errno
    rw [hacc]
    exact hn
  | disconnect cid hd =>
    rcases commsDisconnect_spec inv.isServer cid with ⟨h', hd', -, -, -, hrem⟩ | ⟨line, hd', -⟩
    · cases hd.symm.trans hd'
      exact hn.removed hrem
    · cases hd.symm.trans hd'
      exact hn

/-- An accepted connection leaves the clients before it in place. -/
theorem TableInv.accept_getElem? {sock : ℤ} {s : Server} (inv : TableInv sock s) {cs : ℤ}
    (cli : SockaddrIn) (fresh : s.os.Fresh cs) {k : ℕ} {c : Conn} (hc : s.os.conns[k]? = some c) :
    (s.accept cs cli).os.conns[k]? = some c := by
  have hlt := (List.getElem?_eq_some_iff.mp hc).1
  rcases commsAccepter_spec inv.isServer cs cli fresh.1 with ⟨-, h', hacc, -⟩ | ⟨-, hacc⟩
  · rw [Server.accept, hacc]
    exact (List.getElem?_append_left hlt).trans hc
  · obtain ⟨hclose, -⟩ := (inv.os.accept cli fresh).close s.os.conns [] rfl
    rw [Server.accept, hacc]
    change ((s.os.accept cs cli).close cs).conns[k]? = _
    rw [hclose, List.append_nil]
    exact hc

/-- What `CommsDisconnect(cid)` takes away, and which clients stay in place. -/
theorem TableInv.disconnect_gone {sock : ℤ} {s : Server} (inv : TableInv sock s)
    {cid : BitVec 16} {h' : Commh} {calls : List OsCall} {r : Bool}
    (hd : commsDisconnect s.h cid = some (h', calls, r)) :
    (∀ c ∈ gone s.os (s.os.calls calls), s.client cid.toNat = some c) ∧
    (∀ k, (r = true → k + 1 < cid.toNat) → (s.os.calls calls).conns[k]? = s.os.conns[k]?) := by
  have hdis := inv.disconnect cid
  split at hdis
  · rename_i hr
    obtain ⟨g, hd', -, -, -, hos⟩ := hdis
    cases hd.symm.trans hd'
    have hconns : (s.os.calls [.shutdown (s.h.slot cid.toNat).1,
        .close (s.h.slot cid.toNat).1]).conns = s.os.conns.eraseIdx (cid.toNat - 1) := hos
    have hcount := inv.count_eq
    have hi : cid.toNat - 1 < s.os.conns.length := by omega
    refine ⟨fun c hc => ?_, fun k hk => ?_⟩
    · rw [gone, hconns] at hc
      obtain ⟨hmem, hnot⟩ := List.mem_filter.mp hc
      rw [inv.client_eq hr.1 hr.2, List.getElem?_eq_getElem hi]
      by_contra hne
      have hkept : c ∈ s.os.conns.eraseIdx (cid.toNat - 1) := by
        refine List.mem_eraseIdx_iff_getElem?.mpr ?_
        obtain ⟨j, hj⟩ := List.mem_iff_getElem?.mp hmem
        refine ⟨j, fun heq => hne ?_, hj⟩
        rw [← List.getElem?_eq_getElem hi, ← heq, hj]
      simp [hkept] at hnot
    · rw [hconns]
      exact List.getElem?_eraseIdx_of_lt (by have := hk rfl; omega)
  · obtain ⟨g, hd', -⟩ := hdis
    cases hd.symm.trans hd'
    refine ⟨fun c hc => ?_, fun k _ => rfl⟩
    obtain ⟨hmem, hnot⟩ := List.mem_filter.mp hc
    simp [hmem] at hnot

/-! ## Where a read and its answer lead -/

/-- What the listener finds in a slot below its count. -/
theorem listenerRead_of_lt (h : Commh) {i n : ℕ} (hin : i < n) (hn : n ≤ commsMaxClients) :
    listenerRead h i n = some (if (h.slot i).1 ≤ 0 then .scan (i + 1) n
      else .holding i n (h.slot i).1 (h.slot i).2) := by
  rw [listenerRead, if_pos hin, slot?_eq h (lt_of_lt_of_le hin hn)]

/-- An answer that ends the connection takes the listener to `CommsDisconnect`. -/
theorem listenerRecv_end (h : Commh) (i n : ℕ) (addr : SockaddrIn) {answer : RecvResult}
    (hend : answer.isEnd = true) : listenerRecv h i n addr answer = (.closing i n, none) := by
  cases answer with
  | data msg =>
    have hnil : msg = [] := List.isEmpty_iff.mp hend
    rw [listenerRecv, if_neg (not_not.mpr hnil)]
  | fail errno =>
    obtain ⟨hagain, hblock, hintr⟩ := of_decide_eq_true hend
    rw [listenerRecv, if_neg (not_or.mpr ⟨hagain, hblock⟩), if_neg hintr]

theorem listenerRecv_next (h : Commh) (i n : ℕ) (addr : SockaddrIn) {answer : RecvResult}
    (hend : ¬ answer.isEnd = true) : ∃ d, listenerRecv h i n addr answer = (.scan (i + 1) n, d) := by
  cases answer with
  | data msg =>
    have hmsg : msg ≠ [] := fun hnil => hend (List.isEmpty_iff.mpr hnil)
    exact ⟨_, by rw [listenerRecv, if_pos hmsg]⟩
  | fail errno =>
    refine ⟨none, ?_⟩
    rw [listenerRecv]
    by_cases hagain : errno = .EAGAIN ∨ errno = .EWOULDBLOCK
    · rw [if_pos hagain]
    · rw [if_neg hagain]
      by_cases hintr : errno = .EINTR
      · rw [if_pos hintr]
      · exact absurd (decide_eq_true ⟨fun h => hagain (Or.inl h), fun h => hagain (Or.inr h), hintr⟩)
          hend

theorem listenerRecv_phase (h : Commh) (i n : ℕ) (addr : SockaddrIn) (answer : RecvResult) :
    (listenerRecv h i n addr answer).1 = .scan (i + 1) n ∨
      (listenerRecv h i n addr answer).1 = .closing i n := by
  by_cases hend : answer.isEnd = true
  · exact Or.inr (congrArg Prod.fst (listenerRecv_end h i n addr hend))
  · obtain ⟨d, hnext⟩ := listenerRecv_next h i n addr hend
    exact Or.inl (congrArg Prod.fst hnext)

/-- The cid that the listener makes of a slot number. -/
theorem Unused.cid_toNat {h : Commh} {i n : ℕ} (hn : Unused h n) (hin : i < n) :
    (BitVec.ofNat 16 i).toNat = i := by
  have hle := hn.1
  simp only [commsMaxClients] at hle
  rw [BitVec.toNat_ofNat, Nat.mod_eq_of_lt (by omega)]

/-- Behind the listener's `CommsDisconnect` comes the next slot, whatever it returned. -/
theorem listenerDisconnect_eq {h h' : Commh} {i n : ℕ} {calls : List OsCall} {p : Phase}
    (hd : listenerDisconnect h i n = some (h', calls, p)) :
    (∃ r, commsDisconnect h (BitVec.ofNat 16 i) = some (h', calls, r)) ∧ p = .scan (i + 1) n := by
  rw [listenerDisconnect] at hd
  split at hd
  · cases hd
  · rename_i r hd'
    cases hd
    exact ⟨⟨r, hd'⟩, rfl⟩

/-! ## Every step keeps the invariant -/

theorem PhaseInv.transfer {y y' : System} (inv : PhaseInv y) (hphase : y'.phase = y.phase)
    (hreported : y'.reported = y.reported)
    (hunused : ∀ n, Unused y.server.h n → Unused y'.server.h n)
    (hkeep : ∀ i, 1 ≤ i → y.phase.held = some i → y'.stale = false → y.stale = false ∧
      ∀ c, y.server.os.conns[i - 1]? = some c → y'.server.os.conns[i - 1]? = some c) :
    PhaseInv y' := by
  unfold PhaseInv at inv ⊢
  rw [hphase]
  cases hp : y.phase with
  | top => trivial
  | scan i n =>
    rw [hp] at inv
    exact ⟨inv.1, hunused n inv.2⟩
  | holding i n fd addr =>
    rw [hp] at inv hkeep
    obtain ⟨hi, hin, hun, hread⟩ := inv
    refine ⟨hi, hin, hunused n hun, fun hs => ?_⟩
    obtain ⟨hs, hkept⟩ := hkeep i hi rfl hs
    obtain ⟨c, hc, hentry⟩ := hread hs
    exact ⟨c, hkept c hc, hentry⟩
  | closing i n =>
    rw [hp] at inv hkeep
    obtain ⟨hi, hin, hun, hread⟩ := inv
    refine ⟨hi, hin, hunused n hun, fun hs => ?_⟩
    obtain ⟨hs, hkept⟩ := hkeep i hi rfl hs
    obtain ⟨c, hc, hrep⟩ := hread hs
    exact ⟨c, hkept c hc, hreported.trans hrep⟩

theorem SystemInv.accept {sock : ℤ} {y : System} (inv : SystemInv sock y) {cs : ℤ}
    (cli : SockaddrIn) (fresh : y.server.os.Fresh cs) :
    SystemInv sock { y with server := y.server.accept cs cli } := by
  have step : TableStep y.server (y.server.accept cs cli) := .accept cs cli fresh
  refine ⟨inv.table.tableStep step, ?_, inv.log⟩
  exact inv.phase.transfer rfl rfl (fun n hn => inv.table.unused_tableStep step hn)
    fun i _ _ hs => ⟨hs, fun c hc => inv.table.accept_getElem? cli fresh hc⟩

theorem SystemInv.user {sock : ℤ} {y : System} (inv : SystemInv sock y) {h' : Commh}
    {calls : List OsCall} {r : Bool} {cid : BitVec 16}
    (hd : commsDisconnect y.server.h cid = some (h', calls, r)) :
    SystemInv sock { y with
      server := ⟨h', y.server.os.calls calls⟩
      stale := y.stale || (r && y.phase.outdatedBy cid.toNat)
      log := .user (y.server.client cid.toNat) (gone y.server.os (y.server.os.calls calls)) ::
        y.log } := by
  have step : TableStep y.server ⟨h', y.server.os.calls calls⟩ := .disconnect cid hd
  obtain ⟨hgone, hkept⟩ := inv.table.disconnect_gone hd
  refine ⟨inv.table.tableStep step, ?_, fun e he => ?_⟩
  · refine inv.phase.transfer rfl rfl (fun n hn => inv.table.unused_tableStep step hn)
      fun i hpos hi hs => ?_
    rw [Bool.or_eq_false_iff, Bool.and_eq_false_iff] at hs
    refine ⟨hs.1, fun c hc => (hkept (i - 1) fun hr => ?_).trans hc⟩
    -- a removal at or below the held slot would have made it stale
    have hout := hs.2.resolve_left (by simp [hr])
    rw [Phase.outdatedBy, hi, Option.any_some, decide_eq_false_iff_not] at hout
    omega
  · rcases List.mem_cons.mp he with rfl | he
    · exact hgone
    · exact inv.log e he

theorem SystemInv.count {sock : ℤ} {y : System} (inv : SystemInv sock y) :
    SystemInv sock { y with phase := listenerCount y.server.h } :=
  ⟨inv.table, ⟨le_rfl, inv.table.isServer.count_le, fun _ hj hjn => absurd hjn (Nat.not_lt.mpr hj)⟩, inv.log⟩

theorem SystemInv.read {sock : ℤ} {y : System} (inv : SystemInv sock y) {i n : ℕ} {p : Phase}
    (hp : y.phase = .scan i n) (hr : listenerRead y.server.h i n = some p) :
    SystemInv sock { y with phase := p, stale := false } := by
  have hphase := inv.phase
  rw [PhaseInv, hp] at hphase
  obtain ⟨hi, hun⟩ := hphase
  refine ⟨inv.table, ?_, inv.log⟩
  by_cases hin : i < n
  · rw [listenerRead_of_lt _ hin hun.1] at hr
    by_cases hfd : (y.server.h.slot i).1 ≤ 0
    · rw [if_pos hfd] at hr
      cases hr
      exact ⟨Nat.le_succ_of_le hi, hun⟩
    · rw [if_neg hfd] at hr
      cases hr
      have hcount : i < y.server.h.clientCount := by
        by_contra hle
        exact hfd (hun.2 i (by omega) hin)
      obtain ⟨c, hc, hentry⟩ := inv.table.slot_entry hi hcount
      exact ⟨hi, hin, hun, fun _ => ⟨c, hc, hentry.symm⟩⟩
  · rw [listenerRead, if_neg hin] at hr
    cases hr
    trivial

theorem SystemInv.recv {sock : ℤ} {y : System} (inv : SystemInv sock y) {i n : ℕ} {fd : ℤ}
    {addr : SockaddrIn} (answer : RecvResult) (hp : y.phase = .holding i n fd addr) :
    SystemInv sock { y with
      phase := (listenerRecv y.server.h i n addr answer).1
      reported := y.server.os.conns.find? (·.fd = fd)
      log := ((listenerRecv y.server.h i n addr answer).2.map Event.recvcb).toList ++ y.log } := by
  have hphase := inv.phase
  rw [PhaseInv, hp] at hphase
  obtain ⟨hi, hin, hun, hread⟩ := hphase
  refine ⟨inv.table, ?_, fun e he => ?_⟩
  · unfold PhaseInv
    dsimp only
    rcases listenerRecv_phase y.server.h i n addr answer with hnext | hnext
    · rw [hnext]
      exact ⟨Nat.le_succ_of_le hi, hun⟩
    · rw [hnext]
      refine ⟨hi, hin, hun, fun hs => ?_⟩
      obtain ⟨c, hc, hentry⟩ := hread hs
      obtain rfl : c.fd = fd := congrArg Prod.fst hentry
      exact ⟨c, hc, inv.table.os.find_fd (List.mem_of_getElem? hc)⟩
  · rcases List.mem_append.mp he with he | he
    · obtain ⟨d, -, rfl⟩ := Option.map_eq_some_iff.mp (Option.mem_toList.mp he)
      trivial
    · exact inv.log e he

/-- The listener's own removal, with a number that is not outdated or not used. -/
theorem SystemInv.disconnect {sock : ℤ} {y : System} (inv : SystemInv sock y) {i n : ℕ}
    {h' : Commh} {calls : List OsCall} {p : Phase} (hp : y.phase = .closing i n)
    (hd : listenerDisconnect y.server.h i n = some (h', calls, p))
    (hm : y.stale = false ∨ y.server.h.clientCount ≤ i) :
    p = .scan (i + 1) n ∧ SystemInv sock { y with
      server := ⟨h', y.server.os.calls calls⟩
      phase := p
      log := .listener y.reported (gone y.server.os (y.server.os.calls calls)) :: y.log } := by
  have hphase := inv.phase
  rw [PhaseInv, hp] at hphase
  obtain ⟨hi, hin, hun, hread⟩ := hphase
  obtain ⟨⟨r, hd'⟩, rfl⟩ := listenerDisconnect_eq hd
  have step : TableStep y.server ⟨h', y.server.os.calls calls⟩ := .disconnect _ hd'
  obtain ⟨hgone, -⟩ := inv.table.disconnect_gone hd'
  refine ⟨rfl, inv.table.tableStep step,
    ⟨Nat.le_succ_of_le hi, inv.table.unused_tableStep step hun⟩, fun e he => ?_⟩
  rcases List.mem_cons.mp he with rfl | he
  · intro c hc
    have hclient := hgone c hc
    rw [hun.cid_toNat hin] at hclient
    by_cases hlt : i < y.server.h.clientCount
    · obtain ⟨d, hd, hrep⟩ := hread (hm.resolve_right (by omega))
      rw [inv.table.client_eq hi hlt, hd] at hclient
      rw [hrep, hclient]
    · rw [Server.client, if_neg (by omega)] at hclient
      cases hclient
  · exact inv.log e he

theorem SystemInv.step {sock : ℤ} {y y' : System} (inv : SystemInv sock y) (step : SysStep y y')
    (hm : Meets y y') : SystemInv sock y' := by
  cases step with
  | accept cs cli fresh => exact inv.accept cli fresh
  | user cid hd => exact inv.user hd
  | count hp hr => exact inv.count
  | read hp hr => exact inv.read hp hr
  | recv answer hp => exact inv.recv answer hp
  | disconnect hp hd =>
    refine (inv.disconnect hp hd (hm _ _ hp ?_)).2
    obtain ⟨-, rfl⟩ := listenerDisconnect_eq hd
    rw [hp]
    exact Phase.noConfusion

/-- **The listener removes only clients that have reported.**  In every run where
it never disconnects by an outdated slot number, every client that the listener
removed had reported itself, and every other one that is gone was named by the
user. -/
theorem listener_safe {h₀ h : Commh} {opt : CommsOpt} {env : InitEnv} {calls : List OsCall}
    (hinit : commsTcpserverInitOpt h₀ opt env = some (h, calls, true)) {y : System}
    (hrun : Relation.ReflTransGen (fun y y' => SysStep y y' ∧ Meets y y')
      (System.init h env.socket) y) : ∀ e ∈ y.log, e.Safe := by
  have inv : SystemInv env.socket (System.init h env.socket) :=
    ⟨table_inv hinit .refl, trivial, by simp [System.init]⟩
  exact (Machine.reachable_invariant (fun _ _ inv step => inv.step step.1 step.2) hrun inv).log

/-! Two clients; the first one ends its stream. -/

theorem meets_of_phase {y y' : System} (hp : ∀ i n, y.phase ≠ .closing i n) : Meets y y' :=
  fun i n hclosing => absurd hclosing (hp i n)

/-- The listener has seen the end of the first client's stream. -/
def firstEnded : System := ⟨twoClients, .closing 1 3, some ⟨0, 4, peerA⟩, false, []⟩

theorem firstEnded_reachable :
    Relation.ReflTransGen (fun y y' => SysStep y y' ∧ Meets y y') (System.init newServer 3)
      firstEnded := by
  have hone : SysStep (System.init newServer 3) ⟨oneClient, .top, none, false, []⟩ :=
    .accept 4 peerA ⟨by decide, by decide, by decide⟩
  have htwo : SysStep ⟨oneClient, .top, none, false, []⟩ ⟨twoClients, .top, none, false, []⟩ :=
    .accept 5 peerB fresh_peerB
  have hcount : SysStep ⟨twoClients, .top, none, false, []⟩
      ⟨twoClients, .scan 1 3, none, false, []⟩ := .count rfl rfl
  have hread : SysStep ⟨twoClients, .scan 1 3, none, false, []⟩
      ⟨twoClients, .holding 1 3 4 peerA, none, false, []⟩ := .read rfl (by decide +kernel)
  have hphase : (⟨twoClients, .holding 1 3 4 peerA, none, false, []⟩ : System).phase =
      .holding 1 3 4 peerA := rfl
  have hrecv : SysStep ⟨twoClients, .holding 1 3 4 peerA, none, false, []⟩ firstEnded :=
    .recv (.data []) hphase
  refine .tail (.tail (.tail (.tail (.tail .refl ⟨hone, ?_⟩) ⟨htwo, ?_⟩) ⟨hcount, ?_⟩)
    ⟨hread, ?_⟩) ⟨hrecv, ?_⟩
  all_goals exact meets_of_phase fun i n => Phase.noConfusion

theorem disconnect_one {s : Server} {n : ℕ} {reported : Option Conn} {stale : Bool}
    {log : List Event} (hd : (commsDisconnect s.h 1).isSome = true) :
    SysStep ⟨s, .closing 1 n, reported, stale, log⟩
      ⟨disconnectFirst s, .scan 2 n, reported, stale,
        .listener reported (gone s.os (disconnectFirst s).os) :: log⟩ := by
  obtain ⟨h', calls, r, hd, heq⟩ := disconnectFirst_eq hd
  have hphase : (⟨s, .closing 1 n, reported, stale, log⟩ : System).phase = .closing 1 n := rfl
  have hone : BitVec.ofNat 16 1 = 1 := rfl
  rw [heq]
  refine .disconnect hphase ?_
  rw [listenerDisconnect, hone, hd]

theorem listener_safe_first :
    Event.Safe (.listener (some ⟨0, 4, peerA⟩) (gone twoClients.os (disconnectFirst twoClients).os)) :=
  listener_safe newServer_init
    (firstEnded_reachable.tail
      ⟨disconnect_one (by decide +kernel), fun _ _ _ _ => Or.inl rfl⟩)
    _ List.mem_cons_self

/-- The user disconnects the first client before the listener does: the listener
then removes the second one. -/
theorem healthy_client_removed :
    ¬ ∀ y : System, Relation.ReflTransGen SysStep (System.init newServer 3) y →
      ∀ e ∈ y.log, e.Safe := by
  intro hsafe
  have hrun : Relation.ReflTransGen SysStep (System.init newServer 3) firstEnded :=
    firstEnded_reachable.lift id fun _ _ step => step.1
  have hfirst : (commsDisconnect twoClients.h 1).isSome = true := by decide +kernel
  have hsecond : (commsDisconnect (disconnectFirst twoClients).h 1).isSome = true := by
    decide +kernel
  have hgone : ⟨1, 5, peerB⟩ ∈ gone (disconnectFirst twoClients).os
      (disconnectFirst (disconnectFirst twoClients)).os := by decide +kernel
  have huser : ∃ stale log, SysStep firstEnded
      ⟨disconnectFirst twoClients, .closing 1 3, some ⟨0, 4, peerA⟩, stale, log⟩ := by
    obtain ⟨h', calls, r, hd, heq⟩ := disconnectFirst_eq hfirst
    rw [heq]
    exact ⟨_, _, .user 1 hd⟩
  obtain ⟨stale, log, huser⟩ := huser
  have hlistener : Event.Safe (.listener (some ⟨0, 4, peerA⟩)
      (gone (disconnectFirst twoClients).os (disconnectFirst (disconnectFirst twoClients)).os)) :=
    hsafe _ ((hrun.tail huser).tail (disconnect_one hsecond)) _ List.mem_cons_self
  have hwrong := hlistener _ hgone
  exact absurd hwrong (by decide)

end DataCommons.Comms
