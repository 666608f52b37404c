import Mathlib.Logic.Function.Basic
import DataCommons.Comms.Accepter
import DataCommons.Comms.Listener

/-!
# From the peers' bytes to the callback

Behind every connection stands a stream: the bytes its peer has sent, how many of them
`recv` has taken, and whether the peer has shut its side.  `NetStep` puts the peers
beside the accepter, the user and the listener (`SysStep`), in any order; what `recv`
answers is now the stream's business.

* `tcp_delivery`: in every run each connection's bytes reach the callback once and in
  order, in pieces of at most 2048 bytes; the address is the peer's unless the descriptor
  was given to another connection between the listener's read of the slot and the `recv`;
  the cid is the client's unless the user removed a client at or below it in between;
* `reused_descriptor`: such a descriptor, and bytes under the address of a client that is
  gone.
-/

namespace DataCommons.Comms

open Commh

def recvSize : ℕ := 2048

/-- What a connection's peer has sent, how much of it was taken, and whether the peer has
shut its side. -/
structure Stream where
  sent : List UInt8
  taken : ℕ
  shut : Bool

namespace Stream

def pending (s : Stream) : List UInt8 := s.sent.drop s.taken

/-- What `recv` can answer for a stream: some of the bytes that wait, the end of a stream
that has nothing more, or any error. -/
def Answers (s : Stream) : RecvResult → Prop
  | .data [] => s.shut = true ∧ s.pending = []
  | .data msg => msg.length ≤ recvSize ∧ msg <+: s.pending
  | .fail _ => True

def take (s : Stream) : RecvResult → Stream
  | .data msg => { s with taken := s.taken + msg.length }
  | .fail _ => s

def send (s : Stream) (bytes : List UInt8) : Stream := { s with sent := s.sent ++ bytes }

end Stream

/-- A call of the callback: the connection whose bytes were taken, the one that the
listener read in the slot, the one behind the cid, and whether slots had moved. -/
structure Receipt where
  conn : Conn
  held : Option Conn
  client : Option Conn
  stale : Bool
  delivery : Delivery

/-- The system, the streams by connection number, the connection that the listener read in
the slot it holds, the calls of the callback, oldest first, and the connections whose end
was seen. -/
structure Net where
  sys : System
  streams : ℕ → Stream
  held : Option Conn
  receipts : List Receipt
  ended : List Conn

namespace Net

def init (h : Commh) (sock : ℤ) : Net := ⟨System.init h sock, fun _ => ⟨[], 0, false⟩, none, [], []⟩

def update (x : Net) (id : ℕ) (s : Stream) : Net :=
  { x with streams := Function.update x.streams id s }

/-- The connection whose bytes `recv` on `fd` takes. -/
def owner (x : Net) (fd : ℤ) : Option Conn := x.sys.server.os.conns.find? (·.fd = fd)

/-- The bytes that the callback got from connection `id`. -/
def delivered (x : Net) (id : ℕ) : List UInt8 :=
  (x.receipts.filter (·.conn.id = id)).flatMap (·.delivery.msg)

def recv (x : Net) (i n : ℕ) (fd : ℤ) (addr : SockaddrIn) (c : Conn) (answer : RecvResult) : Net :=
  let got := listenerRecv x.sys.server.h i n addr answer
  { x with
    sys := { x.sys with
      phase := got.1
      reported := x.owner fd
      log := (got.2.map Event.recvcb).toList ++ x.sys.log }
    streams := Function.update x.streams c.id ((x.streams c.id).take answer)
    receipts := x.receipts ++ got.2.toList.map fun d =>
      ⟨c, x.held, x.sys.server.client d.cid.toNat, x.sys.stale, d⟩
    ended := if answer = .data [] then c :: x.ended else x.ended }

end Net

/-- A step of a peer, or one of the system. -/
inductive NetStep : Net → Net → Prop
  | send {x : Net} (id : ℕ) (bytes : List UInt8) (hopen : (x.streams id).shut = false) :
      NetStep x (x.update id ((x.streams id).send bytes))
  | shut {x : Net} (id : ℕ) : NetStep x (x.update id { x.streams id with shut := true })
  | accept {x : Net} (cs : ℤ) (cli : SockaddrIn) (fresh : x.sys.server.os.Fresh cs) :
      NetStep x { x with sys := { x.sys with server := x.sys.server.accept cs cli } }
  | user {x : Net} {h' : Commh} {calls : List OsCall} {r : Bool} (cid : BitVec 16)
      (hd : commsDisconnect x.sys.server.h cid = some (h', calls, r)) :
      NetStep x { x with sys := { x.sys with
        server := ⟨h', x.sys.server.os.calls calls⟩
        stale := x.sys.stale || (r && x.sys.phase.outdatedBy cid.toNat)
        log := .user (x.sys.server.client cid.toNat)
          (gone x.sys.server.os (x.sys.server.os.calls calls)) :: x.sys.log } }
  | count {x : Net} (hp : x.sys.phase = .top) (hr : x.sys.server.h.running = true) :
      NetStep x { x with sys := { x.sys with phase := listenerCount x.sys.server.h } }
  | read {x : Net} {i n : ℕ} {p : Phase} (hp : x.sys.phase = .scan i n)
      (hr : listenerRead x.sys.server.h i n = some p) :
      NetStep x { x with
        sys := { x.sys with phase := p, stale := false }
        held := x.sys.server.client i }
  | recv {x : Net} {i n : ℕ} {fd : ℤ} {addr : SockaddrIn} {c : Conn} (answer : RecvResult)
      (hp : x.sys.phase = .holding i n fd addr) (hc : x.owner fd = some c)
      (ha : (x.streams c.id).Answers answer) : NetStep x (x.recv i n fd addr c answer)
  | recvClosed {x : Net} {i n : ℕ} {fd : ℤ} {addr : SockaddrIn} (errno : Errno)
      (hp : x.sys.phase = .holding i n fd addr) (hc : x.owner fd = none) :
      -- the descriptor is closed
      NetStep x { x with sys := { x.sys with
        phase := (listenerRecv x.sys.server.h i n addr (.fail errno)).1
        reported := none } }
  | disconnect {x : Net} {i n : ℕ} {h' : Commh} {calls : List OsCall} {p : Phase}
      (hp : x.sys.phase = .closing i n)
      (hd : listenerDisconnect x.sys.server.h i n = some (h', calls, p)) :
      NetStep x { x with sys := { x.sys with
        server := ⟨h', x.sys.server.os.calls calls⟩
        phase := p
        log := .listener x.sys.reported (gone x.sys.server.os (x.sys.server.os.calls calls)) ::
          x.sys.log } }

theorem listenerRecv_fail (h : Commh) (i n : ℕ) (addr : SockaddrIn) (errno : Errno) :
    (listenerRecv h i n addr (.fail errno)).2 = none := by
  rw [listenerRecv]
  split
  · rfl
  · split <;> rfl

/-- A step of the net is one of the system, or leaves it. -/
theorem NetStep.sys {x x' : Net} (step : NetStep x x') :
    SysStep x.sys x'.sys ∨ x'.sys = x.sys := by
  cases step with
  | send | shut => exact .inr rfl
  | accept cs cli fresh => exact .inl (.accept cs cli fresh)
  | user cid hd => exact .inl (.user cid hd)
  | count hp hr => exact .inl (.count hp hr)
  | read hp hr => exact .inl (.read hp hr)
  | recv answer hp => exact .inl (.recv answer hp)
  | recvClosed errno hp hc =>
    have hstep := SysStep.recv (y := x.sys) (.fail errno) hp
    rw [listenerRecv_fail] at hstep
    rw [show x.sys.server.os.conns.find? _ = none from hc] at hstep
    exact .inl hstep
  | disconnect hp hd => exact .inl (.disconnect hp hd)

/-! ## The table and the listener's position -/

/-- Every step keeps the table and what the listener knows, also when it disconnects by
an outdated slot number. -/
theorem SysStep.core {sock : ℤ} {y y' : System} (step : SysStep y y') (ht : TableInv sock y.server)
    (hphase : PhaseInv y) : TableInv sock y'.server ∧ PhaseInv y' := by
  have inv : SystemInv sock { y with log := [] } := ⟨ht, hphase, by simp⟩
  cases step with
  | accept cs cli fresh => exact ⟨(inv.accept cli fresh).table, (inv.accept cli fresh).phase⟩
  | user cid hd => exact ⟨(inv.user hd).table, (inv.user hd).phase⟩
  | count hp hr => exact ⟨inv.count.table, inv.count.phase⟩
  | read hp hr => exact ⟨(inv.read hp hr).table, (inv.read hp hr).phase⟩
  | recv answer hp => exact ⟨(inv.recv answer hp).table, (inv.recv answer hp).phase⟩
  | @disconnect i n _ _ _ hp hd =>
    rw [PhaseInv, hp] at hphase
    obtain ⟨hi, -, hun, -⟩ := hphase
    obtain ⟨⟨r, hd'⟩, rfl⟩ := listenerDisconnect_eq hd
    have step : TableStep y.server _ := .disconnect _ hd'
    exact ⟨ht.tableStep step, Nat.le_succ_of_le hi, ht.unused_tableStep step hun⟩

theorem NetStep.core {sock : ℤ} {x x' : Net} (step : NetStep x x')
    (ht : TableInv sock x.sys.server) (hphase : PhaseInv x.sys) :
    TableInv sock x'.sys.server ∧ PhaseInv x'.sys := by
  rcases step.sys with hstep | heq
  · exact hstep.core ht hphase
  · rw [heq]
    exact ⟨ht, hphase⟩

theorem NetStep.recvcb {x x' : Net} (step : NetStep x x') :
    x'.sys.server.h.recvcb = x.sys.server.h.recvcb := by
  cases step with
  | accept cs cli fresh => exact (commsAccepter_threads _ _).recvcb
  | user cid hd => exact (commsDisconnect_threads hd).recvcb
  | disconnect hp hd =>
    obtain ⟨⟨r, hd'⟩, -⟩ := listenerDisconnect_eq hd
    exact (commsDisconnect_threads hd').recvcb
  | _ => rfl

/-- The connection that the listener has read is the one behind the descriptor and the
address it holds, and behind the slot as long as that has not moved. -/
def HeldInv (x : Net) : Prop :=
  ∀ i n fd addr, x.sys.phase = .holding i n fd addr →
    (∀ c, x.held = some c → c.entry = (fd, addr)) ∧
    (x.sys.stale = false → x.held = x.sys.server.os.conns[i - 1]?)

theorem heldInv_of_phase {x : Net} (h : ∀ i n fd addr, x.sys.phase ≠ .holding i n fd addr) :
    HeldInv x := fun i n fd addr hp => absurd hp (h i n fd addr)

/-- Slot `i` of the table when the listener reads a descriptor there. -/
theorem TableInv.read_client {sock : ℤ} {s : Server} (inv : TableInv sock s) {i n m : ℕ} {fd : ℤ}
    {addr : SockaddrIn} {j : ℕ} (hi : 1 ≤ i) (hun : Unused s.h n)
    (hr : listenerRead s.h i n = some (.holding j m fd addr)) :
    j = i ∧ ∃ c, s.client i = some c ∧ s.os.conns[i - 1]? = some c ∧ c.entry = (fd, addr) := by
  by_cases hin : i < n
  · rw [listenerRead_of_lt _ hin hun.1] at hr
    by_cases hfd : (s.h.slot i).1 ≤ 0
    · rw [if_pos hfd] at hr
      cases hr
    · rw [if_neg hfd] at hr
      cases hr
      have hcount : i < s.h.clientCount := by
        by_contra hle
        exact hfd (hun.2 i (by omega) hin)
      obtain ⟨c, hc, hentry⟩ := inv.slot_entry hi hcount
      exact ⟨rfl, c, (inv.client_eq hi hcount).trans hc, hc, hentry.symm⟩
  · rw [listenerRead, if_neg hin] at hr
    cases hr

theorem HeldInv.step {sock : ℤ} {x x' : Net} (inv : HeldInv x) (ht : TableInv sock x.sys.server)
    (hphase : PhaseInv x.sys) (step : NetStep x x') : HeldInv x' := by
  cases step with
  | send | shut => exact inv
  | accept cs cli fresh =>
    intro i n fd addr hp
    obtain ⟨hentry, hslot⟩ := inv i n fd addr hp
    refine ⟨hentry, fun hs => (hslot hs).trans ?_⟩
    have hphase' := hphase
    rw [PhaseInv, show x.sys.phase = _ from hp] at hphase'
    obtain ⟨c, hc, -⟩ := hphase'.2.2.2 hs
    exact hc.trans (ht.accept_getElem? cli fresh hc).symm
  | @user h' calls r cid hd =>
    intro i n fd addr hp
    obtain ⟨hentry, hslot⟩ := inv i n fd addr hp
    refine ⟨hentry, fun hs => ?_⟩
    rw [Bool.or_eq_false_iff, Bool.and_eq_false_iff] at hs
    rw [hslot hs.1]
    refine ((ht.disconnect_gone hd).2 (i - 1) fun hr => ?_).symm
    -- a removal at or below the held slot would have made it stale
    have hout := hs.2.resolve_left (by simp [hr])
    rw [Phase.outdatedBy, show x.sys.phase = _ from hp, Phase.held, Option.any_some,
      decide_eq_false_iff_not] at hout
    rw [PhaseInv, show x.sys.phase = _ from hp] at hphase
    have := hphase.1
    omega
  | count hp hr => exact heldInv_of_phase fun i n fd addr => Phase.noConfusion
  | @read i n p hp hr =>
    intro j m fd addr hj
    rw [PhaseInv, hp] at hphase
    obtain rfl : p = .holding j m fd addr := hj
    obtain ⟨rfl, c, hclient, hc, hentry⟩ := ht.read_client hphase.1 hphase.2 hr
    refine ⟨fun d hd => ?_, fun _ => hclient.trans hc.symm⟩
    cases hclient.symm.trans hd
    exact hentry
  | @recv i n fd addr c answer hp hc ha =>
    refine heldInv_of_phase fun j m fd' addr' hj => ?_
    rcases listenerRecv_phase x.sys.server.h i n addr answer with h | h
    · exact Phase.noConfusion (h.symm.trans hj)
    · exact Phase.noConfusion (h.symm.trans hj)
  | @recvClosed i n fd addr errno hp hc =>
    refine heldInv_of_phase fun j m fd' addr' hj => ?_
    rcases listenerRecv_phase x.sys.server.h i n addr (.fail errno) with h | h
    · exact Phase.noConfusion (h.symm.trans hj)
    · exact Phase.noConfusion (h.symm.trans hj)
  | disconnect hp hd =>
    refine heldInv_of_phase fun j m fd' addr' hj => ?_
    obtain ⟨-, rfl⟩ := listenerDisconnect_eq hd
    exact Phase.noConfusion hj

/-! ## The streams -/

/-- All bytes that were taken have reached the callback, in order. -/
structure StreamInv (x : Net) (id : ℕ) : Prop where
  delivered : x.delivered id = (x.streams id).sent.take (x.streams id).taken
  taken_le : (x.streams id).taken ≤ (x.streams id).sent.length

/-- The peer has shut its side and everything was taken. -/
def Stream.Done (s : Stream) : Prop := s.shut = true ∧ s.taken = s.sent.length

/-- What a receipt says about whose bytes they were. -/
structure Receipt.Sound (r : Receipt) : Prop where
  length_pos : 0 < r.delivery.msg.length
  length_le : r.delivery.msg.length ≤ recvSize
  addr : r.held = some r.conn → r.delivery.addr = r.conn.peer
  cid : r.stale = false → r.held = some r.conn ∧ r.client = some r.conn

structure NetInv (sock : ℤ) (x : Net) : Prop where
  table : TableInv sock x.sys.server
  phase : PhaseInv x.sys
  held : HeldInv x
  recvcb : x.sys.server.h.recvcb = true
  stream : ∀ id, StreamInv x id
  ended : ∀ c ∈ x.ended, (x.streams c.id).Done
  receipts : ∀ r ∈ x.receipts, r.Sound

theorem Stream.take_append {s : Stream} {msg : List UInt8} (hle : s.taken ≤ s.sent.length)
    (h : msg <+: s.pending) :
    s.sent.take (s.taken + msg.length) = s.sent.take s.taken ++ msg ∧
      s.taken + msg.length ≤ s.sent.length := by
  obtain ⟨rest, hrest⟩ := h
  have hlen := congrArg List.length hrest
  rw [Stream.pending, List.length_append, List.length_drop] at hlen
  refine ⟨?_, by omega⟩
  rw [List.take_add]
  change _ ++ s.pending.take msg.length = _
  rw [← hrest, List.take_left]

theorem Stream.Answers.pending {s : Stream} {msg : List UInt8} (h : s.Answers (.data msg)) :
    msg <+: s.pending ∧ msg.length ≤ recvSize := by
  cases msg with
  | nil => exact ⟨List.nil_prefix, Nat.zero_le _⟩
  | cons b msg => exact ⟨h.2, h.1⟩

/-- Streams that keep what was sent so far, and steps that deliver nothing. -/
theorem StreamInv.of_eq {x x' : Net} {id : ℕ} (inv : StreamInv x id)
    (hr : x'.receipts = x.receipts) (ht : (x'.streams id).taken = (x.streams id).taken)
    (hs : (x.streams id).sent <+: (x'.streams id).sent) : StreamInv x' id := by
  obtain ⟨more, hmore⟩ := hs
  have hle := inv.taken_le
  refine ⟨?_, ?_⟩
  · rw [Net.delivered, hr, ht, ← hmore, List.take_append_of_le_length hle]
    exact inv.delivered
  · rw [ht, ← hmore, List.length_append]
    omega

theorem listenerRecv_data {h : Commh} (hcb : h.recvcb = true) (i n : ℕ) (addr : SockaddrIn)
    (msg : List UInt8) : (listenerRecv h i n addr (.data msg)).2 =
      if msg = [] then none else some ⟨msg, addr, BitVec.ofNat 16 i⟩ := by
  rw [listenerRecv, hcb]
  by_cases hmsg : msg = []
  · rw [if_pos hmsg, if_neg (not_not.mpr hmsg)]
  · rw [if_neg hmsg, if_pos hmsg]
    rfl

theorem mem_receipts_recv {x : Net} {i n : ℕ} {fd : ℤ} {addr : SockaddrIn} {c : Conn}
    (hcb : x.sys.server.h.recvcb = true) {msg : List UInt8} (hmsg : msg ≠ []) :
    ⟨c, x.held, x.sys.server.client (BitVec.ofNat 16 i).toNat, x.sys.stale,
      ⟨msg, addr, BitVec.ofNat 16 i⟩⟩ ∈ (x.recv i n fd addr c (.data msg)).receipts := by
  simp [Net.recv, listenerRecv_data hcb, hmsg]

section Recv

variable {sock : ℤ} {x : Net} {i n : ℕ} {fd : ℤ} {addr : SockaddrIn} {c : Conn}

/-- The callback gets exactly the bytes that `recv` took. -/
theorem StreamInv.recv (inv : ∀ id, StreamInv x id) (hcb : x.sys.server.h.recvcb = true)
    {answer : RecvResult} (ha : (x.streams c.id).Answers answer) (id : ℕ) :
    StreamInv (x.recv i n fd addr c answer) id := by
  cases answer with
  | fail errno =>
    refine (inv id).of_eq ?_ ?_ ?_
    · simp [Net.recv, listenerRecv_fail]
    · by_cases hid : id = c.id
      · subst hid
        simp [Net.recv, Stream.take]
      · simp [Net.recv, hid]
    · by_cases hid : id = c.id
      · subst hid
        simp [Net.recv, Stream.take]
      · simp [Net.recv, hid]
  | data msg =>
    have hrec : (x.recv i n fd addr c (.data msg)).delivered id =
        x.delivered id ++ if c.id = id then msg else [] := by
      simp only [Net.delivered, Net.recv, listenerRecv_data hcb, List.filter_append,
        List.flatMap_append]
      by_cases hmsg : msg = []
      · simp [hmsg]
      · by_cases hid : c.id = id <;> simp [hmsg, hid]
    by_cases hid : id = c.id
    · subst hid
      obtain ⟨htake, hle⟩ := Stream.take_append (inv c.id).taken_le ha.pending.1
      refine ⟨?_, ?_⟩
      · rw [hrec, if_pos rfl, (inv c.id).delivered, ← htake]
        simp [Net.recv, Stream.take]
      · simpa [Net.recv, Stream.take] using hle
    · refine ⟨?_, ?_⟩
      · rw [hrec, if_neg (Ne.symm hid), List.append_nil, (inv id).delivered]
        simp [Net.recv, hid]
      · simpa [Net.recv, hid] using (inv id).taken_le

/-- The end of a stream is seen when nothing is left of it. -/
theorem Stream.Done.recv (hended : ∀ d ∈ x.ended, (x.streams d.id).Done)
    (hle : (x.streams c.id).taken ≤ (x.streams c.id).sent.length) {answer : RecvResult}
    (ha : (x.streams c.id).Answers answer) :
    ∀ d ∈ (x.recv i n fd addr c answer).ended,
      ((x.recv i n fd addr c answer).streams d.id).Done := by
  -- a stream that is done gives nothing more
  have hkeep : ∀ id, (x.streams id).Done → ((x.recv i n fd addr c answer).streams id).Done := by
    intro id hdone
    by_cases hid : id = c.id
    · subst hid
      cases answer with
      | fail errno => simpa [Net.recv, Stream.take] using hdone
      | data msg =>
        have hpre := ha.pending.1
        rw [Stream.pending, hdone.2, List.drop_length, List.prefix_nil] at hpre
        simpa [Net.recv, Stream.take, hpre] using hdone
    · simpa [Net.recv, hid] using hdone
  intro d hd
  by_cases heof : answer = .data []
  · subst heof
    have hd' : d ∈ c :: x.ended := hd
    rcases List.mem_cons.mp hd' with rfl | hd'
    · obtain ⟨hshut, hnone⟩ := ha
      have hlen := congrArg List.length hnone
      rw [Stream.pending, List.length_drop, List.length_nil] at hlen
      have htaken : (x.streams d.id).taken = (x.streams d.id).sent.length := by omega
      simpa [Net.recv, Stream.take, Stream.Done] using And.intro hshut htaken
    · exact hkeep d.id (hended d hd')
  · have hd' : d ∈ x.ended := by simpa [Net.recv, heof] using hd
    exact hkeep d.id (hended d hd')

/-- The address and the cid of what the listener passes on. -/
theorem NetInv.receipt (inv : NetInv sock x) (hp : x.sys.phase = .holding i n fd addr)
    (hc : x.owner fd = some c) {msg : List UInt8} (hne : msg ≠ []) (hlen : msg.length ≤ recvSize) :
    Receipt.Sound ⟨c, x.held, x.sys.server.client (BitVec.ofNat 16 i).toNat, x.sys.stale,
      ⟨msg, addr, BitVec.ofNat 16 i⟩⟩ := by
  obtain ⟨hentry, hslot⟩ := inv.held i n fd addr hp
  have hphase := inv.phase
  rw [PhaseInv, hp] at hphase
  obtain ⟨hi, hin, hun, hread⟩ := hphase
  refine ⟨List.length_pos_of_ne_nil hne, hlen, fun hheld => ?_, fun hs => ?_⟩
  · exact (congrArg Prod.snd (hentry c hheld)).symm
  · obtain ⟨d, hd, hde⟩ := hread hs
    -- the connection in the slot is the one that has the descriptor
    have hcd : c = d := by
      have hfind := inv.table.os.find_fd (List.mem_of_getElem? hd)
      rw [show d.fd = fd from congrArg Prod.fst hde] at hfind
      exact Option.some.inj (hc.symm.trans hfind)
    subst hcd
    have hcount := inv.table.count_eq
    have hlt := (List.getElem?_eq_some_iff.mp hd).1
    refine ⟨(hslot hs).trans hd, ?_⟩
    change x.sys.server.client (BitVec.ofNat 16 i).toNat = some c
    rw [hun.cid_toNat hin, inv.table.client_eq hi (by omega), hd]

end Recv

/-! ## Every run -/

theorem NetInv.keep {sock : ℤ} {x x' : Net} (inv : NetInv sock x) (step : NetStep x x')
    (hs : x'.streams = x.streams) (hr : x'.receipts = x.receipts) (he : x'.ended = x.ended) :
    NetInv sock x' := by
  obtain ⟨htable, hphase⟩ := step.core inv.table inv.phase
  refine ⟨htable, hphase, inv.held.step inv.table inv.phase step, step.recvcb.trans inv.recvcb,
    fun id => ?_, ?_, ?_⟩
  · exact (inv.stream id).of_eq hr (by rw [hs]) (by simp [hs])
  · rw [hs, he]
    exact inv.ended
  · rw [hr]
    exact inv.receipts

theorem NetInv.update {sock : ℤ} {x : Net} (inv : NetInv sock x) {id : ℕ} {s : Stream}
    (hsent : (x.streams id).sent <+: s.sent) (htaken : s.taken = (x.streams id).taken)
    (hdone : (x.streams id).Done → s.Done) : NetInv sock (x.update id s) := by
  refine ⟨inv.table, inv.phase, inv.held, inv.recvcb, fun j => ?_, fun c hc => ?_, inv.receipts⟩
  · by_cases hj : j = id
    · subst hj
      exact (inv.stream j).of_eq rfl (by simp [Net.update, htaken]) (by simpa [Net.update] using hsent)
    · exact (inv.stream j).of_eq rfl (by simp [Net.update, hj]) (by simp [Net.update, hj])
  · have hc := inv.ended c hc
    by_cases hj : c.id = id
    · rw [hj] at hc ⊢
      simpa [Net.update] using hdone hc
    · simpa [Net.update, hj] using hc

theorem NetInv.step {sock : ℤ} {x x' : Net} (inv : NetInv sock x) (step : NetStep x x') :
    NetInv sock x' := by
  have hstep := step
  cases step with
  | send id bytes hopen =>
    exact inv.update (List.prefix_append _ _) rfl
      fun hdone => absurd (hopen.symm.trans hdone.1) Bool.false_ne_true
  | shut id => exact inv.update (List.prefix_refl _) rfl fun hdone => ⟨rfl, hdone.2⟩
  | @recv i n fd addr c answer hp hc ha =>
    obtain ⟨htable, hphase⟩ := hstep.core inv.table inv.phase
    refine ⟨htable, hphase, inv.held.step inv.table inv.phase hstep, inv.recvcb,
      StreamInv.recv inv.stream inv.recvcb ha,
      Stream.Done.recv inv.ended (inv.stream c.id).taken_le ha, fun r hr => ?_⟩
    rcases List.mem_append.mp hr with hr | hr
    · exact inv.receipts r hr
    · obtain ⟨d, hd, rfl⟩ := List.mem_map.mp hr
      cases answer with
      | fail errno =>
        rw [listenerRecv_fail] at hd
        cases hd
      | data msg =>
        rw [listenerRecv_data inv.recvcb] at hd
        by_cases hmsg : msg = []
        · rw [if_pos hmsg] at hd
          cases hd
        · rw [if_neg hmsg] at hd
          obtain rfl := List.mem_singleton.mp hd
          exact inv.receipt hp hc hmsg ha.pending.2
  | _ => exact inv.keep hstep rfl rfl rfl

theorem netInv_init {h₀ h : Commh} {opt : CommsOpt} {env : InitEnv} {calls : List OsCall}
    (hinit : commsTcpserverInitOpt h₀ opt env = some (h, calls, true)) (hcb : opt.recvcb = true) :
    NetInv env.socket (Net.init h env.socket) := by
  refine ⟨table_inv hinit .refl, trivial, heldInv_of_phase fun i n fd addr => Phase.noConfusion,
    ?_, fun id => ⟨rfl, Nat.le_refl _⟩, by simp [Net.init], by simp [Net.init]⟩
  exact (commsTcpserverInitOpt_recvcb hinit).trans hcb

/-- **Each byte once, in order, and under whose name.**  In every run of a server with a
callback, what the callback got from a connection is what its peer has sent, as far as it
was taken; when the end of a stream is seen, that is everything.  Every piece has between
one and 2048 bytes.  Its address is the peer's if the descriptor still belongs to the
connection that the listener read; if no slot number has moved, it does, and its cid is
the slot of that connection. -/
theorem tcp_delivery {h₀ h : Commh} {opt : CommsOpt} {env : InitEnv} {calls : List OsCall}
    (hinit : commsTcpserverInitOpt h₀ opt env = some (h, calls, true)) (hcb : opt.recvcb = true)
    {x : Net} (hrun : Relation.ReflTransGen NetStep (Net.init h env.socket) x) :
    (∀ id, x.delivered id = (x.streams id).sent.take (x.streams id).taken) ∧
      (∀ c ∈ x.ended, x.delivered c.id = (x.streams c.id).sent) ∧ ∀ r ∈ x.receipts, r.Sound := by
  have inv := Machine.reachable_invariant (fun _ _ inv step => NetInv.step inv step) hrun
    (netInv_init hinit hcb)
  refine ⟨fun id => (inv.stream id).delivered, fun c hc => ?_, inv.receipts⟩
  rw [(inv.stream c.id).delivered, (inv.ended c hc).2, List.take_length]

/-! The first client of a server on descriptor 3. -/

/-- The listener holds the first client's descriptor and has not called `recv`. -/
def firstHeld (streams : ℕ → Stream) : Net :=
  ⟨⟨oneClient, .holding 1 2 4 peerA, none, false, []⟩, streams, oneClient.client 1, [], []⟩

def twoBytes (id : ℕ) : ℕ → Stream :=
  Function.update (fun _ => ⟨[], 0, false⟩) id ⟨[7, 8], 0, false⟩

theorem firstHeld_reachable (id : ℕ) :
    Relation.ReflTransGen NetStep (Net.init newServer 3) (firstHeld (twoBytes id)) := by
  have fresh : (System.init newServer 3).server.os.Fresh 4 := ⟨by decide, by decide, by decide⟩
  have hslot : listenerRead oneClient.h 1 2 = some (.holding 1 2 4 peerA) := by decide +kernel
  have hsend : NetStep (Net.init newServer 3)
      ⟨System.init newServer 3, twoBytes id, none, [], []⟩ := .send id [7, 8] rfl
  have hone : NetStep ⟨System.init newServer 3, twoBytes id, none, [], []⟩
      ⟨⟨oneClient, .top, none, false, []⟩, twoBytes id, none, [], []⟩ := .accept 4 peerA fresh
  have hcount : NetStep ⟨⟨oneClient, .top, none, false, []⟩, twoBytes id, none, [], []⟩
      ⟨⟨oneClient, .scan 1 2, none, false, []⟩, twoBytes id, none, [], []⟩ := .count rfl rfl
  have hread : NetStep ⟨⟨oneClient, .scan 1 2, none, false, []⟩, twoBytes id, none, [], []⟩
      (firstHeld (twoBytes id)) := .read rfl hslot
  exact .tail (.tail (.tail (.tail .refl hsend) hone) hcount) hread

/-- One of the first client's two bytes is taken. -/
def firstTaken : Net := (firstHeld (twoBytes 0)).recv 1 2 4 peerA ⟨0, 4, peerA⟩ (.data [7])

theorem firstTaken_reachable :
    Relation.ReflTransGen NetStep (Net.init newServer 3) firstTaken := by
  have howner : (firstHeld (twoBytes 0)).owner 4 = some ⟨0, 4, peerA⟩ := by decide +kernel
  have hanswers : (twoBytes 0 0).Answers (.data [7]) := ⟨by decide, [8], rfl⟩
  exact (firstHeld_reachable 0).tail (.recv _ rfl howner hanswers)

theorem tcp_delivery_first :
    (∀ id, firstTaken.delivered id =
        (firstTaken.streams id).sent.take (firstTaken.streams id).taken) ∧
      (∀ c ∈ firstTaken.ended, firstTaken.delivered c.id = (firstTaken.streams c.id).sent) ∧
      ∀ r ∈ firstTaken.receipts, r.Sound :=
  tcp_delivery newServer_init rfl firstTaken_reachable

/-- The first client is gone, and the second one has its descriptor. -/
def reused : Server := (disconnectFirst oneClient).accept 4 peerB

/-- The listener still holds what it read in the first client's slot. -/
def reusedHeld (stale : Bool) (log : List Event) : Net :=
  ⟨⟨reused, .holding 1 2 4 peerA, none, stale, log⟩, twoBytes 1, oneClient.client 1, [], []⟩

section Reuse

variable {s : Server} {p : Phase} {streams : ℕ → Stream} {held : Option Conn}

theorem user_one (hd : (commsDisconnect s.h 1).isSome = true) : ∃ stale log,
    NetStep ⟨⟨s, p, none, false, []⟩, streams, held, [], []⟩
      ⟨⟨disconnectFirst s, p, none, stale, log⟩, streams, held, [], []⟩ := by
  obtain ⟨h', calls, r, hd, heq⟩ := disconnectFirst_eq hd
  rw [heq]
  exact ⟨_, _, .user 1 hd⟩

theorem accept_one {stale : Bool} {log : List Event} {cs : ℤ} (cli : SockaddrIn)
    (fresh : s.os.Fresh cs) : NetStep ⟨⟨s, p, none, stale, log⟩, streams, held, [], []⟩
      ⟨⟨s.accept cs cli, p, none, stale, log⟩, streams, held, [], []⟩ := .accept cs cli fresh

end Reuse

theorem reusedHeld_reachable : ∃ stale log,
    Relation.ReflTransGen NetStep (Net.init newServer 3) (reusedHeld stale log) := by
  have hdis : (commsDisconnect oneClient.h 1).isSome = true := by decide +kernel
  have hlis : (disconnectFirst oneClient).os.listening ≠ some 4 := by decide +kernel
  have hconns : ∀ c ∈ (disconnectFirst oneClient).os.conns, c.fd ≠ 4 := by decide +kernel
  have fresh : (disconnectFirst oneClient).os.Fresh 4 := ⟨by decide, hlis, hconns⟩
  obtain ⟨stale, log, huser⟩ := user_one hdis
  refine ⟨stale, log, ((firstHeld_reachable 1).tail huser).tail ?_⟩
  exact accept_one peerB fresh

/-- The user disconnects the first client, and the second one gets its descriptor before
the listener calls `recv`: its bytes come under the first client's address. -/
theorem reused_descriptor :
    ¬ ∀ x, Relation.ReflTransGen NetStep (Net.init newServer 3) x →
      ∀ r ∈ x.receipts, r.delivery.addr = r.conn.peer := by
  intro haddr
  obtain ⟨stale, log, hreach⟩ := reusedHeld_reachable
  have howner : (reusedHeld stale log).owner 4 = some ⟨1, 4, peerB⟩ := by
    have hfind : reused.os.conns.find? (·.fd = 4) = some ⟨1, 4, peerB⟩ := by decide +kernel
    exact hfind
  have hanswers : ((reusedHeld stale log).streams 1).Answers (.data [7]) :=
    ⟨by decide, [8], rfl⟩
  have hcb : (reusedHeld stale log).sys.server.h.recvcb = true := by
    have hreused : reused.h.recvcb = true := by decide +kernel
    exact hreused
  have hrecv := hreach.tail (.recv (.data [7]) rfl howner hanswers)
  have hwrong := haddr _ hrecv _ (mem_receipts_recv hcb (List.cons_ne_nil 7 []))
  have hpeers : peerA ≠ peerB := by decide
  exact hpeers hwrong

end DataCommons.Comms
