import DataCommons.Comms.Delivery
import DataCommons.Comms.Ends
import DataCommons.Comms.Sends

/-!
# The session of a TCP client

The branch of `comms__listener` for a TCP client, beside the client's users and a server
that sends and shuts its side when it wants.  The socket does not block once the listener
has started, so a connection can also be made behind the back of a `CommsConnect` that
has failed.

* `Session.Step.inv`: every step keeps the books;
* `client_session`: both streams of bytes, whole and in order.
-/

namespace DataCommons.Comms

open Commh

/-! ## comms__listener, the branch of a TCP client -/

/-- Where the listener stands: before the first locked section, with the descriptor, with
a message, and before `CommsDisconnect`. -/
inductive ClientPhase where
  | top
  | holding (fd : ℤ)
  | got (msg : List UInt8)
  | closing
  deriving DecidableEq

/-- The first locked section; the branch without a descriptor sleeps and goes round. -/
def clientListenerRead (h : Commh) : Option ClientPhase :=
  match h.slot? 0 with
  | none => none
  | some (fd, _) => some (if fd ≤ 0 then .top else .holding fd)

/-- What the listener does with the answer of `recv`. -/
def clientListenerRecv : RecvResult → ClientPhase
  | .data msg => if msg ≠ [] then .got msg else .closing
  | .fail errno =>
    if errno = .EAGAIN ∨ errno = .EWOULDBLOCK then .top
    else if errno = .EINTR then .top
    else .closing

/-- The second locked section, which reads the address, and the call of the callback. -/
def clientListenerCallback (h : Commh) (msg : List UInt8) : Option (Option Delivery) :=
  match h.slot? 0 with
  | none => none
  | some (_, addr) => some (if h.recvcb then some ⟨msg, addr, 0⟩ else none)

/-! ## A client and its server -/

/-- A call of `CommsSend`: the cid, what `send` returns if it is called, and what
`CommsSend` returned. -/
structure ClientSend where
  msg : List UInt8
  cid : BitVec 16
  took : ℤ
  returned : Bool

/-- The bytes of a call that are on their way. -/
def ClientSend.bytes (x : ClientSend) : List UInt8 :=
  if x.returned then x.msg.take x.took.toNat else []

/-- A call of the callback, and whether a `CommsConnect` had succeeded before the address
was read. -/
structure ClientReceipt where
  delivery : Delivery
  stored : Bool

/-- The handle, the listener, a `CommsConnect` whose `connect` has succeeded, the peer of
the socket, whether a `CommsConnect` has succeeded, the bytes from and to the peer, the
calls of `CommsSend` and of the callback, and the system calls of `CommsDisconnect`. -/
structure Session where
  h : Commh
  phase : ClientPhase
  storing : Option (BitVec 32 × BitVec 16)
  peer : Option (BitVec 32 × BitVec 16)
  stored : Bool
  incoming : Stream
  outgoing : List UInt8
  sends : List ClientSend
  receipts : List ClientReceipt
  disconnects : List OsCall

/-- The message that the listener has but the callback has not. -/
def ClientPhase.inHand : ClientPhase → List UInt8
  | .got msg => msg
  | _ => []

namespace Session

def init (h : Commh) : Session := ⟨h, .top, none, none, false, ⟨[], 0, false⟩, [], [], [], []⟩

def delivered (s : Session) : List UInt8 := s.receipts.flatMap (·.delivery.msg)

def sending (s : Session) (sock : ℤ) (ret : ℕ → ℤ) (h : Commh) (calls : List OsCall)
    (x : ClientSend) : Session :=
  { s with h := h, outgoing := s.outgoing ++ handed sock ret calls, sends := s.sends ++ [x] }

def recv (s : Session) (sock fd : ℤ) (answer : RecvResult) : Session :=
  { s with
    phase := clientListenerRecv answer
    incoming := if fd = sock then s.incoming.take answer else s.incoming }

/-- A step of a user, of the listener, of the connection or of the server; `sock` is the
client's socket. -/
inductive Step (sock : ℤ) : Session → Session → Prop
  | connect {s : Session} (ip : BitVec 32) (port : BitVec 16) (hidle : s.storing = none)
      (hpeer : s.peer = none ∨ s.peer = some (ip, port)) :
      -- `connect` has returned 0, so this is the peer
      Step sock s { s with storing := some (ip, port), peer := some (ip, port) }
  | store {s : Session} {h : Commh} {r : Bool} {ip : BitVec 32} {port : BitVec 16} (ret : ℤ)
      (hstoring : s.storing = some (ip, port)) (hret : 0 ≤ ret)
      (hcall : commsConnect s.h ip port ret = some (h, r)) :
      Step sock s { s with h := h, storing := none, stored := s.stored || r }
  | connectFails {s : Session} {h : Commh} {r : Bool} (ip : BitVec 32) (port : BitVec 16) (ret : ℤ)
      (hidle : s.storing = none) (hret : ret < 0)
      (hcall : commsConnect s.h ip port ret = some (h, r)) :
      Step sock s { s with h := h, stored := s.stored || r }
  | established {s : Session} (ip : BitVec 32) (port : BitVec 16) (hpeer : s.peer = none) :
      -- what a `connect` that returned EINPROGRESS goes on with
      Step sock s { s with peer := some (ip, port) }
  | send {s : Session} {h : Commh} {calls : List OsCall} {r : Bool} (msg : List UInt8)
      (opt : CommsSendOpt) (ret : ℕ → ℤ) (hret : ret 0 ≤ msg.length)
      (hpeer : s.peer = none → ret 0 ≤ 0) (hcall : commsSendOpt s.h msg opt ret = some (h, calls, r)) :
      Step sock s (s.sending sock ret h calls ⟨msg, opt.cid, ret 0, r⟩)
  | user {s : Session} {h : Commh} {calls : List OsCall} {r : Bool} (cid : BitVec 16)
      (hcall : commsDisconnect s.h cid = some (h, calls, r)) :
      Step sock s { s with h := h, disconnects := s.disconnects ++ calls }
  | serverSends {s : Session} (bytes : List UInt8) (hpeer : s.peer ≠ none)
      (hopen : s.incoming.shut = false) :
      Step sock s { s with incoming := s.incoming.send bytes }
  | serverShuts {s : Session} (hpeer : s.peer ≠ none) :
      Step sock s { s with incoming := { s.incoming with shut := true } }
  | read {s : Session} {p : ClientPhase} (hp : s.phase = .top) (hr : s.h.running = true)
      (hread : clientListenerRead s.h = some p) : Step sock s { s with phase := p }
  | recv {s : Session} {fd : ℤ} (answer : RecvResult) (hp : s.phase = .holding fd)
      (ha : fd = sock → s.incoming.Answers answer) : Step sock s (s.recv sock fd answer)
  | callback {s : Session} {msg : List UInt8} {got : Option Delivery} (hp : s.phase = .got msg)
      (hcall : clientListenerCallback s.h msg = some got) :
      Step sock s { s with
        phase := .top
        receipts := s.receipts ++ got.toList.map fun d => ⟨d, s.stored⟩ }
  | disconnect {s : Session} {h : Commh} {calls : List OsCall} {r : Bool} (hp : s.phase = .closing)
      (hcall : commsDisconnect s.h 0 = some (h, calls, r)) :
      Step sock s { s with h := h, phase := .top, disconnects := s.disconnects ++ calls }

end Session

/-! ## The client's handle -/

/-- The handle of a TCP client whose listener runs if it has a callback. -/
structure IsClient (sock : ℤ) (h : Commh) : Prop where
  tcp : h.tcp = true
  server : h.server = false
  running : h.running = h.recvcb
  socket : (h.slot 0).1 = sock

theorem isClient_init {h₀ h : Commh} {opt : CommsOpt} {env : InitEnv} {calls : List OsCall}
    (hinit : commsTcpclientInitOpt h₀ opt env = some (h, calls, true)) :
    IsClient env.socket h ∧ h.clientCount = 0 ∧ 0 ≤ env.socket := by
  cases commsTcpclientInitOpt_cases hinit with
  | closes hsocket herr hclose => exact absurd hclose closeAndFail_ne_true
  | starts hsocket hstart =>
    cases startListener_cases hstart with
    | off hrun => exact ⟨⟨rfl, rfl, rfl, slot_zero_of_socks rfl⟩, rfl, hsocket⟩
    | thread hrun => exact ⟨⟨rfl, rfl, rfl, slot_zero_of_socks rfl⟩, rfl, hsocket⟩

section Calls

variable {sock : ℤ} {h h' : Commh} {calls : List OsCall} {r : Bool}

/-- The same handle, but for an error. -/
structure SameClient (sock : ℤ) (h h' : Commh) : Prop where
  client : IsClient sock h'
  running : h'.running = h.running
  count : h'.clientCount = h.clientCount
  slot : h'.slot 0 = h.slot 0

theorem IsClient.error (hc : IsClient sock h) (err : CommsError) (f : String) (l : ℕ) :
    SameClient sock h (setError h err f l) :=
  ⟨⟨hc.tcp, hc.server, hc.running, hc.socket⟩, rfl, rfl, rfl⟩

theorem IsClient.disconnect (hc : IsClient sock h) {cid : BitVec 16}
    (hd : commsDisconnect h cid = some (h', calls, r)) :
    calls = [] ∧ SameClient sock h h' := by
  rw [commsDisconnect, if_pos (by simp [hc.server])] at hd
  cases hd
  exact ⟨rfl, hc.error ..⟩

theorem IsClient.connect_fails (hc : IsClient sock h) {ip : BitVec 32} {port : BitVec 16} {ret : ℤ}
    (hret : ret < 0) (hcall : commsConnect h ip port ret = some (h', r)) :
    r = false ∧ SameClient sock h h' := by
  rw [commsConnect, if_neg (by simp [hc.server]), if_pos hc.tcp, if_pos hret] at hcall
  cases hcall
  exact ⟨rfl, hc.error ..⟩

/-- A `CommsConnect` whose `connect` has succeeded; the first keeps the address. -/
theorem IsClient.connect (hc : IsClient sock h) {ip : BitVec 32} {port : BitVec 16} {ret : ℤ}
    (hret : 0 ≤ ret) (hcall : commsConnect h ip port ret = some (h', r)) :
    IsClient sock h' ∧ h'.running = h.running ∧ r = true ∧ h'.clientCount ≠ 0 ∧
      (h'.slot 0).2 = if h.clientCount = 0 then { (h.slot 0).2 with sinAddr := ip, sinPort := port }
        else (h.slot 0).2 := by
  rw [commsConnect, if_neg (by simp [hc.server]), if_pos hc.tcp, if_neg (by omega), connected] at hcall
  split at hcall
  · cases hcall
  · rename_i a ha
    cases hcall
    refine ⟨⟨hc.tcp, hc.server, hc.running, hc.socket⟩, rfl, rfl, by simp, ?_⟩
    have ha : h.clientAddress[h.clientCount]? = some a := ha
    by_cases hcount : h.clientCount = 0
    · rw [hcount] at ha
      have hpos : 0 < commsMaxClients := by decide
      obtain rfl : h.clientAddress[0] = a := by simpa [hpos] using ha
      rw [if_pos hcount]
      simp [slot, hcount, hpos]
    · rw [if_neg hcount]
      simp [slot, hcount]

/-- A client's `CommsSend` leaves the handle but for an error, and makes one `send` on the
socket unless it is meant for all clients. -/
theorem IsClient.send (hc : IsClient sock h) (hsock : 0 ≤ sock) {msg : List UInt8}
    {opt : CommsSendOpt} {ret : ℕ → ℤ} (hsend : commsSendOpt h msg opt ret = some (h', calls, r)) :
    SameClient sock h h' ∧
      (r = true ↔ opt.cid.toNat ≠ commsSendToAllClients ∧ 0 < ret 0) ∧
      handed sock ret calls = (⟨msg, opt.cid, ret 0, r⟩ : ClientSend).bytes := by
  by_cases hcid : opt.cid.toNat = commsSendToAllClients
  · rw [commsSendOpt, if_pos hc.tcp, if_neg (by simp [hc.server]), if_pos hcid] at hsend
    cases hsend
    exact ⟨hc.error .., by simp [hcid], rfl⟩
  · rw [commsSendOpt_tcp_one hc.tcp hcid, if_neg (by simp [hc.server]), remoteSlot,
      if_neg (by simp [hc.server]), sendOne, h.slot?_eq (by decide)] at hsend
    dsimp only at hsend
    rw [hc.socket, if_neg (by omega)] at hsend
    split at hsend
    · rename_i hfail
      cases hsend
      refine ⟨hc.error .., by simp [hfail], ?_⟩
      rw [handed_one, Int.toNat_of_nonpos hfail]
      rfl
    · rename_i hsent
      cases hsend
      exact ⟨⟨hc, rfl, rfl, rfl⟩, by simp [hcid, not_le.mp hsent], handed_one ..⟩

end Calls

/-! ## The books -/

/-- What the callback got: a message, and the address of the server if a `CommsConnect` had
stored it. -/
structure ClientReceipt.Right (peer : Option (BitVec 32 × BitVec 16)) (x : ClientReceipt) :
    Prop where
  nonempty : x.delivery.msg ≠ []
  length_le : x.delivery.msg.length ≤ recvSize
  cid : x.delivery.cid = 0
  addr : x.stored = true → peer = some (x.delivery.addr.sinAddr, x.delivery.addr.sinPort)

/-- What the listener knows in a phase. -/
def Listening (sock : ℤ) (running : Bool) : ClientPhase → Prop
  | .top => True
  | .holding fd => running = true ∧ fd = sock
  | .got msg => running = true ∧ msg ≠ [] ∧ msg.length ≤ recvSize
  | .closing => running = true

/-- Slot 0 has the address of the peer behind the first `CommsConnect` that succeeds. -/
structure Addressing (h : Commh) (storing peer : Option (BitVec 32 × BitVec 16)) (stored : Bool) :
    Prop where
  storing : ∀ a, storing = some a → peer = some a
  count : stored = true ↔ h.clientCount ≠ 0
  stored : stored = true → peer = some ((h.slot 0).2.sinAddr, (h.slot 0).2.sinPort)

structure SessionInv (sock : ℤ) (s : Session) : Prop where
  client : IsClient sock s.h
  listening : Listening sock s.h.running s.phase
  addressing : Addressing s.h s.storing s.peer s.stored
  delivered : s.delivered ++ s.phase.inHand = s.incoming.sent.take s.incoming.taken
  taken_le : s.incoming.taken ≤ s.incoming.sent.length
  outgoing : s.outgoing = s.sends.flatMap ClientSend.bytes
  sends : ∀ x ∈ s.sends, x.returned = true ↔ x.cid.toNat ≠ commsSendToAllClients ∧ 0 < x.took
  receipts : ∀ x ∈ s.receipts, x.Right s.peer
  disconnects : s.disconnects = []

theorem sessionInv_init {sock : ℤ} {h : Commh} (hc : IsClient sock h) (hcount : h.clientCount = 0) :
    SessionInv sock (Session.init h) where
  client := hc
  listening := trivial
  addressing := ⟨fun a ha => (by cases ha), by simp [Session.init, hcount], fun hs => (by cases hs)⟩
  delivered := rfl
  taken_le := le_rfl
  outgoing := rfl
  sends := fun x hx => by cases hx
  receipts := fun x hx => by cases hx
  disconnects := rfl

section Step

variable {sock : ℤ} {s s' : Session}

/-- A call that leaves the handle but for an error. -/
theorem SessionInv.call (inv : SessionInv sock s) {h : Commh} (hsame : SameClient sock s.h h) :
    SessionInv sock { s with h := h } := by
  obtain ⟨hstoring, hcount, hstored⟩ := inv.addressing
  refine { inv with
    client := hsame.client
    listening := ?_
    addressing := ⟨hstoring, ?_, ?_⟩ }
  · rw [hsame.running]
    exact inv.listening
  · rw [hsame.count]
    exact hcount
  · rw [hsame.slot]
    exact hstored

theorem SessionInv.connected (inv : SessionInv sock s) {a : BitVec 32 × BitVec 16}
    (hpeer : s.peer = none ∨ s.peer = some a) : SessionInv sock { s with peer := some a } := by
  have hkeep : ∀ b, s.peer = some b → some a = some b := by
    intro b hb
    rcases hpeer with hnone | hsome
    · cases hnone.symm.trans hb
    · exact hsome.symm.trans hb
  obtain ⟨hstoring, hcount, hstored⟩ := inv.addressing
  refine { inv with
    addressing := ⟨fun b hb => hkeep b (hstoring b hb), hcount, fun hs => hkeep _ (hstored hs)⟩
    receipts := fun x hx => ?_ }
  obtain ⟨hne, hlen, hcid, haddr⟩ := inv.receipts x hx
  exact ⟨hne, hlen, hcid, fun hs => hkeep _ (haddr hs)⟩

theorem SessionInv.store (inv : SessionInv sock s) {h : Commh} {r : Bool} {ip : BitVec 32}
    {port : BitVec 16} {ret : ℤ} (hstoring : s.storing = some (ip, port)) (hret : 0 ≤ ret)
    (hcall : commsConnect s.h ip port ret = some (h, r)) :
    SessionInv sock { s with h := h, storing := none, stored := s.stored || r } := by
  obtain ⟨hclient, hrunning, rfl, hne, haddr⟩ := inv.client.connect hret hcall
  obtain ⟨hpeer, hcount, hstored⟩ := inv.addressing
  refine { inv with
    client := hclient
    listening := hrunning ▸ inv.listening
    addressing := ⟨fun a ha => (by cases ha), by simp [hne], fun _ => ?_⟩ }
  dsimp only
  rw [haddr]
  split
  · exact hpeer _ hstoring
  · rename_i hc
    exact hstored (hcount.mpr hc)

theorem SessionInv.sending (inv : SessionInv sock s) (hsock : 0 ≤ sock) {h : Commh}
    {calls : List OsCall} {r : Bool} {msg : List UInt8} {opt : CommsSendOpt} {ret : ℕ → ℤ}
    (hcall : commsSendOpt s.h msg opt ret = some (h, calls, r)) :
    SessionInv sock (s.sending sock ret h calls ⟨msg, opt.cid, ret 0, r⟩) := by
  obtain ⟨hsame, hreturned, hbytes⟩ := inv.client.send hsock hcall
  have hcalled := inv.call hsame
  refine ⟨hcalled.client, hcalled.listening, hcalled.addressing, inv.delivered, inv.taken_le, ?_,
    fun x hx => ?_, inv.receipts, inv.disconnects⟩
  · rw [Session.sending, inv.outgoing, hbytes, List.flatMap_append, List.flatMap_singleton]
  · rcases List.mem_append.mp hx with hx | hx
    · exact inv.sends x hx
    · rw [List.mem_singleton.mp hx]
      exact hreturned

theorem SessionInv.serverSends (inv : SessionInv sock s) (bytes : List UInt8) :
    SessionInv sock { s with incoming := s.incoming.send bytes } := by
  have hle := inv.taken_le
  refine { inv with
    delivered := ?_
    taken_le := ?_ }
  · rw [Stream.send, List.take_append_of_le_length hle]
    exact inv.delivered
  · rw [Stream.send, List.length_append]
    exact Nat.le_add_right_of_le hle

/-- The listener goes on with nothing in hand, before and behind. -/
theorem SessionInv.goes (inv : SessionInv sock s) {p : ClientPhase}
    (hp : Listening sock s.h.running p) (hnow : s.phase.inHand = []) (hthen : p.inHand = []) :
    SessionInv sock { s with phase := p } := by
  refine { inv with
    listening := hp
    delivered := ?_ }
  dsimp only
  rw [hthen, ← hnow]
  exact inv.delivered

theorem SessionInv.read (inv : SessionInv sock s) (hp : s.phase = .top) (hr : s.h.running = true)
    {p : ClientPhase} (hread : clientListenerRead s.h = some p) :
    SessionInv sock { s with phase := p } := by
  have hnow : s.phase.inHand = [] := by rw [hp]; rfl
  rw [clientListenerRead, s.h.slot?_eq (by decide)] at hread
  dsimp only at hread
  rw [inv.client.socket] at hread
  cases hread
  split
  · exact inv.goes trivial hnow rfl
  · exact inv.goes ⟨hr, rfl⟩ hnow rfl

theorem clientListenerRecv_fail (errno : Errno) :
    clientListenerRecv (.fail errno) = .top ∨ clientListenerRecv (.fail errno) = .closing := by
  rw [clientListenerRecv]
  split
  · exact Or.inl rfl
  · split
    · exact Or.inl rfl
    · exact Or.inr rfl

theorem SessionInv.recv (inv : SessionInv sock s) {fd : ℤ} (hp : s.phase = .holding fd)
    {answer : RecvResult} (ha : fd = sock → s.incoming.Answers answer) :
    SessionInv sock (s.recv sock fd answer) := by
  have hlisten := inv.listening
  rw [hp] at hlisten
  obtain ⟨hrun, rfl⟩ := hlisten
  have hdelivered := inv.delivered
  rw [hp, show ClientPhase.inHand (.holding fd) = [] from rfl, List.append_nil] at hdelivered
  have hnow : s.phase.inHand = [] := by rw [hp]; rfl
  cases answer with
  | fail errno =>
    rw [Session.recv, if_pos rfl, Stream.take]
    rcases clientListenerRecv_fail errno with h | h
    · rw [h]
      exact inv.goes trivial hnow rfl
    · rw [h]
      exact inv.goes hrun hnow rfl
  | data msg =>
    obtain ⟨hpre, hlen⟩ := (ha rfl).pending
    obtain ⟨htake, hle⟩ := Stream.take_append inv.taken_le hpre
    rw [Session.recv, if_pos rfl, Stream.take, clientListenerRecv]
    have hhand : ∀ p, Listening fd s.h.running p → p.inHand = msg →
        SessionInv fd { s with
          phase := p
          incoming := { s.incoming with taken := s.incoming.taken + msg.length } } := by
      intro p hp hmsg
      refine { inv with
        listening := hp
        delivered := ?_
        taken_le := hle }
      rw [htake, ← hdelivered, hmsg]
      rfl
    split
    · rename_i hmsg
      exact hhand _ ⟨hrun, hmsg, hlen⟩ rfl
    · rename_i hmsg
      exact hhand _ hrun (not_not.mp hmsg).symm

theorem SessionInv.callback (inv : SessionInv sock s) {msg : List UInt8} (hp : s.phase = .got msg)
    {got : Option Delivery} (hcall : clientListenerCallback s.h msg = some got) :
    SessionInv sock { s with
      phase := .top
      receipts := s.receipts ++ got.toList.map fun d => ⟨d, s.stored⟩ } := by
  have hlisten := inv.listening
  rw [hp] at hlisten
  obtain ⟨hrun, hne, hlen⟩ := hlisten
  have hdelivered := inv.delivered
  rw [hp, ClientPhase.inHand] at hdelivered
  rw [clientListenerCallback, s.h.slot?_eq (by decide)] at hcall
  dsimp only at hcall
  rw [if_pos (inv.client.running ▸ hrun)] at hcall
  cases hcall
  refine { inv with
    listening := trivial
    delivered := ?_
    receipts := fun x hx => ?_ }
  · rw [← hdelivered]
    simp [Session.delivered, ClientPhase.inHand]
  · rcases List.mem_append.mp hx with hx | hx
    · exact inv.receipts x hx
    · rw [List.mem_singleton.mp hx]
      exact ⟨hne, hlen, rfl, inv.addressing.stored⟩

/-- **Every step keeps the books.** -/
theorem Session.Step.inv (step : Session.Step sock s s') (hsock : 0 ≤ sock)
    (inv : SessionInv sock s) : SessionInv sock s' := by
  cases step with
  | connect ip port hidle hpeer =>
    have hconn := inv.connected hpeer
    exact { hconn with addressing := { hconn.addressing with storing := fun a ha => ha } }
  | store ret hstoring hret hcall => exact inv.store hstoring hret hcall
  | connectFails ip port ret hidle hret hcall =>
    obtain ⟨rfl, hsame⟩ := inv.client.connect_fails hret hcall
    rw [Bool.or_false]
    exact inv.call hsame
  | established ip port hpeer => exact inv.connected (Or.inl hpeer)
  | send msg opt ret hret hpeer hcall => exact inv.sending hsock hcall
  | user cid hcall =>
    obtain ⟨rfl, hsame⟩ := inv.client.disconnect hcall
    rw [List.append_nil]
    exact inv.call hsame
  | serverSends bytes hpeer hopen => exact inv.serverSends bytes
  | serverShuts hpeer => exact { inv with }
  | read hp hr hread => exact inv.read hp hr hread
  | recv answer hp ha => exact inv.recv hp ha
  | callback hp hcall => exact inv.callback hp hcall
  | disconnect hp hcall =>
    obtain ⟨rfl, hsame⟩ := inv.client.disconnect hcall
    rw [List.append_nil]
    exact (inv.call hsame).goes trivial (by rw [hp]; rfl) rfl

end Step

/-! ## Whole runs -/

/-- **The session of a TCP client.**  In every run behind a successful
`comms_tcpclient_init__opt`, before `CommsClose`: the callback gets the server's bytes
once and in order, but for a message that the listener has in hand, in pieces of 1 to 2048
bytes with the cid 0, and with the server's address if a `CommsConnect` had succeeded when
the listener read it; what leaves the socket is what `send` took in the calls of
`CommsSend` that returned `true`, in order, and these are the calls that were not for all
clients and in which `send` took a byte; and no `CommsDisconnect`, of a user or of the
listener, closes anything. -/
theorem client_session {h₀ h : Commh} {opt : CommsOpt} {env : InitEnv} {calls : List OsCall}
    (hinit : commsTcpclientInitOpt h₀ opt env = some (h, calls, true)) {s : Session}
    (hreach : Relation.ReflTransGen (Session.Step env.socket) (Session.init h) s) :
    s.delivered ++ s.phase.inHand = s.incoming.sent.take s.incoming.taken ∧
    (∀ x ∈ s.receipts, x.Right s.peer) ∧
    s.outgoing = s.sends.flatMap ClientSend.bytes ∧
    (∀ x ∈ s.sends, x.returned = true ↔
      x.cid.toNat ≠ commsSendToAllClients ∧ 0 < x.took) ∧
    s.disconnects = [] ∧ (s.h.slot 0).1 = env.socket := by
  obtain ⟨hclient, hcount, hsock⟩ := isClient_init hinit
  have inv : SessionInv env.socket s :=
    Machine.reachable_invariant (fun _ _ inv step => step.inv hsock inv) hreach
      (sessionInv_init hclient hcount)
  exact ⟨inv.delivered, inv.receipts, inv.outgoing, inv.sends, inv.disconnects, inv.client.socket⟩

def connectedClient : Commh := ((commsConnect newClient 1 80 0).get rfl).1

theorem connectedClient_slot : connectedClient.slot 0 = (3, ⟨0, 80, 1⟩) := by decide +kernel

theorem connectedClient_send (msg : List UInt8) {n : ℤ} (hn : 0 < n) :
    commsSendOpt connectedClient msg ⟨none, 0, 0⟩ (fun _ => n)
      = some (connectedClient, [.send 3 msg], true) := by
  rw [commsSendOpt_tcp_one rfl (by decide), if_neg (by decide), remoteSlot, if_neg (by decide), sendOne,
    connectedClient.slot?_eq (by decide), connectedClient_slot]
  dsimp only
  rw [if_neg (by decide), if_neg (not_le.mpr hn)]

theorem connectedClient_read : clientListenerRead connectedClient = some (.holding 3) := by
  rw [clientListenerRead, connectedClient.slot?_eq (by decide), connectedClient_slot]
  rfl

theorem connectedClient_callback (msg : List UInt8) :
    clientListenerCallback connectedClient msg = some (some ⟨msg, ⟨0, 80, 1⟩, 0⟩) := by
  rw [clientListenerCallback, connectedClient.slot?_eq (by decide), connectedClient_slot]
  rfl

def connectedSession : Session :=
  { Session.init connectedClient with peer := some (1, 80), stored := true }

theorem connectedSession_reachable : Relation.ReflTransGen
    (fun s s' => Session.Step 3 s s' ∧ s'.incoming.sent = s.incoming.sent)
    (Session.init newClient) connectedSession := by
  have hconnect := @Session.Step.connect 3 (Session.init newClient) 1 80 rfl (Or.inl rfl)
  have hstore := @Session.Step.store 3 { Session.init newClient with
    storing := some (1, 80), peer := some (1, 80) } connectedClient true 1 80 0 rfl le_rfl rfl
  exact .tail (.tail .refl ⟨hconnect, rfl⟩) ⟨hstore, rfl⟩

theorem client_session_two :
    ∃ s : Session, s.receipts.map (·.delivery) = [⟨[7], ⟨0, 80, 1⟩, 0⟩] ∧ s.outgoing = [9] ∧
      ∀ x ∈ s.receipts, x.Right s.peer := by
  have hconnected := connectedSession_reachable.lift id fun _ _ step => step.1
  have hsends := @Session.Step.serverSends 3 connectedSession [7] (by simp [connectedSession]) rfl
  refine ⟨_, ?_, ?_, (client_session newClient_init
    (.tail (.tail (.tail (.tail (.tail hconnected hsends) (.read rfl rfl connectedClient_read))
      (.recv (.data [7]) rfl fun _ => ⟨by decide, [], rfl⟩))
      (.callback rfl (connectedClient_callback [7])))
      (.send [9] ⟨none, 0, 0⟩ (fun _ => 1) le_rfl nofun
        (connectedClient_send [9] (by decide))))).2.1⟩
  · rfl
  · rfl

end DataCommons.Comms
