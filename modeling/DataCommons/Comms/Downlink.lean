import DataCommons.Comms.Cids
import DataCommons.Comms.Uplink

/-!
# From the server's `CommsSend` to the clients' callbacks, over TCP

The other direction: a server whose table changes under its accepter and its
`CommsDisconnect`, its users' `CommsSend`, and the clients of `Uplink`.  What the server's
sockets took reaches a client's stream later, in pieces of any size.

* `serverSent_right`: which connections a call of `CommsSend` sends to, and what;
* `tcp_downlink`: what a client's callback gets is what was sent to its connection.
-/

namespace DataCommons.Comms

open Commh

/-! ## One call -/

section Handed

variable {conns : List Conn} {msg : List UInt8} {ret : ℕ → ℤ}

theorem handedBy_other {fd : ℤ} (hfd : ∀ c ∈ conns, c.fd ≠ fd) (k : ℕ) :
    ((conns.map fun c => OsCall.send c.fd msg).zipIdx k).flatMap
      (fun call => handedBy fd (ret call.2) call.1) = [] := by
  induction conns generalizing k with
  | nil => rfl
  | cons d conns ih =>
    have hrest := ih (fun c hc => hfd c (List.mem_cons_of_mem d hc)) (k + 1)
    rw [List.map_cons, List.zipIdx_cons, List.flatMap_cons, hrest, List.append_nil, handedBy,
      if_neg (hfd d List.mem_cons_self)]

/-- One `send` to each connection: the `j`-th gets what the `j`-th call took. -/
theorem handedBy_conns (hfds : (conns.map (·.fd)).Nodup) {c : Conn} {j : ℕ}
    (hc : conns[j]? = some c) (k : ℕ) :
    ((conns.map fun c => OsCall.send c.fd msg).zipIdx k).flatMap
      (fun call => handedBy c.fd (ret call.2) call.1) = msg.take (ret (k + j)).toNat := by
  induction conns generalizing k j with
  | nil => cases hc
  | cons d conns ih =>
    rw [List.map_cons, List.nodup_cons] at hfds
    rw [List.map_cons, List.zipIdx_cons, List.flatMap_cons]
    cases j with
    | zero =>
      cases hc
      have hother : ∀ e ∈ conns, e.fd ≠ c.fd :=
        fun e he heq => hfds.1 (heq ▸ List.mem_map_of_mem he)
      rw [handedBy, if_pos rfl, handedBy_other hother, List.append_nil, Nat.add_zero]
    | succ j =>
      have hmem : c ∈ conns := List.mem_of_getElem? hc
      have hne : d.fd ≠ c.fd := fun heq => hfds.1 (heq ▸ List.mem_map_of_mem hmem)
      rw [handedBy, if_neg hne, List.nil_append, ih hfds.2 hc, Nat.add_right_comm, Nat.add_assoc]

end Handed

/-- A call of the server's `CommsSend`: the connections at that time, the one behind the
cid, what the calls of `send` return, what `CommsSend` returned, and the bytes on their way
to each connection, by its number. -/
structure ServerSend where
  msg : List UInt8
  cid : BitVec 16
  conns : List Conn
  client : Option Conn
  ret : ℕ → ℤ
  returned : Bool
  bytes : ℕ → List UInt8

def serverSent (s : Server) (msg : List UInt8) (cid : BitVec 16) (ret : ℕ → ℤ) (calls : List OsCall)
    (r : Bool) : ServerSend where
  msg := msg
  cid := cid
  conns := s.os.conns
  client := s.client cid.toNat
  ret := ret
  returned := r
  bytes := fun id =>
    match s.os.conns.find? (·.id = id) with
    | some c => handed c.fd ret calls
    | none => []

/-- A call with a client's cid sends to this client; a call for all clients sends to each,
in their order, up to the first `send` that takes nothing. -/
structure ServerSend.Right (x : ServerSend) : Prop where
  one : x.cid.toNat ≠ commsSendToAllClients → ∀ c, x.client = some c →
    (x.returned = true ↔ 0 < x.ret 0) ∧
    ∀ id, x.bytes id = if id = c.id then x.msg.take (x.ret 0).toNat else []
  all : x.cid.toNat = commsSendToAllClients →
    (x.returned = true ↔ ∀ j < x.conns.length, 0 < x.ret j) ∧
    ∀ j c, x.conns[j]? = some c →
      x.bytes c.id = if ∀ i < j, 0 < x.ret i then x.msg.take (x.ret j).toNat else []

theorem OsInv.find_id {os : Os} (inv : OsInv os) {c : Conn} (hc : c ∈ os.conns) :
    os.conns.find? (·.id = c.id) = some c := by
  have hids : (os.conns.map (·.id)).Nodup := by
    have hnodup := inv.numbers.nodup_iff.mpr List.nodup_range
    rw [List.map_append] at hnodup
    exact hnodup.of_append_left
  exact ArrivalList.find?_key hids hc

section Call

variable {sock : ℤ} {s : Server} {h' : Commh} {calls : List OsCall} {r : Bool} {msg : List UInt8}
  {opt : CommsSendOpt} {ret : ℕ → ℤ}

theorem serverSent_bytes (inv : TableInv sock s) {c : Conn} (hc : c ∈ s.os.conns) :
    (serverSent s msg opt.cid ret calls r).bytes c.id = handed c.fd ret calls := by
  rw [serverSent]
  dsimp only
  rw [inv.os.find_id hc]

theorem serverSent_one (inv : TableInv sock s)
    (hsend : commsSendOpt s.h msg opt ret = some (h', calls, r))
    (hcid : opt.cid.toNat ≠ commsSendToAllClients) {c : Conn} (hc : s.client opt.cid.toNat = some c) :
    (r = true ↔ 0 < ret 0) ∧ ∀ id, (serverSent s msg opt.cid ret calls r).bytes id =
      if id = c.id then msg.take (ret 0).toNat else [] := by
  have hrange : 1 ≤ opt.cid.toNat ∧ opt.cid.toNat < s.h.clientCount := by
    by_contra hout
    rw [Server.client, if_neg hout] at hc
    cases hc
  rw [inv.client_eq hrange.1 hrange.2] at hc
  obtain ⟨d, hd, hslot⟩ := inv.slot_entry hrange.1 hrange.2
  obtain rfl : c = d := Option.some.inj (hc.symm.trans hd)
  have hmem := List.mem_of_getElem? hc
  have hpos := inv.os.pos c hmem
  have hle := inv.isServer.count_le
  have hcalls : calls = [.send c.fd msg] ∧ (r = true ↔ 0 < ret 0) := by
    rw [commsSendOpt_one inv.isServer hrange.1 hcid, sendOne, s.h.slot?_eq (by omega), hslot] at hsend
    dsimp only [Conn.entry] at hsend
    rw [if_neg (by omega)] at hsend
    split at hsend
    · rename_i hfail
      cases hsend
      exact ⟨rfl, iff_of_false Bool.false_ne_true (not_lt.mpr hfail)⟩
    · rename_i hsent
      cases hsend
      exact ⟨rfl, iff_of_true rfl (not_le.mp hsent)⟩
  obtain ⟨rfl, hr⟩ := hcalls
  refine ⟨hr, fun id => ?_⟩
  by_cases hid : id = c.id
  · subst hid
    rw [if_pos rfl, serverSent_bytes inv hmem, handed_one]
  · rw [if_neg hid, serverSent]
    dsimp only
    split
    · rename_i d hfind
      have hd := List.mem_of_find?_eq_some hfind
      have hdid : d.id = id := by simpa using List.find?_some hfind
      have hne : c.fd ≠ d.fd := by
        intro heq
        rw [List.inj_on_of_nodup_map inv.os.fds hmem hd heq] at hid
        exact hid hdid.symm
      simp [handed, handedBy, hne]
    · rfl

theorem sendsFrom_take (inv : TableInv sock s) (msg : List UInt8) {n : ℕ}
    (hn : n ≤ s.os.conns.length) :
    sendsFrom s.h msg 1 n = (s.os.conns.take n).map fun c => .send c.fd msg := by
  rw [List.map_take, ← sendsFrom_conns inv, sendsFrom, sendsFrom, ← List.map_take, List.take_range,
    Nat.min_eq_left hn]

/-- What the first `n` sends of a call for all clients give to the `j`-th. -/
theorem handed_sendsFrom (inv : TableInv sock s) {n j : ℕ} (hn : n ≤ s.os.conns.length) {c : Conn}
    (hc : s.os.conns[j]? = some c) :
    handed c.fd ret (sendsFrom s.h msg 1 n) = if j < n then msg.take (ret j).toNat else [] := by
  have hfds : ((s.os.conns.take n).map (·.fd)).Nodup := by
    rw [List.map_take]
    exact inv.os.fds.sublist (List.take_sublist ..)
  rw [sendsFrom_take inv msg hn, handed]
  split
  · rename_i hj
    have hget : (s.os.conns.take n)[j]? = some c := by rw [List.getElem?_take_of_lt hj, hc]
    rw [handedBy_conns hfds hget, Nat.zero_add]
  · rename_i hj
    refine handedBy_other (fun d hd heq => hj ?_) 0
    -- the one connection with this descriptor would be among the first `n`
    obtain rfl : d = c := List.inj_on_of_nodup_map inv.os.fds (List.mem_of_mem_take hd)
      (List.mem_of_getElem? hc) heq
    obtain ⟨i, hi⟩ := List.mem_iff_getElem?.mp hd
    rw [List.getElem?_take] at hi
    split at hi
    · rename_i hin
      have hlt := (List.getElem?_eq_some_iff.mp hi).1
      obtain rfl : i = j := (List.getElem?_inj hlt inv.os.fds.of_map).mp (hi.trans hc.symm)
      exact hin
    · cases hi

theorem serverSent_all (inv : TableInv sock s)
    (hsend : commsSendOpt s.h msg opt ret = some (h', calls, r))
    (hcid : opt.cid.toNat = commsSendToAllClients) :
    (r = true ↔ ∀ j < s.os.conns.length, 0 < ret j) ∧
    ∀ j c, s.os.conns[j]? = some c → (serverSent s msg opt.cid ret calls r).bytes c.id =
      if ∀ i < j, 0 < ret i then msg.take (ret j).toNat else [] := by
  have hle := inv.isServer.count_le
  have hcount := inv.isServer.count_pos
  have hlen := inv.count_eq
  have hzero : ∀ j, 1 - 1 + j = j := fun j => Nat.zero_add j
  rw [commsSendOpt_server inv.isServer, if_neg (by rw [hcid]; decide), if_neg (not_not.mpr hcid),
    ← hlen] at hsend
  rcases sendAll_spec s.h msg ret 1 s.os.conns.length le_rfl (by omega) with
    ⟨hall, hsent⟩ | ⟨m, hm, hbefore, hstop, g, hsent⟩
  · cases hsend.symm.trans hsent
    simp only [hzero] at hall
    refine ⟨iff_of_true rfl hall, fun j c hc => ?_⟩
    have hj := (List.getElem?_eq_some_iff.mp hc).1
    rw [serverSent_bytes inv (List.mem_of_getElem? hc), handed_sendsFrom inv le_rfl hc, if_pos hj,
      if_pos fun i hi => hall i (hi.trans hj)]
  · cases hsend.symm.trans hsent
    simp only [hzero] at hbefore hstop
    refine ⟨iff_of_false Bool.false_ne_true fun hall => absurd (hall m hm) (not_lt.mpr hstop),
      fun j c hc => ?_⟩
    rw [serverSent_bytes inv (List.mem_of_getElem? hc), handed_sendsFrom inv hm hc]
    by_cases hj : j < m + 1
    · rw [if_pos hj, if_pos fun i hi => hbefore i (by omega)]
    · rw [if_neg hj, if_neg fun hall => absurd (hall m (by omega)) (not_lt.mpr hstop)]

/-- **Whom a call sends to.** -/
theorem serverSent_right (inv : TableInv sock s)
    (hsend : commsSendOpt s.h msg opt ret = some (h', calls, r)) :
    (serverSent s msg opt.cid ret calls r).Right :=
  ⟨fun hcid _ hc => serverSent_one inv hsend hcid hc, fun hcid => serverSent_all inv hsend hcid⟩

theorem TableInv.send (inv : TableInv sock s)
    (hsend : commsSendOpt s.h msg opt ret = some (h', calls, r)) :
    TableInv sock ⟨h', s.os.calls calls⟩ := by
  obtain ⟨hsame, hcalls⟩ := commsSendOpt_frame inv.isServer hsend
  refine ⟨inv.toServerInv.serverStep (.send msg opt ret hsend), ?_, ?_⟩
  · rw [hsame.clients]
    exact inv.allLive
  · rw [hsame.slot]
    exact inv.slot_zero

end Call

/-! ## The server and its clients -/

/-- The server, the calls of its `CommsSend`, and the client of each connection by its
number. -/
structure Downlink where
  server : Server
  sends : List ServerSend
  clients : ℕ → Session

namespace Downlink

def init (h : Commh) (sock : ℤ) (g : ℕ → Commh) : Downlink :=
  ⟨Server.init h sock, [], fun id => Session.init (g id)⟩

def sent (d : Downlink) (id : ℕ) : List UInt8 := d.sends.flatMap (·.bytes id)

/-- What the server's socket took and the client's has not got. -/
def onWire (d : Downlink) (id : ℕ) : List UInt8 :=
  (d.sent id).drop (d.clients id).incoming.sent.length

def setClient (d : Downlink) (id : ℕ) (s : Session) : Downlink :=
  { d with clients := Function.update d.clients id s }

@[simp] theorem setClient_self (d : Downlink) (id : ℕ) (s : Session) :
    (d.setClient id s).clients id = s := Function.update_self ..

@[simp] theorem setClient_of_ne {id j : ℕ} (hj : j ≠ id) (d : Downlink) (s : Session) :
    (d.setClient id s).clients j = d.clients j := Function.update_of_ne hj ..

@[simp] theorem setClient_setClient (d : Downlink) (id : ℕ) (s s' : Session) :
    (d.setClient id s).setClient id s' = d.setClient id s' := by
  rw [setClient, setClient, Function.update_idem, setClient]

/-- A step of the server's table, a call of its `CommsSend`, a step of a client or of a
wire; `server` is the server's address, and `socks` are the clients' sockets. -/
inductive Step (server : BitVec 32 × BitVec 16) (socks : ℕ → ℤ) : Downlink → Downlink → Prop
  | table {d : Downlink} {s : Server} (step : TableStep d.server s) :
      Step server socks d { d with server := s }
  | send {d : Downlink} {h : Commh} {calls : List OsCall} {r : Bool} (msg : List UInt8)
      (opt : CommsSendOpt) (ret : ℕ → ℤ)
      (hcall : commsSendOpt d.server.h msg opt ret = some (h, calls, r)) :
      Step server socks d { d with
        server := ⟨h, d.server.os.calls calls⟩
        sends := d.sends ++ [serverSent d.server msg opt.cid ret calls r] }
  | client {d : Downlink} {s : Session} (id : ℕ) (step : Session.Step (socks id) (d.clients id) s)
      -- bytes come from the wires only
      (hsent : s.incoming.sent = (d.clients id).incoming.sent) :
      Step server socks d (d.setClient id s)
  | wire {d : Downlink} (id : ℕ) (bytes : List UInt8) (hpeer : (d.clients id).peer = some server)
      (hopen : (d.clients id).incoming.shut = false) (hbytes : bytes <+: d.onWire id) :
      Step server socks d (d.setClient id
        { d.clients id with incoming := (d.clients id).incoming.send bytes })

end Downlink

structure DownlinkInv (sock : ℤ) (socks : ℕ → ℤ) (d : Downlink) : Prop where
  table : TableInv sock d.server
  clients : ∀ id, SessionInv (socks id) (d.clients id)
  sends : ∀ x ∈ d.sends, x.Right
  wires : ∀ id, (d.clients id).incoming.sent <+: d.sent id

section Step

variable {sock : ℤ} {socks : ℕ → ℤ} {server : BitVec 32 × BitVec 16} {d d' : Downlink}

theorem DownlinkInv.send (inv : DownlinkInv sock socks d) {h : Commh} {calls : List OsCall} {r : Bool}
    {msg : List UInt8} {opt : CommsSendOpt} {ret : ℕ → ℤ}
    (hcall : commsSendOpt d.server.h msg opt ret = some (h, calls, r)) :
    DownlinkInv sock socks { d with
      server := ⟨h, d.server.os.calls calls⟩
      sends := d.sends ++ [serverSent d.server msg opt.cid ret calls r] } := by
  refine ⟨inv.table.send hcall, inv.clients, fun x hx => ?_, fun id => ?_⟩
  · rcases List.mem_append.mp hx with hx | hx
    · exact inv.sends x hx
    · rw [List.mem_singleton.mp hx]
      exact serverSent_right inv.table hcall
  · rw [Downlink.sent, List.flatMap_append]
    exact (inv.wires id).trans (List.prefix_append _ _)

theorem DownlinkInv.setClient (inv : DownlinkInv sock socks d) {id : ℕ} {s : Session}
    (hs : SessionInv (socks id) s) (hsent : s.incoming.sent <+: d.sent id) :
    DownlinkInv sock socks (d.setClient id s) := by
  refine ⟨inv.table, fun j => ?_, inv.sends, fun j => ?_⟩
  · by_cases hj : j = id
    · subst hj
      rw [Downlink.setClient_self]
      exact hs
    · rw [Downlink.setClient_of_ne hj]
      exact inv.clients j
  · by_cases hj : j = id
    · subst hj
      rw [Downlink.setClient_self]
      exact hsent
    · rw [Downlink.setClient_of_ne hj]
      exact inv.wires j

/-- **Every step keeps both sides and the wires.** -/
theorem Downlink.Step.inv (step : Downlink.Step server socks d d') (hsocks : ∀ id, 0 ≤ socks id)
    (inv : DownlinkInv sock socks d) : DownlinkInv sock socks d' := by
  cases step with
  | table step => exact ⟨inv.table.tableStep step, inv.clients, inv.sends, inv.wires⟩
  | send msg opt ret hcall => exact inv.send hcall
  | client id step hsent =>
    refine inv.setClient (step.inv (hsocks id) (inv.clients id)) ?_
    rw [hsent]
    exact inv.wires id
  | wire id bytes hpeer hopen hbytes =>
    refine inv.setClient ((inv.clients id).serverSends bytes) ?_
    obtain ⟨more, hmore⟩ := inv.wires id
    rw [Downlink.onWire, ← hmore, List.drop_left] at hbytes
    rw [← hmore]
    exact (List.prefix_append_right_inj _).mpr hbytes

theorem DownlinkInv.delivered (inv : DownlinkInv sock socks d) (id : ℕ) :
    (d.clients id).delivered <+: d.sent id := by
  have htaken := (inv.clients id).delivered
  have hprefix : (d.clients id).delivered <+: (d.clients id).incoming.sent :=
    (List.prefix_append _ _).trans (htaken ▸ List.take_prefix _ _)
  exact hprefix.trans (inv.wires id)

/-- Nothing is on the wire, nothing waits and the listener has nothing in hand. -/
theorem DownlinkInv.delivered_all (inv : DownlinkInv sock socks d) {id : ℕ}
    (hwire : d.onWire id = []) (htaken : (d.clients id).incoming.pending = [])
    (hhand : (d.clients id).phase.inHand = []) : (d.clients id).delivered = d.sent id := by
  obtain ⟨more, hmore⟩ := inv.wires id
  have hdelivered := (inv.clients id).delivered
  rw [Downlink.onWire, ← hmore, List.drop_left] at hwire
  rw [Stream.pending, List.drop_eq_nil_iff] at htaken
  rw [hhand, List.append_nil, List.take_of_length_le htaken] at hdelivered
  rw [hdelivered, ← hmore, hwire, List.append_nil]

end Step

/-! ## Whole runs -/

/-- **From the server's `CommsSend` to the clients' callbacks.**  In every run of a server and
of any number of clients: what a client's callback has got is a prefix of what was sent to
its connection, and all of it once nothing is on the wire, nothing waits and nothing is in
hand.  A `CommsSend` with the cid of a client sends what `send` takes to this client and
nothing to the others, and returns `true` exactly if that is at least a byte; one for all
clients sends to each, in the order of their cids, up to the first whose `send` takes
nothing, and returns `true` exactly if there is none.  A callback that knows the server's
address shows it. -/
theorem tcp_downlink {h₀ h : Commh} {opt : CommsOpt} {env : InitEnv} {calls : List OsCall}
    (hserver : commsTcpserverInitOpt h₀ opt env = some (h, calls, true)) {g : ℕ → Commh}
    {socks : ℕ → ℤ}
    (hclients : ∀ id, ∃ g₀ opt env calls, env.socket = socks id ∧
      commsTcpclientInitOpt g₀ opt env = some (g id, calls, true))
    {server : BitVec 32 × BitVec 16} {d : Downlink}
    (hreach : Relation.ReflTransGen (Downlink.Step server socks) (Downlink.init h env.socket g) d) :
    (∀ id, (d.clients id).delivered <+: d.sent id) ∧
    (∀ id, d.onWire id = [] → (d.clients id).incoming.pending = [] →
      (d.clients id).phase.inHand = [] → (d.clients id).delivered = d.sent id) ∧
    (∀ x ∈ d.sends, x.Right) ∧
    ∀ id, ∀ x ∈ (d.clients id).receipts, x.Right (d.clients id).peer := by
  obtain ⟨hsocks, hsessions⟩ := clients_init hclients
  have hinit : DownlinkInv env.socket socks (Downlink.init h env.socket g) :=
    ⟨table_inv hserver .refl, hsessions, fun x hx => (by cases hx), fun id => List.nil_prefix⟩
  have inv := Machine.reachable_invariant (fun _ _ inv step => step.inv hsocks inv) hreach hinit
  exact ⟨inv.delivered, fun id => inv.delivered_all, inv.sends, fun id => (inv.clients id).receipts⟩

/-- A run of a client, without bytes from the wire. -/
theorem Downlink.client_run {server : BitVec 32 × BitVec 16} {socks : ℕ → ℤ} {d : Downlink} {id : ℕ}
    {s : Session}
    (hrun : Relation.ReflTransGen (fun s s' => Session.Step (socks id) s s' ∧
      s'.incoming.sent = s.incoming.sent) (d.clients id) s) :
    Relation.ReflTransGen (Downlink.Step server socks) d (d.setClient id s) := by
  induction hrun with
  | refl =>
    rw [Downlink.setClient, Function.update_eq_self]
  | @tail s s' hrun hstep ih =>
    obtain ⟨step, hsent⟩ := hstep
    rw [← Downlink.setClient_self d id s] at step hsent
    have hboth := @Downlink.Step.client server socks (d.setClient id s) s' id step hsent
    rw [Downlink.setClient_setClient] at hboth
    exact ih.tail hboth

/-- A connected client with two bytes that wait, and with one of them at the callback. -/
def twoWait : Session := { connectedSession with incoming := ⟨[5, 6], 0, false⟩ }

def oneGot : Session :=
  { connectedSession with
    incoming := ⟨[5, 6], 1, false⟩
    receipts := [⟨⟨[5], ⟨0, 80, 1⟩, 0⟩, true⟩] }

theorem oneGot_reachable : Relation.ReflTransGen
    (fun s s' => Session.Step 3 s s' ∧ s'.incoming.sent = s.incoming.sent) twoWait oneGot := by
  have hread := @Session.Step.read 3 twoWait _ rfl rfl connectedClient_read
  have hrecv := @Session.Step.recv 3 { twoWait with phase := .holding 3 } 3 (.data [5]) rfl
    fun _ => ⟨by decide, [6], rfl⟩
  have hcallback := @Session.Step.callback 3 { twoWait with
    phase := .got [5], incoming := ⟨[5, 6], 1, false⟩ } [5] _ rfl (connectedClient_callback [5])
  exact .tail (.tail (.tail .refl ⟨hread, rfl⟩) ⟨hrecv, rfl⟩) ⟨hcallback, rfl⟩

theorem oneClient_send : commsSendOpt oneClient.h [5, 6] ⟨none, 0, 1⟩ (fun _ => 2)
    = some (oneClient.h, [.send 4 [5, 6]], true) := by
  have hslot : oneClient.h.slot 1 = (4, peerA) := by decide +kernel
  have hremote : remoteSlot oneClient.h ⟨none, 0, 1⟩ = 1 := rfl
  rw [commsSendOpt_tcp_one rfl (by decide), if_neg (by decide), hremote, sendOne,
    oneClient.h.slot?_eq (by decide), hslot]
  rfl

def oneServed (clients : ℕ → Session) : Downlink :=
  ⟨oneClient, [serverSent oneClient [5, 6] 1 (fun _ => 2) [.send 4 [5, 6]] true], clients⟩

/-- The server sends two bytes to its only client, whose callback has one of them. -/
theorem tcp_downlink_first :
    ∃ d : Downlink, (d.clients 0).delivered = [5] ∧ d.sent 0 = [5, 6] ∧
      ∀ id, (d.clients id).delivered <+: d.sent id := by
  have fresh : (Server.init newServer 3).os.Fresh 4 := ⟨by decide, by decide, by decide⟩
  have haccept := @Downlink.Step.table (1, 80) (fun _ => 3)
    (Downlink.init newServer 3 fun _ => newClient) oneClient (.accept 4 peerA fresh)
  have hsend := @Downlink.Step.send (1, 80) (fun _ => 3)
    ⟨oneClient, [], fun _ => Session.init newClient⟩ _ _ _ [5, 6] ⟨none, 0, 1⟩ (fun _ => 2)
    oneClient_send
  have hconnected := @Downlink.client_run (1, 80) (fun _ => 3) 
    (oneServed fun _ => Session.init newClient) 0 _
    connectedSession_reachable
  have hsent : (oneServed fun _ => Session.init newClient).sent 0 = [5, 6] := by decide +kernel
  have hwire := @Downlink.Step.wire (1, 80) (fun _ => 3)
    ((oneServed fun _ => Session.init newClient).setClient 0 connectedSession) 0 [5, 6] rfl rfl
    ⟨[], by rw [Downlink.onWire]; exact hsent.symm⟩
  have hgot := @Downlink.client_run (1, 80) (fun _ => 3)
    ((oneServed fun _ => Session.init newClient).setClient 0 twoWait) 0 _ oneGot_reachable
  rw [Downlink.setClient_setClient] at hwire hgot
  have hserved := ((Relation.ReflTransGen.refl.tail haccept).tail hsend).trans hconnected
  exact ⟨(oneServed fun _ => Session.init newClient).setClient 0 oneGot, rfl, hsent,
    (tcp_downlink newServer_init (fun _ => ⟨.zero, defaultOpt, okEnv, _, rfl, newClient_init⟩)
      ((hserved.tail hwire).trans hgot)).1⟩

end DataCommons.Comms
