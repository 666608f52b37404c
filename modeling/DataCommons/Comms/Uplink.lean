import DataCommons.Comms.Session

/-!
# From the clients' `CommsSend` to the server's callback, over TCP

A server and any number of clients, each with its users and its listener.  What a client's
socket took reaches the server's stream of its connection later, in pieces of any size.

* `Uplink.Step.inv`: every step keeps both sides and the wires between them;
* `tcp_uplink`: what the callback gets from a connection is what its client has sent.
-/

namespace DataCommons.Comms

open Commh

/-- The server with its streams, and the client of each connection by its number. -/
structure Uplink where
  net : Net
  clients : ℕ → Session

namespace Uplink

def init (h : Commh) (sock : ℤ) (g : ℕ → Commh) : Uplink :=
  ⟨Net.init h sock, fun id => Session.init (g id)⟩

/-- What a client's socket took and the server's has not got. -/
def onWire (u : Uplink) (id : ℕ) : List UInt8 :=
  (u.clients id).outgoing.drop (u.net.streams id).sent.length

/-- A step of the server, of a client or of a wire; `server` is the server's address, and
`socks` are the clients' sockets. -/
inductive Step (server : BitVec 32 × BitVec 16) (socks : ℕ → ℤ) : Uplink → Uplink → Prop
  | server {u : Uplink} {x : Net} (step : NetStep u.net x)
      -- bytes come from the wires only
      (hsent : ∀ id, (x.streams id).sent = (u.net.streams id).sent) :
      Step server socks u { u with net := x }
  | client {u : Uplink} {s : Session} (id : ℕ) (step : Session.Step (socks id) (u.clients id) s) :
      Step server socks u { u with clients := Function.update u.clients id s }
  | wire {u : Uplink} (id : ℕ) (bytes : List UInt8) (hpeer : (u.clients id).peer = some server)
      (hopen : (u.net.streams id).shut = false) (hbytes : bytes <+: u.onWire id) :
      Step server socks u { u with net := u.net.update id ((u.net.streams id).send bytes) }

end Uplink

@[simp] theorem Net.update_streams_self (x : Net) (id : ℕ) (s : Stream) :
    (x.update id s).streams id = s := Function.update_self ..

@[simp] theorem Net.update_streams_of_ne {id j : ℕ} (hj : j ≠ id) (x : Net) (s : Stream) :
    (x.update id s).streams j = x.streams j := Function.update_of_ne hj ..

/-- What leaves a client's socket stays sent. -/
theorem Session.Step.outgoing_prefix {sock : ℤ} {s s' : Session} (step : Session.Step sock s s') :
    s.outgoing <+: s'.outgoing := by
  cases step with
  | send msg opt ret hret hpeer hcall => exact List.prefix_append _ _
  | _ => exact List.prefix_refl _

structure UplinkInv (sock : ℤ) (socks : ℕ → ℤ) (u : Uplink) : Prop where
  net : NetInv sock u.net
  clients : ∀ id, SessionInv (socks id) (u.clients id)
  wires : ∀ id, (u.net.streams id).sent <+: (u.clients id).outgoing

section Step

variable {sock : ℤ} {socks : ℕ → ℤ} {server : BitVec 32 × BitVec 16} {u u' : Uplink}

theorem UplinkInv.client (inv : UplinkInv sock socks u) (hsocks : ∀ id, 0 ≤ socks id) {id : ℕ}
    {s : Session} (step : Session.Step (socks id) (u.clients id) s) :
    UplinkInv sock socks { u with clients := Function.update u.clients id s } := by
  refine ⟨inv.net, fun j => ?_, fun j => ?_⟩
  · by_cases hj : j = id
    · subst hj
      dsimp only
      rw [Function.update_self]
      exact step.inv (hsocks j) (inv.clients j)
    · dsimp only
      rw [Function.update_of_ne hj]
      exact inv.clients j
  · by_cases hj : j = id
    · subst hj
      dsimp only
      rw [Function.update_self]
      exact (inv.wires j).trans step.outgoing_prefix
    · dsimp only
      rw [Function.update_of_ne hj]
      exact inv.wires j

theorem UplinkInv.wire (inv : UplinkInv sock socks u) {id : ℕ} {bytes : List UInt8}
    (hopen : (u.net.streams id).shut = false) (hbytes : bytes <+: u.onWire id) :
    UplinkInv sock socks { u with net := u.net.update id ((u.net.streams id).send bytes) } := by
  refine ⟨inv.net.step (.send id bytes hopen), inv.clients, fun j => ?_⟩
  by_cases hj : j = id
  · subst hj
    obtain ⟨more, hmore⟩ := inv.wires j
    rw [Uplink.onWire, ← hmore, List.drop_left] at hbytes
    dsimp only
    rw [Net.update_streams_self, Stream.send, ← hmore]
    exact (List.prefix_append_right_inj _).mpr hbytes
  · dsimp only
    rw [Net.update_streams_of_ne hj]
    exact inv.wires j

/-- **Every step keeps both sides and the wires.** -/
theorem Uplink.Step.inv (step : Uplink.Step server socks u u') (hsocks : ∀ id, 0 ≤ socks id)
    (inv : UplinkInv sock socks u) : UplinkInv sock socks u' := by
  cases step with
  | server step hsent =>
    refine ⟨inv.net.step step, inv.clients, fun id => ?_⟩
    rw [hsent]
    exact inv.wires id
  | client id step => exact inv.client hsocks step
  | wire id bytes hpeer hopen hbytes => exact inv.wire hopen hbytes

theorem UplinkInv.delivered (inv : UplinkInv sock socks u) (id : ℕ) :
    u.net.delivered id <+: (u.clients id).sends.flatMap ClientSend.bytes := by
  rw [(inv.net.stream id).delivered, ← (inv.clients id).outgoing]
  exact (List.take_prefix _ _).trans (inv.wires id)

theorem UplinkInv.delivered_all (inv : UplinkInv sock socks u) {id : ℕ} (hwire : u.onWire id = [])
    (htaken : (u.net.streams id).pending = []) :
    u.net.delivered id = (u.clients id).sends.flatMap ClientSend.bytes := by
  obtain ⟨more, hmore⟩ := inv.wires id
  rw [Uplink.onWire, ← hmore, List.drop_left] at hwire
  rw [Stream.pending, List.drop_eq_nil_iff] at htaken
  rw [(inv.net.stream id).delivered, ← (inv.clients id).outgoing, ← hmore, hwire, List.append_nil]
  exact List.take_of_length_le htaken

end Step

/-! ## Whole runs -/

theorem clients_init {g : ℕ → Commh} {socks : ℕ → ℤ}
    (hclients : ∀ id, ∃ g₀ opt env calls, env.socket = socks id ∧
      commsTcpclientInitOpt g₀ opt env = some (g id, calls, true)) :
    (∀ id, 0 ≤ socks id) ∧ ∀ id, SessionInv (socks id) (Session.init (g id)) := by
  have hinit : ∀ id, IsClient (socks id) (g id) ∧ (g id).clientCount = 0 ∧ 0 ≤ socks id := by
    intro id
    obtain ⟨g₀, opt, env, calls, hsock, hg⟩ := hclients id
    exact hsock ▸ isClient_init hg
  exact ⟨fun id => (hinit id).2.2, fun id => sessionInv_init (hinit id).1 (hinit id).2.1⟩

/-- **From `CommsSend` to the callback, over TCP.**  In every run of a server with a callback
and of any number of clients: what the callback has got from a connection is a prefix of
the bytes that `send` took in those calls of its client's `CommsSend` that returned `true`,
in the order of the calls, and all of them once nothing is on the wire and nothing waits at
the server; each piece has 1 to 2048 bytes. -/
theorem tcp_uplink {h₀ h : Commh} {opt : CommsOpt} {env : InitEnv} {calls : List OsCall}
    (hserver : commsTcpserverInitOpt h₀ opt env = some (h, calls, true)) (hcb : opt.recvcb = true)
    {g : ℕ → Commh} {socks : ℕ → ℤ}
    (hclients : ∀ id, ∃ g₀ opt env calls, env.socket = socks id ∧
      commsTcpclientInitOpt g₀ opt env = some (g id, calls, true))
    {server : BitVec 32 × BitVec 16} {u : Uplink}
    (hreach : Relation.ReflTransGen (Uplink.Step server socks) (Uplink.init h env.socket g) u) :
    (∀ id, u.net.delivered id <+: (u.clients id).sends.flatMap ClientSend.bytes) ∧
    (∀ id, u.onWire id = [] → (u.net.streams id).pending = [] →
      u.net.delivered id = (u.clients id).sends.flatMap ClientSend.bytes) ∧
    ∀ x ∈ u.net.receipts, x.delivery.msg ≠ [] ∧ x.delivery.msg.length ≤ recvSize := by
  obtain ⟨hsocks, hsessions⟩ := clients_init hclients
  have hinit : UplinkInv env.socket socks (Uplink.init h env.socket g) :=
    ⟨netInv_init hserver hcb, hsessions, fun id => List.nil_prefix⟩
  have inv := Machine.reachable_invariant (fun _ _ inv step => step.inv hsocks inv) hreach hinit
  refine ⟨inv.delivered, fun id => inv.delivered_all, fun x hx => ?_⟩
  have hsound := inv.net.receipts x hx
  exact ⟨List.ne_nil_of_length_pos hsound.length_pos, hsound.length_le⟩

theorem firstTaken_sent (id : ℕ) : (firstTaken.streams id).sent = (twoBytes 0 id).sent := by
  by_cases hid : id = 0
  · subst hid
    rfl
  · exact congrArg Stream.sent (Function.update_of_ne hid ..)

theorem Uplink.client_run {server : BitVec 32 × BitVec 16} {socks : ℕ → ℤ} {x : Net}
    {clients : ℕ → Session} {id : ℕ} {s : Session}
    (hrun : Relation.ReflTransGen (Session.Step (socks id)) (clients id) s) :
    Relation.ReflTransGen (Uplink.Step server socks) ⟨x, clients⟩
      ⟨x, Function.update clients id s⟩ := by
  induction hrun with
  | refl => rw [Function.update_eq_self]
  | @tail s s' hrun step ih =>
    have hstep : Session.Step (socks id) (Function.update clients id s id) s' := by
      rw [Function.update_self]
      exact step
    have hboth := @Uplink.Step.client server socks ⟨x, Function.update clients id s⟩ s' id hstep
    dsimp only at hboth
    rw [Function.update_idem] at hboth
    exact ih.tail hboth

def sentTwo : Session :=
  { connectedSession with outgoing := [7, 8], sends := [⟨[7, 8], 0, 2, true⟩] }

theorem sentTwo_reachable :
    Relation.ReflTransGen (Session.Step 3) (Session.init newClient) sentTwo := by
  have hsend := @Session.Step.send 3 connectedSession _ _ _ [7, 8] ⟨none, 0, 0⟩ (fun _ => 2) le_rfl
    nofun (connectedClient_send [7, 8] (by decide))
  exact (connectedSession_reachable.lift id fun _ _ step => step.1).tail hsend

def oneSent : ℕ → Session := Function.update (fun _ => Session.init newClient) 0 sentTwo

/-- The first client sends two bytes, and the callback has one of them. -/
theorem tcp_uplink_first :
    ∃ u : Uplink, u.net.delivered 0 = [7] ∧
      (u.clients 0).sends.flatMap ClientSend.bytes = [7, 8] ∧
      ∀ id, u.net.delivered id <+: (u.clients id).sends.flatMap ClientSend.bytes := by
  have hsent := @Uplink.client_run (1, 80) (fun _ => 3) (Net.init newServer 3)
    (fun _ => Session.init newClient) 0 _ sentTwo_reachable
  have fresh : (System.init newServer 3).server.os.Fresh 4 := ⟨by decide, by decide, by decide⟩
  have hslot : listenerRead oneClient.h 1 2 = some (.holding 1 2 4 peerA) := by decide +kernel
  have howner : (firstHeld (twoBytes 0)).owner 4 = some ⟨0, 4, peerA⟩ := by decide +kernel
  have hanswers : (twoBytes 0 0).Answers (.data [7]) := ⟨by decide, [8], rfl⟩
  have hone : NetStep ⟨System.init newServer 3, twoBytes 0, none, [], []⟩
      ⟨⟨oneClient, .top, none, false, []⟩, twoBytes 0, none, [], []⟩ := .accept 4 peerA fresh
  have hcount : NetStep ⟨⟨oneClient, .top, none, false, []⟩, twoBytes 0, none, [], []⟩
      ⟨⟨oneClient, .scan 1 2, none, false, []⟩, twoBytes 0, none, [], []⟩ := .count rfl rfl
  have hread : NetStep ⟨⟨oneClient, .scan 1 2, none, false, []⟩, twoBytes 0, none, [], []⟩
      (firstHeld (twoBytes 0)) := .read rfl hslot
  have hrecv : NetStep (firstHeld (twoBytes 0)) firstTaken := .recv _ rfl howner hanswers
  have hwire := @Uplink.Step.wire (1, 80) (fun _ => 3) ⟨Net.init newServer 3, oneSent⟩ 0 [7, 8] rfl rfl
    ⟨[], rfl⟩
  have hrun : Relation.ReflTransGen (Uplink.Step (1, 80) fun _ => 3)
      (Uplink.init newServer 3 fun _ => newClient) ⟨firstTaken, oneSent⟩ :=
    .tail (.tail (.tail (.tail (.tail hsent hwire)
      (.server hone fun _ => rfl)) (.server hcount fun _ => rfl)) (.server hread fun _ => rfl))
      (.server hrecv firstTaken_sent)
  exact ⟨⟨firstTaken, oneSent⟩, rfl, rfl, (tcp_uplink newServer_init rfl
    (fun _ => ⟨.zero, defaultOpt, okEnv, _, rfl, newClient_init⟩) hrun).1⟩

end DataCommons.Comms
