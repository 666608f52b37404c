import DataCommons.Lib.ArrivalList
import DataCommons.Comms.Server

/-!
# What a cid denotes

A cid is a slot number.  `CommsDisconnect` moves the later slots down, and a freed
slot holds the descriptor 0, which `CommsSend` does not take for free.

* `denotes_iff`: the one cid that denotes a connected client;
* `first_cid_denotes_iff`: how the cid of a client moves during a run;
* `sendsSafely_iff`: the cids for which `CommsSend` keeps to the connected clients.
-/

namespace DataCommons.Comms

open Commh ArrivalList

/-! ## The cid of a client -/

/-- `cid` denotes connection `c`: `CommsSend` sends to it, and `CommsDisconnect`
closes it and nothing else. -/
def Denotes (s : Server) (cid : BitVec 16) (c : Conn) : Prop :=
  (∀ msg ip port ret, ∃ h' r,
    commsSendOpt s.h msg ⟨ip, port, cid⟩ ret = some (h', [.send c.fd msg], r)) ∧
  ∃ h', commsDisconnect s.h cid = some (h', [.shutdown c.fd, .close c.fd], true) ∧
    (s.os.close c.fd).conns = s.os.conns.erase c

/-- The single `send` behind a cid of at least 1. -/
theorem commsSendOpt_one {h : Commh} (hs : IsServer h) {cid : BitVec 16} (hk : 1 ≤ cid.toNat)
    (hcid : cid.toNat ≠ commsSendToAllClients) (msg : List UInt8) (ip : Option (BitVec 32))
    (port : BitVec 16) (ret : ℕ → ℤ) :
    commsSendOpt h msg ⟨ip, port, cid⟩ ret = sendOne h msg ret cid.toNat := by
  rw [commsSendOpt_server hs]
  dsimp only
  rw [if_neg (by omega), if_pos hcid]

/-- The `send` of a cid below the count of a live slot. -/
theorem commsSendOpt_live {h : Commh} (hs : IsServer h) {cid : BitVec 16} (hk : 1 ≤ cid.toNat)
    (hk' : cid.toNat < h.clientCount) (hl : live (h.slot cid.toNat) = true) (msg : List UInt8)
    (ip : Option (BitVec 32)) (port : BitVec 16) (ret : ℕ → ℤ) :
    ∃ h' r, commsSendOpt h msg ⟨ip, port, cid⟩ ret =
      some (h', [.send (h.slot cid.toNat).1 msg], r) := by
  have hle := hs.count_le
  have hpos : 0 < (h.slot cid.toNat).1 := live_iff.mp hl
  have hall : cid.toNat ≠ commsSendToAllClients := by
    simp only [commsMaxClients, commsSendToAllClients] at hle ⊢
    omega
  rw [commsSendOpt_one hs hk hall, sendOne, slot?_eq h (by omega)]
  dsimp only
  rw [if_neg (by omega)]
  split
  · exact ⟨_, _, rfl⟩
  · exact ⟨_, _, rfl⟩

/-- **A connected client is denoted by its position in the list of connections.** -/
theorem denotes_iff {sock : ℤ} {s : Server} (inv : TableInv sock s) {c : Conn}
    (hc : c ∈ s.os.conns) (cid : BitVec 16) :
    Denotes s cid c ↔ cid.toNat = (before Conn.id c.id s.os.conns).length + 1 := by
  have hordered : Ordered Conn.id s.os.conns := inv.os.ordered
  have hpos := getElem?_earlier hordered hc
  have hcount := inv.count_eq
  have hlt := (List.getElem?_eq_some_iff.mp hpos).1
  constructor
  · rintro ⟨-, h', hd, hos⟩
    have hdis := inv.disconnect cid
    split at hdis
    · rename_i hr
      obtain ⟨g, hd', -⟩ := hdis
      obtain ⟨d, hget, hentry⟩ := inv.slot_entry hr.1 hr.2
      have hmem : d ∈ s.os.conns := List.mem_of_getElem? hget
      rw [hd', hentry] at hd
      have hfd : d.fd = c.fd := by
        simp only [Conn.entry, Option.some.injEq, Prod.mk.injEq, List.cons.injEq,
          OsCall.shutdown.injEq] at hd
        exact hd.2.1.1
      obtain rfl : d = c := List.inj_on_of_nodup_map inv.os.fds hmem hc hfd
      have hidx := (List.getElem?_inj hlt hordered.nodup).mp (hpos.trans hget.symm)
      omega
    · obtain ⟨g, hd', -⟩ := hdis
      rw [hd'] at hd
      cases hd
  · intro hk
    have hk' : cid.toNat < s.h.clientCount := by omega
    obtain ⟨d, hget, hentry⟩ := inv.slot_entry (by omega : 1 ≤ cid.toNat) hk'
    rw [hk, Nat.add_sub_cancel, hpos] at hget
    obtain rfl : c = d := Option.some.inj hget
    have hlive : live (s.h.slot cid.toNat) = true := by
      rw [hentry]
      exact live_iff.mpr (inv.os.pos c hc)
    have hdis := inv.disconnect cid
    rw [if_pos ⟨by omega, hk'⟩] at hdis
    obtain ⟨h', hd, -, -, -, hos⟩ := hdis
    have hfd : (s.h.slot cid.toNat).1 = c.fd := by rw [hentry, Conn.entry]
    rw [hfd] at hd hos
    refine ⟨fun msg ip port ret => ?_, h', hd, hos.trans ?_⟩
    · have hsend := commsSendOpt_live inv.isServer (by omega) hk' hlive msg ip port ret
      rw [hfd] at hsend
      exact hsend
    · have hfd' := List.getElem?_eq_some_iff.mp hpos
      rw [hk, Nat.add_sub_cancel, ← hordered.nodup.erase_getElem _ hlt, hfd'.2]

/-! ## The cid over a run -/

/-- One step: clients leave from anywhere and arrive behind all others. -/
theorem ServerInv.later_tableStep {s t : Server} (inv : ServerInv s) (step : TableStep s t) :
    s.os.next ≤ t.os.next ∧ Later Conn.id s.os.next s.os.conns t.os.conns := by
  cases step with
  | accept cs cli fresh =>
    rcases commsAccepter_spec inv.isServer cs cli fresh.1 with ⟨-, h', hacc, -⟩ | ⟨-, hacc⟩
    · rw [Server.accept, hacc]
      exact ⟨Nat.le_succ _, Later.arrive le_rfl⟩
    · obtain ⟨hclose, -⟩ := (inv.os.accept cli fresh).close s.os.conns [] rfl
      rw [Server.accept, hacc]
      change _ ≤ ((s.os.accept cs cli).close cs).next ∧
        Later _ _ _ ((s.os.accept cs cli).close cs).conns
      rw [hclose, List.append_nil]
      exact ⟨Nat.le_succ _, Later.refl _ _ _⟩
  | acceptFail errno =>
    obtain ⟨loop, hacc⟩ := commsAccepter_fail s.h errno
    rw [hacc]
    exact ⟨le_rfl, Later.refl _ _ _⟩
  | disconnect cid hd =>
    rcases inv.disconnect_cases cid with
      ⟨h', bef, c, after, hd', -, -, -, -, hconns, -, hos, -⟩ | ⟨h', hd', -⟩
    · cases hd.symm.trans hd'
      have hnext : (s.os.close c.fd).next = s.os.next := by
        rw [(inv.os.close bef after hconns).1]
      change _ ≤ (s.os.close c.fd).next ∧ Later _ _ _ (s.os.close c.fd).conns
      rw [hnext, hos, hconns]
      exact ⟨le_rfl, Later.of_sublist (List.Sublist.append_left (List.sublist_cons_self c after) bef)⟩
    · cases hd.symm.trans hd'
      exact ⟨le_rfl, Later.refl _ _ _⟩

theorem later_of_run {sock : ℤ} {s t : Server} (inv : TableInv sock s)
    (hrun : Relation.ReflTransGen TableStep s t) :
    TableInv sock t ∧ s.os.next ≤ t.os.next ∧ Later Conn.id s.os.next s.os.conns t.os.conns := by
  induction hrun with
  | refl => exact ⟨inv, le_rfl, Later.refl _ _ _⟩
  | tail _ step ih =>
    obtain ⟨inv', hnext, hlater⟩ := ih
    obtain ⟨hnext', hlater'⟩ := inv'.later_tableStep step
    exact ⟨inv'.tableStep step, hnext.trans hnext', Later.trans hnext hlater hlater'⟩

/-- **How the cid of a client moves.**  A client is accepted into slot
`client_count` of state `s₀`.  While it is connected, exactly one cid denotes it:
that slot less the number of clients before it that have been disconnected. -/
theorem first_cid_denotes_iff {h₀ h : Commh} {opt : CommsOpt} {env : InitEnv}
    {calls : List OsCall} (hinit : commsTcpserverInitOpt h₀ opt env = some (h, calls, true))
    {s₀ s : Server} (hrun₀ : Relation.ReflTransGen TableStep (Server.init h env.socket) s₀) {cs : ℤ}
    {cli : SockaddrIn} (fresh : s₀.os.Fresh cs) (room : s₀.h.clientCount < commsMaxClients)
    (hrun : Relation.ReflTransGen TableStep (s₀.accept cs cli) s)
    (hconn : ⟨s₀.os.next, cs, cli⟩ ∈ s.os.conns) (cid : BitVec 16) :
    ((s₀.accept cs cli).h.slot s₀.h.clientCount = (cs, cli)) ∧
    (Denotes s cid ⟨s₀.os.next, cs, cli⟩ ↔
      cid.toNat + (s₀.os.conns.filter (· ∉ s.os.conns)).length = s₀.h.clientCount) := by
  have inv₀ := table_inv hinit hrun₀
  have hstep : TableStep s₀ (s₀.accept cs cli) := .accept cs cli fresh
  obtain ⟨inv, -, hlater⟩ := later_of_run inv₀ (Relation.ReflTransGen.head hstep hrun)
  have hlen := earlier_length inv₀.os.ordered inv.os.ordered (fun c hc => inv₀.os.id_lt hc) hlater
  have hcount : s₀.os.conns.length + 1 = s₀.h.clientCount := by
    have hpos := inv₀.isServer.count_pos
    rw [inv₀.count_eq]
    omega
  refine ⟨?_, (denotes_iff inv hconn cid).trans (by dsimp only; omega)⟩
  have hacc : s₀.accept cs cli =
      ⟨{ s₀.h.setSlot s₀.h.clientCount (cs, cli) with clientCount := s₀.h.clientCount + 1 },
        s₀.os.accept cs cli⟩ := by
    rw [Server.accept, commsAccepter, if_neg (by omega)]
    rfl
  rw [hacc]
  exact (slot_setSlot _ _ _ _ room).trans (if_pos rfl)

theorem twoClients_disconnect :
    Relation.ReflTransGen TableStep twoClients (disconnectFirst twoClients) :=
  .tail .refl (disconnectFirst_step (by decide +kernel))

theorem first_cid_two : Denotes (disconnectFirst twoClients) 1 ⟨1, 5, peerB⟩ :=
  (first_cid_denotes_iff newServer_init oneClient_reachable fresh_peerB (by decide)
    twoClients_disconnect (by decide +kernel) 1).2.mpr (by decide +kernel)

/-- The second of two clients loses the cid 2 when the first one leaves. -/
theorem first_cid_not_kept :
    ¬ ∀ (s₀ s : Server) (cs : ℤ) (cli : SockaddrIn),
      Relation.ReflTransGen TableStep (Server.init newServer 3) s₀ → s₀.os.Fresh cs →
      s₀.h.clientCount < commsMaxClients →
      Relation.ReflTransGen TableStep (s₀.accept cs cli) s →
      ⟨s₀.os.next, cs, cli⟩ ∈ s.os.conns →
      Denotes s (BitVec.ofNat 16 s₀.h.clientCount) ⟨s₀.os.next, cs, cli⟩ := by
  intro hkept
  have hconn : ⟨1, 5, peerB⟩ ∈ (disconnectFirst twoClients).os.conns := by decide +kernel
  have hden : Denotes (disconnectFirst twoClients) 2 ⟨1, 5, peerB⟩ :=
    hkept oneClient _ 5 peerB oneClient_reachable fresh_peerB (by decide) twoClients_disconnect hconn
  have inv := (later_of_run (table_inv newServer_init twoClients_reachable) twoClients_disconnect).1
  exact absurd ((denotes_iff inv hconn 2).mp hden) (by decide +kernel)

/-! ## Sending to a cid -/

/-- `CommsSend` with `cid` sends only to the connected client in slot `cid`, and
with a cid that is no client's it returns `false` and sends nothing. -/
def SendsSafely (s : Server) (cid : BitVec 16) : Prop :=
  ∀ msg ip port ret, ∃ h' calls r,
    commsSendOpt s.h msg ⟨ip, port, cid⟩ ret = some (h', calls, r) ∧
    if 1 ≤ cid.toNat ∧ cid.toNat < s.h.clientCount then
      ∀ call ∈ calls, call = .send (s.h.slot cid.toNat).1 msg ∧
        ∃ c ∈ s.os.conns, c.entry = s.h.slot cid.toNat
    else calls = [] ∧ r = false

/-- Beyond the count nothing but a negative descriptor stops the `send`. -/
theorem not_sendsSafely {s : Server} (hs : IsServer s.h) {cid : BitVec 16}
    (hcid : cid.toNat ≠ commsSendToAllClients) (hk : s.h.clientCount ≤ cid.toNat)
    (hnonneg : cid.toNat < commsMaxClients → 0 ≤ (s.h.slot cid.toNat).1) :
    ¬ SendsSafely s cid := by
  intro hsafe
  have hpos := hs.count_pos
  obtain ⟨h', calls, r, hc, hrest⟩ := hsafe [] none 0 (fun _ => 0)
  rw [if_neg (by omega)] at hrest
  rw [commsSendOpt_one hs (by omega) hcid, sendOne] at hc
  by_cases hin : cid.toNat < commsMaxClients
  · rw [slot?_eq s.h hin] at hc
    dsimp only at hc
    rw [if_neg (by have := hnonneg hin; omega), if_pos le_rfl] at hc
    cases hc
    exact absurd hrest.1 (List.cons_ne_nil _ _)
  · rw [slot?_eq_none s.h (by omega)] at hc
    cases hc

theorem sendsSafely_of_neg {s : Server} (hs : IsServer s.h) {cid : BitVec 16}
    (hcid : cid.toNat ≠ commsSendToAllClients) (hk : 1 ≤ cid.toNat)
    (hin : cid.toNat < commsMaxClients) (hneg : (s.h.slot cid.toNat).1 < 0) :
    SendsSafely s cid := by
  intro msg ip port ret
  refine ⟨setError s.h .noRemoteProvided "comms_send__opt" 439, [], false, ?_, ?_⟩
  · rw [commsSendOpt_one hs hk hcid, sendOne, slot?_eq s.h hin]
    exact if_pos hneg
  · split
    · simp
    · exact ⟨rfl, rfl⟩

theorem sendsSafely_of_lt {s : Server} (inv : ServerInv s) {cid : BitVec 16}
    (hcid : cid.toNat ≠ commsSendToAllClients) (hk' : cid.toNat < s.h.clientCount) :
    SendsSafely s cid := by
  have hs := inv.isServer
  have hle := hs.count_le
  by_cases hk : 1 ≤ cid.toNat
  · by_cases hneg : (s.h.slot cid.toNat).1 < 0
    · exact sendsSafely_of_neg hs hcid hk (by omega) hneg
    · intro msg ip port ret
      -- a client slot that is not negative is live
      have hmem : s.h.slot cid.toNat ∈ s.h.clients :=
        List.mem_map.mpr ⟨cid.toNat - 1, List.mem_range.mpr (by omega),
          by rw [Nat.sub_add_cancel hk]⟩
      have hlive : live (s.h.slot cid.toNat) = true := by
        by_contra hdead
        have := inv.dead _ hmem (by simpa using hdead)
        omega
      obtain ⟨before, c, after, hconns, hce, -⟩ := inv.split hk hk' hlive
      obtain ⟨h', r, hsend⟩ := commsSendOpt_live hs hk hk' hlive msg ip port ret
      refine ⟨h', _, r, hsend, ?_⟩
      rw [if_pos ⟨hk, hk'⟩]
      intro call hcall
      exact ⟨List.mem_singleton.mp hcall, c, by simp [hconns], hce⟩
  · intro msg ip port ret
    refine ⟨setError s.h .failedToSend "comms_send__opt" 405, [], false, ?_, ?_⟩
    · rw [commsSendOpt_server hs]
      exact if_pos (by dsimp only; omega)
    · rw [if_neg (by omega)]
      exact ⟨rfl, rfl⟩

/-- **Which cids are safe to send to.**  Those below the count, and beyond it only
the unused slots of the table that hold a negative descriptor: a freed slot holds
0, and nothing keeps the cid inside the table. -/
theorem sendsSafely_iff {h₀ h : Commh} {opt : CommsOpt} {env : InitEnv}
    {calls : List OsCall} (hinit : commsTcpserverInitOpt h₀ opt env = some (h, calls, true))
    {s : Server} (hrun : Relation.ReflTransGen ServerStep (Server.init h env.socket) s)
    (cid : BitVec 16) (hcid : cid.toNat ≠ commsSendToAllClients) :
    SendsSafely s cid ↔
      cid.toNat < s.h.clientCount ∨ (cid.toNat < commsMaxClients ∧ (s.h.slot cid.toNat).1 < 0) := by
  have inv := server_inv hinit hrun
  have hpos := inv.isServer.count_pos
  constructor
  · intro hsafe
    by_contra hnot
    exact not_sendsSafely inv.isServer hcid (by omega) (by omega) hsafe
  · intro hcond
    by_cases hk' : cid.toNat < s.h.clientCount
    · exact sendsSafely_of_lt inv hcid hk'
    · obtain ⟨hin, hneg⟩ := hcond.resolve_left hk'
      exact sendsSafely_of_neg inv.isServer hcid (by omega) hin hneg

theorem sendsSafely_two : SendsSafely twoClients 2 :=
  (sendsSafely_iff newServer_init (serverRun_of_tableRun twoClients_reachable) 2
    (by decide)).mpr (Or.inl (by decide))

/-- After the only client left, `CommsSend` with its cid sends on descriptor 0. -/
theorem send_to_freed_slot :
    ¬ ∀ (s : Server) (cid : BitVec 16),
      Relation.ReflTransGen ServerStep (Server.init newServer 3) s →
      cid.toNat ≠ commsSendToAllClients → SendsSafely s cid := by
  intro hsafe
  have hrun : Relation.ReflTransGen TableStep (Server.init newServer 3) (disconnectFirst oneClient) :=
    oneClient_reachable.tail (disconnectFirst_step (by decide +kernel))
  have inv := table_inv newServer_init hrun
  exact not_sendsSafely inv.isServer (by decide) (by decide +kernel) (by decide +kernel)
    (hsafe _ 1 (serverRun_of_tableRun hrun) (by decide))

end DataCommons.Comms
