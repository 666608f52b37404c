import Mathlib.Data.List.TakeDrop
import DataCommons.Comms.Server

/-!
# What a send delivers

The sockets do not block, so `send` takes a part of the bytes it is given, or fails.
`CommsSend` asks only whether what it returns is positive, and leaves the loop over all
clients at the first `send` that is not.

* `sends_whole_iff`: when `true` says that the whole message was taken;
* `sendAll_spec`: the loop over all clients;
* `broadcast_iff`: when every client is sent to and `true` says that every send
  succeeded.
-/

namespace DataCommons.Comms

open Commh

/-! ## One remote -/

/-- The bytes that a call gives to the socket `fd`, where it returns `ret`. -/
def handedBy (fd : ℤ) (ret : ℤ) : OsCall → List UInt8
  | .send fd' msg => if fd' = fd then msg.take ret.toNat else []
  | _ => []

/-- The bytes that a list of calls gives to `fd`; the `i`-th call returns `ret i`. -/
def handed (fd : ℤ) (ret : ℕ → ℤ) (calls : List OsCall) : List UInt8 :=
  calls.zipIdx.flatMap fun call => handedBy fd (ret call.2) call.1

/-- The slot of the single remote of a send. -/
def remoteSlot (h : Commh) (opt : CommsSendOpt) : ℕ := if h.server then opt.cid.toNat else 0

/-- `true` only with the whole message handed to the remote's socket. -/
def SendsWhole (h : Commh) (msg : List UInt8) (opt : CommsSendOpt) (ret : ℕ → ℤ) : Prop :=
  ∃ h' calls r, commsSendOpt h msg opt ret = some (h', calls, r) ∧
    (r = true → handed (h.slot (remoteSlot h opt)).1 ret calls = msg)

/-- A `send` is made: a server has a cid, and the descriptor is not negative. -/
def MakesSend (h : Commh) (opt : CommsSendOpt) : Prop :=
  (h.server = true → 1 ≤ opt.cid.toNat) ∧ 0 ≤ (h.slot (remoteSlot h opt)).1

section One

variable {h : Commh} {msg : List UInt8} {opt : CommsSendOpt} {ret : ℕ → ℤ}

theorem commsSendOpt_tcp_one (htcp : h.tcp = true) (hcid : opt.cid.toNat ≠ commsSendToAllClients) :
    commsSendOpt h msg opt ret =
      if h.server = true ∧ opt.cid.toNat < 1 then
        some (setError h .failedToSend "comms_send__opt" 405, [], false)
      else sendOne h msg ret (remoteSlot h opt) := by
  rw [commsSendOpt, if_pos htcp, remoteSlot]
  cases h.server with
  | true => simp [hcid]
  | false => simp [hcid]

theorem handed_one (fd : ℤ) (ret : ℕ → ℤ) (msg : List UInt8) :
    handed fd ret [.send fd msg] = msg.take (ret 0).toNat := by
  simp [handed, handedBy]

theorem sendOne_whole {k : ℕ} (hk : k < commsMaxClients) (hret : ret 0 ≤ msg.length) :
    (∃ h' calls r, sendOne h msg ret k = some (h', calls, r) ∧
        (r = true → handed (h.slot k).1 ret calls = msg)) ↔
      (0 ≤ (h.slot k).1 → ret 0 ≤ 0 ∨ ret 0 = msg.length) := by
  rw [sendOne, slot?_eq h hk]
  dsimp only
  by_cases hsock : (h.slot k).1 < 0
  · rw [if_pos hsock]
    exact iff_of_true ⟨_, _, false, rfl, nofun⟩ fun hpos => absurd hsock (by omega)
  · rw [if_neg hsock]
    by_cases hfail : ret 0 ≤ 0
    · rw [if_pos hfail]
      exact iff_of_true ⟨_, _, false, rfl, nofun⟩ fun _ => Or.inl hfail
    · rw [if_neg hfail]
      have hwhole : handed (h.slot k).1 ret [.send (h.slot k).1 msg] = msg ↔
          ret 0 = msg.length := by
        rw [handed_one, List.take_eq_self_iff]
        omega
      constructor
      · rintro ⟨h', calls, r, hsend, hr⟩ -
        cases hsend
        exact Or.inr (hwhole.mp (hr rfl))
      · exact fun h => ⟨_, _, true, rfl,
          fun _ => hwhole.mpr ((h (by omega)).resolve_left hfail)⟩

end One

/-- **`true` means the whole message exactly if** the cid is one of the table's, and the
`send` that is made, if one is, takes nothing or everything. -/
theorem sends_whole_iff {h : Commh} (htcp : h.tcp = true) {opt : CommsSendOpt}
    (hcid : opt.cid.toNat ≠ commsSendToAllClients) {msg : List UInt8} {ret : ℕ → ℤ}
    (hret : ret 0 ≤ msg.length) :
    SendsWhole h msg opt ret ↔
      (h.server = true → opt.cid.toNat < commsMaxClients) ∧
        (MakesSend h opt → ret 0 ≤ 0 ∨ ret 0 = msg.length) := by
  rw [SendsWhole, commsSendOpt_tcp_one htcp hcid, MakesSend]
  by_cases hzero : h.server = true ∧ opt.cid.toNat < 1
  · rw [if_pos hzero]
    refine iff_of_true ⟨_, _, false, rfl, nofun⟩ ⟨fun _ => ?_, fun hsend => ?_⟩
    · exact lt_trans hzero.2 (by decide)
    · exact absurd (hsend.1 hzero.1) (by omega)
  · rw [if_neg hzero]
    by_cases hk : remoteSlot h opt < commsMaxClients
    · rw [sendOne_whole hk hret]
      have hslot : h.server = true → opt.cid.toNat < commsMaxClients := by
        intro hserver
        rwa [remoteSlot, if_pos hserver] at hk
      have hcid : h.server = true → 1 ≤ opt.cid.toNat :=
        fun hserver => not_lt.mp fun hlt => hzero ⟨hserver, hlt⟩
      rw [and_iff_right hslot, and_iff_right hcid]
    · refine iff_of_false ?_ fun hcond => hk ?_
      · rintro ⟨h', calls, r, hsend, -⟩
        rw [sendOne, slot?_eq_none h (not_lt.mp hk)] at hsend
        cases hsend
      · rw [remoteSlot]
        split
        · exact hcond.1 ‹_›
        · decide

/-- Three bytes to the second client, all of them taken. -/
theorem sends_whole_three : SendsWhole twoClients.h [1, 2, 3] ⟨none, 0, 2⟩ fun _ => 3 :=
  (sends_whole_iff rfl (by decide) (by decide)).mpr ⟨fun _ => by decide, fun _ => Or.inr rfl⟩

/-- One byte of three is taken, and `CommsSend` returns `true`. -/
theorem short_send_is_success :
    ¬ SendsWhole twoClients.h [1, 2, 3] ⟨none, 0, 2⟩ fun _ => 1 := by
  rw [SendsWhole, commsSendOpt_tcp_one rfl (by decide), if_neg (by decide)]
  intro hwhole
  have htaken := (@sendOne_whole twoClients.h [1, 2, 3] (fun _ => 1) 2 (by decide) (by decide)).mp
    hwhole (by decide +kernel)
  exact absurd htaken (by decide)

/-! ## All clients -/

/-- The first `n` sends of the loop from slot `i` on. -/
def sendsFrom (h : Commh) (msg : List UInt8) (i n : ℕ) : List OsCall :=
  (List.range n).map fun j => .send (h.slot (i + j)).1 msg

theorem sendsFrom_succ (h : Commh) (msg : List UInt8) (i n : ℕ) :
    sendsFrom h msg i (n + 1) = .send (h.slot i).1 msg :: sendsFrom h msg (i + 1) n := by
  rw [sendsFrom, List.range_succ_eq_map, List.map_cons, List.map_map, sendsFrom]
  refine congrArg₂ List.cons rfl (List.map_congr_left fun j _ => ?_)
  rw [Function.comp_apply, Nat.succ_eq_add_one, Nat.add_right_comm, Nat.add_assoc]

/-- **The loop sends to every client, or up to the first one whose `send` fails.** -/
theorem sendAll_spec (h : Commh) (msg : List UInt8) (ret : ℕ → ℤ) (i k : ℕ) (hi : 1 ≤ i)
    (hk : i + k ≤ commsMaxClients) :
    ((∀ j < k, 0 < ret (i - 1 + j)) ∧
      sendAll h msg ret i k = some (h, sendsFrom h msg i k, true)) ∨
    ∃ m < k, (∀ j < m, 0 < ret (i - 1 + j)) ∧ ret (i - 1 + m) ≤ 0 ∧ ∃ h',
      sendAll h msg ret i k = some (h', sendsFrom h msg i (m + 1), false) := by
  induction k generalizing i with
  | zero => exact Or.inl ⟨fun j hj => absurd hj (Nat.not_lt_zero j), rfl⟩
  | succ k ih =>
    rw [sendAll, slot?_eq h (by omega)]
    dsimp only
    by_cases hfail : ret (i - 1) ≤ 0
    · exact Or.inr ⟨0, Nat.succ_pos k, fun j hj => absurd hj (Nat.not_lt_zero j), hfail,
        setError h .failedToSend "comms_send__opt" 417, if_pos hfail⟩
    · have hshift : ∀ j, i + 1 - 1 + j = i - 1 + (j + 1) := fun j => by omega
      -- the send to slot `i` succeeds, and the rest of the loop follows
      have hfirst : ∀ m, (∀ j < m, 0 < ret (i + 1 - 1 + j)) → ∀ j < m + 1, 0 < ret (i - 1 + j) := by
        intro m hm j hj
        cases j with
        | zero => exact not_le.mp hfail
        | succ j =>
          rw [← hshift]
          exact hm j (Nat.lt_of_succ_lt_succ hj)
      rw [if_neg hfail]
      rcases ih (i + 1) (by omega) (by omega) with
        ⟨hall, hrest⟩ | ⟨m, hm, hbefore, hstop, h', hrest⟩
      · refine Or.inl ⟨hfirst k hall, ?_⟩
        rw [hrest, sendsFrom_succ]
      · refine Or.inr ⟨m + 1, Nat.succ_lt_succ hm, hfirst m hbefore, by rwa [← hshift], h', ?_⟩
        rw [hrest, sendsFrom_succ h msg i (m + 1)]

/-- One `send` on the socket of every connected client, none on the listening socket, and
`true` exactly if all of them succeed. -/
structure Broadcasts (s : Server) (msg : List UInt8) (ret : ℕ → ℤ) (calls : List OsCall)
    (r : Bool) : Prop where
  each : calls = s.os.conns.map fun c => .send c.fd msg
  listening : ∀ fd, s.os.listening = some fd → .send fd msg ∉ calls
  success : r = true ↔ ∀ j < s.os.conns.length, 0 ≤ ret j

/-- No `send` but the last fails or takes nothing, and the last takes something or
fails. -/
def NoneStops (n : ℕ) (ret : ℕ → ℤ) : Prop := ∀ j < n, if j + 1 < n then 0 < ret j else ret j ≠ 0

theorem noneStops_of_pos {n : ℕ} {ret : ℕ → ℤ} (hall : ∀ j < n, 0 < ret j) : NoneStops n ret := by
  intro j hj
  split
  · exact hall j hj
  · exact ne_of_gt (hall j hj)

/-- The first `send` that stops the loop has to be the last one, and to fail. -/
theorem noneStops_iff_of_stop {n m : ℕ} {ret : ℕ → ℤ} (hm : m < n)
    (hbefore : ∀ j < m, 0 < ret j) (hstop : ret m ≤ 0) :
    NoneStops n ret ↔ m + 1 = n ∧ ret m < 0 := by
  constructor
  · intro hnone
    have hcond := hnone m hm
    by_cases hlast : m + 1 < n
    · rw [if_pos hlast] at hcond
      exact absurd hcond (not_lt.mpr hstop)
    · rw [if_neg hlast] at hcond
      exact ⟨by omega, lt_of_le_of_ne hstop hcond⟩
  · rintro ⟨rfl, hneg⟩ j hj
    split
    · exact hbefore j (by omega)
    · obtain rfl : j = m := by omega
      exact ne_of_lt hneg

section All

variable {sock : ℤ} {s : Server}

theorem sendsFrom_conns (inv : TableInv sock s) (msg : List UInt8) :
    sendsFrom s.h msg 1 s.os.conns.length = s.os.conns.map fun c => .send c.fd msg := by
  have hclients : (s.h.clients.map fun x => OsCall.send x.1 msg)
      = s.os.conns.map fun c => .send c.fd msg := by
    rw [inv.clients_eq, List.map_map]
    rfl
  rw [← hclients, clients, List.map_map, inv.count_eq, sendsFrom]
  refine List.map_congr_left fun j _ => ?_
  rw [Function.comp_apply, Nat.add_comm 1]

theorem sendsFrom_length (h : Commh) (msg : List UInt8) (i n : ℕ) :
    (sendsFrom h msg i n).length = n := by
  rw [sendsFrom, List.length_map, List.length_range]

theorem broadcast_of_table (inv : TableInv sock s) (msg : List UInt8) (ret : ℕ → ℤ) :
    (∃ h' calls r, sendAll s.h msg ret 1 (s.h.clientCount - 1) = some (h', calls, r) ∧
        Broadcasts s msg ret calls r) ↔ NoneStops s.os.conns.length ret := by
  have hlistening : ∀ fd, s.os.listening = some fd →
      OsCall.send fd msg ∉ s.os.conns.map fun c => OsCall.send c.fd msg := by
    intro fd hfd hmem
    obtain ⟨c, hc, heq⟩ := List.mem_map.mp hmem
    cases heq
    exact inv.os.listening c hc hfd
  have hle := inv.isServer.count_le
  have hpos := inv.isServer.count_pos
  rw [← inv.count_eq]
  have hzero : ∀ j, 1 - 1 + j = j := fun j => Nat.zero_add j
  rcases sendAll_spec s.h msg ret 1 s.os.conns.length le_rfl (by rw [inv.count_eq]; omega) with
    ⟨hall, hsend⟩ | ⟨m, hm, hbefore, hstop, h', hsend⟩
  · rw [sendsFrom_conns inv] at hsend
    simp only [hzero] at hall
    refine iff_of_true ⟨_, _, true, hsend, rfl, hlistening, ?_⟩ (noneStops_of_pos hall)
    exact iff_of_true rfl fun j hj => le_of_lt (hall j hj)
  · simp only [hzero] at hbefore hstop
    rw [noneStops_iff_of_stop hm hbefore hstop]
    constructor
    · rintro ⟨h'', calls, r, hsend', hb⟩
      cases hsend.symm.trans hsend'
      -- as many sends as clients
      have hlast : m + 1 = s.os.conns.length := by
        have hlen := congrArg List.length hb.each
        rwa [sendsFrom_length, List.length_map] at hlen
      refine ⟨hlast, lt_of_le_of_ne hstop fun hnone => ?_⟩
      refine Bool.false_ne_true (hb.success.mpr fun j hj => ?_)
      rcases Nat.lt_or_ge j m with hlt | hge
      · exact le_of_lt (hbefore j hlt)
      · obtain rfl : j = m := by omega
        exact ge_of_eq hnone
    · rintro ⟨hlast, hneg⟩
      rw [hlast, sendsFrom_conns inv] at hsend
      refine ⟨h', _, false, hsend, rfl, hlistening, ?_⟩
      exact iff_of_false Bool.false_ne_true fun h => absurd (h m hm) (not_le.mpr hneg)

end All

/-- **Every client is sent to, and `true` says that every send succeeded, exactly if** no
`send` stops the loop before the last client. -/
theorem broadcast_iff {h₀ h : Commh} {opt : CommsOpt} {env : InitEnv} {calls : List OsCall}
    (hinit : commsTcpserverInitOpt h₀ opt env = some (h, calls, true)) {s : Server}
    (hrun : Relation.ReflTransGen TableStep (Server.init h env.socket) s) {sopt : CommsSendOpt}
    (hcid : sopt.cid.toNat = commsSendToAllClients) (msg : List UInt8) (ret : ℕ → ℤ) :
    (∃ h' calls' r, commsSendOpt s.h msg sopt ret = some (h', calls', r) ∧
        Broadcasts s msg ret calls' r) ↔ NoneStops s.os.conns.length ret := by
  have inv := table_inv hinit hrun
  rw [commsSendOpt_server inv.isServer, if_neg (by rw [hcid]; decide), if_neg (not_not.mpr hcid)]
  exact broadcast_of_table inv msg ret

theorem broadcast_two :
    ∃ h' calls r, commsSendOpt twoClients.h [7] ⟨none, 0, 65535⟩ (fun _ => 1) = some (h', calls, r) ∧
      Broadcasts twoClients [7] (fun _ => 1) calls r := by
  refine (broadcast_iff newServer_init twoClients_reachable (by decide) [7] _).mpr fun j _ => ?_
  split
  · exact Int.one_pos
  · exact Int.one_ne_zero

/-- The send to the first of two clients fails: the second one gets nothing. -/
theorem broadcast_stops :
    ¬ ∃ h' calls r,
      commsSendOpt twoClients.h [7] ⟨none, 0, 65535⟩ (fun j => if j = 0 then -1 else 1)
        = some (h', calls, r) ∧
      Broadcasts twoClients [7] (fun j => if j = 0 then -1 else 1) calls r := by
  have inv := table_inv newServer_init twoClients_reachable
  rw [commsSendOpt_server inv.isServer, if_neg (by decide), if_neg (by decide)]
  intro hsend
  have hfirst := (broadcast_of_table inv _ _).mp hsend 0 (by decide)
  rw [if_pos (by decide)] at hfirst
  exact absurd hfirst (by decide)

end DataCommons.Comms
