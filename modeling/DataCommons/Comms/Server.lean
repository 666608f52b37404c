import Mathlib.Data.List.Nodup
import Mathlib.Data.List.Perm.Basic
import Mathlib.Data.List.Range
import DataCommons.Lib.Machine
import DataCommons.Comms.Table

/-!
# Runs of a TCP server

`Os` is the operating system's view: the connections accepted and not closed
yet, in order of acceptance, each with a number that is never used twice; the
connections closed so far; and the `close` calls that hit no open descriptor.
`TableStep` interleaves accepter iterations and `CommsDisconnect` calls, each one
atomic under `g_comms_mtx`; `ServerStep` adds sends and `CommsClose`.

* `ServerInv`: the live slots are the operating system's list, in its order;
* `server_inv`, `table_inv`: it holds in every reachable state;
* `server_table`: what the table holds, and what the accepter and
  `CommsDisconnect` do, in every reachable state.
-/

namespace DataCommons.Comms

open Commh

/-! ## The operating system -/

/-- A connection: its number, its descriptor and its peer. -/
structure Conn where
  id : ℕ
  fd : ℤ
  peer : SockaddrIn
  deriving DecidableEq

def Conn.entry (c : Conn) : ℤ × SockaddrIn := (c.fd, c.peer)

/-- The open connections, the closed ones, the next number, the listening socket
while it is open and the descriptors of `close` calls that hit nothing open. -/
structure Os where
  conns : List Conn
  closed : List Conn
  next : ℕ
  listening : Option ℤ
  badClose : List ℤ

namespace Os

def accept (os : Os) (fd : ℤ) (peer : SockaddrIn) : Os :=
  { os with conns := os.conns ++ [⟨os.next, fd, peer⟩], next := os.next + 1 }

def close (os : Os) (fd : ℤ) : Os :=
  if os.listening = some fd then { os with listening := none }
  else
    match os.conns.find? (·.fd = fd) with
    | none => { os with badClose := fd :: os.badClose }
    | some c => { os with conns := os.conns.erase c, closed := c :: os.closed }

def call (os : Os) : OsCall → Os
  | .close fd => os.close fd
  | _ => os

def calls (os : Os) (cs : List OsCall) : Os := cs.foldl call os

/-- A descriptor that `accept` can give: positive and not open. -/
def Fresh (os : Os) (fd : ℤ) : Prop :=
  0 < fd ∧ os.listening ≠ some fd ∧ ∀ c ∈ os.conns, c.fd ≠ fd

@[simp] theorem calls_nil (os : Os) : os.calls [] = os := rfl

@[simp] theorem calls_shutdown (os : Os) (fd : ℤ) (cs : List OsCall) :
    os.calls (.shutdown fd :: cs) = os.calls cs := rfl

@[simp] theorem calls_close (os : Os) (fd : ℤ) (cs : List OsCall) :
    os.calls (.close fd :: cs) = (os.close fd).calls cs := rfl

theorem calls_append (os : Os) (cs ds : List OsCall) :
    os.calls (cs ++ ds) = (os.calls cs).calls ds := List.foldl_append

theorem calls_of_no_close (os : Os) (cs : List OsCall) (h : ∀ c ∈ cs, ∀ fd, c ≠ .close fd) :
    os.calls cs = os := by
  induction cs with
  | nil => rfl
  | cons c cs ih =>
    have hc : os.call c = os := by
      cases c with
      | close fd => exact absurd rfl (h (.close fd) List.mem_cons_self fd)
      | _ => rfl
    have ih := ih fun d hd => h d (List.mem_cons_of_mem c hd)
    rw [calls, List.foldl_cons, hc]
    exact ih

/-- Closing a descriptor that one connection has. -/
theorem close_of_split {os : Os} {before after : List Conn} {c : Conn}
    (hconns : os.conns = before ++ c :: after) (hlis : os.listening ≠ some c.fd)
    (hbefore : ∀ d ∈ before, d.fd ≠ c.fd) :
    os.close c.fd = { os with conns := before ++ after, closed := c :: os.closed } := by
  have hfind : os.conns.find? (·.fd = c.fd) = some c := by
    rw [hconns, List.find?_append, List.find?_eq_none.mpr (by simpa using hbefore)]
    simp
  have hmem : c ∉ before := fun hc => hbefore c hc rfl
  rw [close, if_neg hlis, hfind]
  dsimp only
  rw [hconns, List.erase_append_right _ hmem, List.erase_cons_head]

end Os

/-! ## Steps -/

/-- A handle and the operating system behind it. -/
structure Server where
  h : Commh
  os : Os

/-- The state right after the `Init`. -/
def Server.init (h : Commh) (sock : ℤ) : Server := ⟨h, ⟨[], [], 0, some sock, []⟩⟩

/-- The state after an accepter iteration that got a connection. -/
def Server.accept (s : Server) (cs : ℤ) (cli : SockaddrIn) : Server :=
  ⟨(commsAccepter s.h (.conn cs cli)).1,
    (s.os.accept cs cli).calls (commsAccepter s.h (.conn cs cli)).2.1⟩

/-- A step of the accepter or a `CommsDisconnect` by any thread. -/
inductive TableStep : Server → Server → Prop
  | accept {s : Server} (cs : ℤ) (cli : SockaddrIn) (fresh : s.os.Fresh cs) :
      TableStep s (s.accept cs cli)
  | acceptFail {s : Server} (errno : Errno) :
      TableStep s ⟨(commsAccepter s.h (.fail errno)).1,
        s.os.calls (commsAccepter s.h (.fail errno)).2.1⟩
  | disconnect {s : Server} {h' : Commh} {calls : List OsCall} {r : Bool} (cid : BitVec 16)
      (hd : commsDisconnect s.h cid = some (h', calls, r)) : TableStep s ⟨h', s.os.calls calls⟩

/-- A step of the accepter or a `CommsDisconnect`, `CommsSend` or `CommsClose` by
any thread. -/
inductive ServerStep : Server → Server → Prop
  | table {s t : Server} (step : TableStep s t) : ServerStep s t
  | send {s : Server} {h' : Commh} {calls : List OsCall} {r : Bool} (msg : List UInt8)
      (opt : CommsSendOpt) (ret : ℕ → ℤ)
      (hs : commsSendOpt s.h msg opt ret = some (h', calls, r)) : ServerStep s ⟨h', s.os.calls calls⟩
  | close {s : Server} {h' : Commh} {calls : List OsCall} {r : Bool} (rcListener rcAccepter : ℤ)
      (hc : commsClose s.h rcListener rcAccepter = some (h', calls, r)) :
      ServerStep s ⟨h', s.os.calls calls⟩

theorem serverRun_of_tableRun {s t : Server} (hrun : Relation.ReflTransGen TableStep s t) :
    Relation.ReflTransGen ServerStep s t :=
  hrun.lift id fun _ _ step => .table step

/-! ## The invariant -/

/-- What the operating system's lists satisfy on their own. -/
structure OsInv (os : Os) : Prop where
  fds : (os.conns.map (·.fd)).Nodup
  pos : ∀ c ∈ os.conns, 0 < c.fd
  listening : ∀ c ∈ os.conns, os.listening ≠ some c.fd
  ordered : os.conns.Pairwise (·.id < ·.id)
  numbers : (os.conns ++ os.closed).map (·.id) |>.Perm (List.range os.next)
  badClose : os.badClose = []

/-- The table is the operating system's list of connections. -/
structure ServerInv (s : Server) : Prop where
  isServer : IsServer s.h
  os : OsInv s.os
  conns : s.h.clients.filter live = s.os.conns.map Conn.entry
  dead : ∀ x ∈ s.h.clients, live x = false → x.1 = -1
  socket : live (s.h.slot 0) = true → s.os.listening = some (s.h.slot 0).1

theorem OsInv.id_lt {os : Os} (inv : OsInv os) {c : Conn} (hc : c ∈ os.conns) : c.id < os.next := by
  have hmem : c.id ∈ (os.conns ++ os.closed).map (·.id) :=
    List.mem_map_of_mem (List.mem_append_left _ hc)
  exact List.mem_range.mp (inv.numbers.subset hmem)

theorem OsInv.accept {os : Os} (inv : OsInv os) {cs : ℤ} (cli : SockaddrIn) (fresh : os.Fresh cs) :
    OsInv (os.accept cs cli) := by
  obtain ⟨hpos, hlis, hne⟩ := fresh
  refine ⟨?_, ?_, ?_, ?_, ?_, inv.badClose⟩
  · simp only [Os.accept, List.map_append, List.map_cons, List.map_nil]
    refine List.nodup_append.mpr ⟨inv.fds, by simp, fun a ha b hb => ?_⟩
    obtain ⟨c, hc, rfl⟩ := List.mem_map.mp ha
    rw [List.mem_singleton.mp hb]
    exact hne c hc
  · intro c hc
    rcases List.mem_append.mp hc with hc | hc
    · exact inv.pos c hc
    · rw [List.mem_singleton.mp hc]
      exact hpos
  · intro c hc
    rcases List.mem_append.mp hc with hc | hc
    · exact inv.listening c hc
    · rw [List.mem_singleton.mp hc]
      exact hlis
  · refine List.pairwise_append.mpr ⟨inv.ordered, by simp, fun c hc d hd => ?_⟩
    rw [List.mem_singleton.mp hd]
    exact inv.id_lt hc
  · simp only [Os.accept, List.append_assoc, List.map_append, List.map_cons, List.map_nil,
      List.range_succ]
    have hp := inv.numbers
    rw [List.map_append] at hp
    refine List.Perm.trans ?_ (hp.append_right [os.next])
    rw [List.append_assoc]
    exact List.Perm.append_left _ List.perm_append_comm

/-- A closed connection leaves the list, and no other one does. -/
theorem OsInv.close {os : Os} (inv : OsInv os) (before after : List Conn) {c : Conn}
    (hconns : os.conns = before ++ c :: after) :
    os.close c.fd = { os with conns := before ++ after, closed := c :: os.closed } ∧
      OsInv (os.close c.fd) := by
  have hsub : (before ++ after).Sublist os.conns := by
    rw [hconns]
    exact List.Sublist.append_left (List.sublist_cons_self c after) before
  have hmem : c ∈ os.conns := by simp [hconns]
  have hfds := inv.fds
  rw [hconns, List.map_append, List.map_cons] at hfds
  have hclose := Os.close_of_split hconns (inv.listening c hmem) fun d hd heq =>
    (List.nodup_append.mp hfds).2.2 d.fd (List.mem_map_of_mem hd) c.fd List.mem_cons_self heq
  refine ⟨hclose, ?_⟩
  rw [hclose]
  refine ⟨inv.fds.sublist (hsub.map _), fun d hd => inv.pos d (hsub.subset hd),
    fun d hd => inv.listening d (hsub.subset hd), inv.ordered.sublist hsub, ?_, inv.badClose⟩
  refine List.Perm.trans (List.Perm.map _ ?_) inv.numbers
  rw [hconns]
  simp only [List.append_assoc, List.cons_append]
  exact List.Perm.append_left _ List.perm_middle

theorem OsInv.closeAll {os : Os} (inv : OsInv os) (conns : List Conn) (hconns : os.conns = conns) :
    OsInv (os.calls (conns.flatMap fun c => [.shutdown c.fd, .close c.fd])) ∧
      (os.calls (conns.flatMap fun c => [.shutdown c.fd, .close c.fd])).conns = [] := by
  induction conns generalizing os with
  | nil => exact ⟨inv, hconns⟩
  | cons c conns ih =>
    obtain ⟨hclose, hinv⟩ := inv.close [] conns hconns
    rw [List.flatMap_cons, Os.calls_append, Os.calls_shutdown, Os.calls_close, Os.calls_nil]
    refine ih hinv ?_
    rw [hclose]
    rfl

/-! ## One step keeps the invariant -/

theorem ServerInv.of_sameTable {s : Server} (inv : ServerInv s) {h' : Commh}
    (st : SameTable s.h h') : ServerInv ⟨h', s.os⟩ where
  isServer := inv.isServer.of_sameFrame st.toSameFrame
  os := inv.os
  conns := by rw [st.clients]; exact inv.conns
  dead := by rw [st.clients]; exact inv.dead
  socket := by rw [st.slot]; exact inv.socket

theorem ServerInv.split {s : Server} (inv : ServerInv s) {k : ℕ} (hk : 1 ≤ k)
    (hk' : k < s.h.clientCount) (hl : live (s.h.slot k) = true) :
    ∃ before c after, s.os.conns = before ++ c :: after ∧ c.entry = s.h.slot k ∧
      before.map Conn.entry = (s.h.clients.take (k - 1)).filter live ∧
      after.map Conn.entry = (s.h.clients.drop k).filter live := by
  have hlen : k - 1 < s.h.clients.length := by
    rw [clients_length]
    omega
  have hdrop : s.h.clients.drop (k - 1) = s.h.slot k :: s.h.clients.drop k := by
    rw [List.drop_eq_getElem_cons hlen, clients_getElem, Nat.sub_add_cancel hk]
  have hconns := inv.conns
  rw [← List.take_append_drop (k - 1) s.h.clients, hdrop, List.filter_append,
    List.filter_cons_of_pos hl] at hconns
  obtain ⟨before, rest, hc, hbefore, hrest⟩ := List.map_eq_append_iff.mp hconns.symm
  obtain ⟨c, after, rfl, hce, hafter⟩ := List.map_eq_cons_iff.mp hrest
  exact ⟨before, c, after, hc, hce, hbefore, hafter⟩

theorem ServerInv.accept {s : Server} (inv : ServerInv s) {cs : ℤ} (cli : SockaddrIn)
    (fresh : s.os.Fresh cs) : ServerInv (s.accept cs cli) := by
  have hinv := inv.os.accept cli fresh
  rcases commsAccepter_spec inv.isServer cs cli fresh.1 with
    ⟨-, h', hacc, hent⟩ | ⟨-, hacc⟩
  · rw [Server.accept, hacc]
    refine ⟨hent.isServer, hinv, ?_, ?_, ?_⟩
    · dsimp only
      have hl : live (cs, cli) = true := live_iff.mpr fresh.1
      rw [hent.clients, List.filter_append, inv.conns, List.filter_cons_of_pos hl]
      simp [Os.accept, Conn.entry]
    · intro x hx hl
      dsimp only at hx
      rw [hent.clients] at hx
      rcases List.mem_append.mp hx with hx | hx
      · exact inv.dead x hx hl
      · rw [List.mem_singleton.mp hx] at hl
        simp [live, fresh.1] at hl
    · dsimp only
      rw [hent.slot_zero]
      exact inv.socket
  · rw [Server.accept, hacc]
    obtain ⟨hclose, hinv⟩ := hinv.close s.os.conns [] rfl
    have hos : (s.os.accept cs cli).calls [.shutdown cs, .close cs] =
        (s.os.accept cs cli).close cs := rfl
    have hst := SameTable.of_setError s.h .maxClients "comms_accepter" 653
    dsimp only
    rw [hos]
    refine ⟨inv.isServer.of_sameFrame hst.toSameFrame, hinv, ?_, inv.dead, ?_⟩
    · dsimp only
      rw [hclose, hst.clients, List.append_nil]
      exact inv.conns
    · rw [hclose]
      exact inv.socket

/-- A removal takes the slot's connection out of both lists. -/
theorem ServerInv.disconnect {s : Server} (inv : ServerInv s) {h' : Commh} {cid : BitVec 16}
    {before after : List Conn} {c : Conn} (hk : 1 ≤ cid.toNat) (hrem : Removed s.h cid.toNat h')
    (hconns : s.os.conns = before ++ c :: after)
    (hbefore : before.map Conn.entry = (s.h.clients.take (cid.toNat - 1)).filter live)
    (hafter : after.map Conn.entry = (s.h.clients.drop cid.toNat).filter live) :
    ServerInv ⟨h', s.os.close c.fd⟩ ∧ (s.os.close c.fd).conns = before ++ after := by
  obtain ⟨hclose, hinv⟩ := inv.os.close before after hconns
  refine ⟨⟨hrem.isServer, hinv, ?_, ?_, ?_⟩, by rw [hclose]⟩
  · dsimp only
    rw [hclose, hrem.clients, List.eraseIdx_eq_take_drop_succ, Nat.sub_add_cancel hk,
      List.filter_append, ← hbefore, ← hafter, List.map_append]
  · intro x hx
    dsimp only at hx
    rw [hrem.clients] at hx
    exact inv.dead x (List.eraseIdx_subset hx)
  · dsimp only
    rw [hrem.slot_zero, hclose]
    exact inv.socket

/-- **`CommsDisconnect` in a state with the invariant.**  It closes the connection
behind the slot, or changes nothing. -/
theorem ServerInv.disconnect_cases {s : Server} (inv : ServerInv s) (cid : BitVec 16) :
    (∃ h' before c after, commsDisconnect s.h cid = some (h', [.shutdown c.fd, .close c.fd], true) ∧
      1 ≤ cid.toNat ∧ cid.toNat < s.h.clientCount ∧ Removed s.h cid.toNat h' ∧
      c.entry = s.h.slot cid.toNat ∧ s.os.conns = before ++ c :: after ∧
      before.map Conn.entry = (s.h.clients.take (cid.toNat - 1)).filter live ∧
      (s.os.close c.fd).conns = before ++ after ∧ ServerInv ⟨h', s.os.close c.fd⟩) ∨
    (∃ h', commsDisconnect s.h cid = some (h', [], false) ∧ SameTable s.h h' ∧
      (cid.toNat < 1 ∨ s.h.clientCount ≤ cid.toNat ∨ live (s.h.slot cid.toNat) = false)) := by
  rcases commsDisconnect_spec inv.isServer cid with
    ⟨h', hd, hk, hk', hl, hrem⟩ | ⟨line, hd, hwhy⟩
  · left
    obtain ⟨before, c, after, hconns, hce, hbefore, hafter⟩ :=
      inv.split hk hk' (live_iff.mpr hl)
    obtain ⟨hinv, hos⟩ := inv.disconnect hk hrem hconns hbefore hafter
    have hfd : (s.h.slot cid.toNat).1 = c.fd := by rw [← hce, Conn.entry]
    rw [hfd] at hd
    exact ⟨h', before, c, after, hd, hk, hk', hrem, hce, hconns, hbefore, hos, hinv⟩
  · right
    refine ⟨_, hd, .of_setError _ _ _ _, ?_⟩
    simpa [live] using hwhy

theorem ServerInv.tableStep {s t : Server} (inv : ServerInv s) (step : TableStep s t) :
    ServerInv t := by
  cases step with
  | accept cs cli fresh => exact inv.accept cli fresh
  | acceptFail errno =>
    obtain ⟨loop, hacc⟩ := commsAccepter_fail s.h errno
    rw [hacc]
    exact inv
  | disconnect cid hd =>
    rcases inv.disconnect_cases cid with
      ⟨h', before, c, after, hd', -, -, -, -, -, -, -, hinv⟩ | ⟨h', hd', hst, -⟩
    · cases hd.symm.trans hd'
      exact hinv
    · cases hd.symm.trans hd'
      exact inv.of_sameTable hst

/-- The calls of `CommsClose`: the listening socket if it is open, then every
connection. -/
theorem ServerInv.calls_closing {s : Server} (inv : ServerInv s) {joins : List OsCall}
    (hjoins : ∀ c ∈ joins, ∃ thread, c = .join thread) :
    s.os.calls (closing ((List.range s.h.clientCount).map s.h.slot) ++ joins) =
      (s.os.calls (closing [s.h.slot 0])).calls
        (s.os.conns.flatMap fun c => [.shutdown c.fd, .close c.fd]) := by
  have hslots : (List.range s.h.clientCount).map s.h.slot = s.h.slot 0 :: s.h.clients := by
    rw [← Nat.sub_add_cancel inv.isServer.count_pos, List.range_succ_eq_map, List.map_cons,
      List.map_map]
    rfl
  rw [Os.calls_append, Os.calls_of_no_close _ joins, hslots, ← List.singleton_append, closing,
    List.filter_append, List.flatMap_append, Os.calls_append, inv.conns, List.flatMap_map]
  · rfl
  · intro c hc fd heq
    obtain ⟨thread, rfl⟩ := hjoins c hc
    cases heq

/-- The listening socket is none of the connections. -/
theorem ServerInv.close_listening {s : Server} (inv : ServerInv s) :
    OsInv (s.os.calls (closing [s.h.slot 0])) ∧
      (s.os.calls (closing [s.h.slot 0])).conns = s.os.conns := by
  by_cases hl : live (s.h.slot 0) = true
  · have hclose : s.os.calls (closing [s.h.slot 0]) = { s.os with listening := none } := by
      rw [closing, List.filter_cons_of_pos hl]
      change s.os.close (s.h.slot 0).1 = _
      rw [Os.close, if_pos (inv.socket hl)]
    rw [hclose]
    exact ⟨⟨inv.os.fds, inv.os.pos, by simp, inv.os.ordered, inv.os.numbers, inv.os.badClose⟩, rfl⟩
  · rw [closing, List.filter_cons_of_neg hl]
    exact ⟨inv.os, rfl⟩

theorem ServerInv.close {s : Server} (inv : ServerInv s) (rcListener rcAccepter : ℤ) :
    ∃ h' calls r, commsClose s.h rcListener rcAccepter = some (h', calls, r) ∧
      (s.os.calls calls).conns = [] ∧ ServerInv ⟨h', s.os.calls calls⟩ := by
  obtain ⟨h', joins, r, hc, hjoins, hf, hslot⟩ :=
    commsClose_spec inv.isServer rcListener rcAccepter
  have hpos := inv.isServer.count_pos
  have hcalls := inv.calls_closing hjoins
  have hlis := inv.close_listening
  obtain ⟨hos, hempty⟩ := hlis.1.closeAll s.os.conns hlis.2
  have hdead : ∀ x ∈ h'.clients, live x = false ∧ x.1 = -1 := by
    intro x hx
    obtain ⟨i, hi, rfl⟩ := List.mem_map.mp hx
    rw [List.mem_range, hf.clientCount] at hi
    rw [hslot]
    by_cases hl : live (s.h.slot (i + 1)) = true
    · rw [if_pos ⟨by omega, hl⟩]
      exact ⟨rfl, rfl⟩
    · rw [if_neg (by simp [hl])]
      refine ⟨by simpa using hl, inv.dead _ (List.mem_map.mpr ⟨i, List.mem_range.mpr hi, rfl⟩) ?_⟩
      simpa using hl
  refine ⟨h', _, r, hc, hcalls ▸ hempty, inv.isServer.of_sameFrame hf, hcalls ▸ hos, ?_,
    fun x hx _ => (hdead x hx).2, ?_⟩
  · dsimp only
    rw [hcalls, hempty]
    exact List.filter_eq_nil_iff.mpr fun x hx => by simp [(hdead x hx).1]
  · intro hl
    exfalso
    dsimp only at hl
    rw [hslot] at hl
    by_cases hl₀ : live (s.h.slot 0) = true
    · rw [if_pos ⟨by omega, hl₀⟩] at hl
      cases hl
    · rw [if_neg (by simp [hl₀])] at hl
      exact hl₀ hl

theorem ServerInv.serverStep {s t : Server} (inv : ServerInv s) (step : ServerStep s t) :
    ServerInv t := by
  cases step with
  | table step => exact inv.tableStep step
  | send msg opt ret hs =>
    obtain ⟨hst, hcalls⟩ := commsSendOpt_frame inv.isServer hs
    rw [Os.calls_of_no_close]
    · exact inv.of_sameTable hst
    · intro c hc fd heq
      obtain ⟨fd', rfl⟩ := hcalls c hc
      cases heq
  | close rcListener rcAccepter hc =>
    obtain ⟨h', calls, r, hc', -, hinv⟩ := inv.close rcListener rcAccepter
    cases hc.symm.trans hc'
    exact hinv

/-! ## Runs -/

theorem serverInv_init {h₀ h : Commh} {opt : CommsOpt} {env : InitEnv} {calls : List OsCall}
    (hinit : commsTcpserverInitOpt h₀ opt env = some (h, calls, true)) :
    ServerInv (Server.init h env.socket) := by
  obtain ⟨hs, hcount, hslot⟩ := commsTcpserverInitOpt_spec hinit
  have hclients : h.clients = [] := by
    rw [← List.length_eq_zero_iff, clients_length, hcount]
  refine ⟨hs, ⟨by simp [Server.init], by simp [Server.init], by simp [Server.init],
    by simp [Server.init], by simp [Server.init], rfl⟩, ?_, ?_, fun _ => ?_⟩
  · simp [Server.init, hclients]
  · simp [Server.init, hclients]
  · simp [Server.init, hslot]

/-- **The invariant holds in every reachable state.** -/
theorem server_inv {h₀ h : Commh} {opt : CommsOpt} {env : InitEnv} {calls : List OsCall}
    (hinit : commsTcpserverInitOpt h₀ opt env = some (h, calls, true)) {s : Server}
    (hrun : Relation.ReflTransGen ServerStep (Server.init h env.socket) s) : ServerInv s :=
  Machine.reachable_invariant (fun _ _ inv step => inv.serverStep step) hrun (serverInv_init hinit)

/-- Before a `CommsClose`: every client slot is live and slot 0 listens. -/
structure TableInv (sock : ℤ) (s : Server) : Prop extends ServerInv s where
  allLive : ∀ x ∈ s.h.clients, live x = true
  slot_zero : (s.h.slot 0).1 = sock

theorem TableInv.clients_eq {sock : ℤ} {s : Server} (inv : TableInv sock s) :
    s.h.clients = s.os.conns.map Conn.entry := by
  rw [← inv.conns]
  exact (List.filter_eq_self.mpr inv.allLive).symm

theorem TableInv.count_eq {sock : ℤ} {s : Server} (inv : TableInv sock s) :
    s.os.conns.length = s.h.clientCount - 1 := by
  rw [← clients_length, inv.clients_eq, List.length_map]

/-- The client slots are the connections, in their order. -/
theorem TableInv.slot_entry {sock : ℤ} {s : Server} (inv : TableInv sock s) {k : ℕ} (hk : 1 ≤ k)
    (hk' : k < s.h.clientCount) :
    ∃ c, s.os.conns[k - 1]? = some c ∧ s.h.slot k = c.entry := by
  have hcount := inv.count_eq
  have hi : k - 1 < s.os.conns.length := by omega
  refine ⟨s.os.conns[k - 1], List.getElem?_eq_getElem hi, ?_⟩
  have hi' : k - 1 < s.h.clients.length := by
    rw [clients_length]
    omega
  have hget := clients_getElem s.h (k - 1) hi'
  rw [Nat.sub_add_cancel hk] at hget
  rw [← hget]
  simp only [inv.clients_eq, List.getElem_map]

theorem TableInv.of_sameTable {sock : ℤ} {s : Server} (inv : TableInv sock s) {h' : Commh}
    (st : SameTable s.h h') : TableInv sock ⟨h', s.os⟩ := by
  refine ⟨inv.toServerInv.of_sameTable st, ?_, ?_⟩
  · rw [st.clients]
    exact inv.allLive
  · rw [st.slot]
    exact inv.slot_zero

theorem TableInv.tableStep {sock : ℤ} {s t : Server} (inv : TableInv sock s)
    (step : TableStep s t) : TableInv sock t := by
  have hinv := inv.toServerInv.tableStep step
  cases step with
  | accept cs cli fresh =>
    rcases commsAccepter_spec inv.isServer cs cli fresh.1 with
      ⟨-, h', hacc, hent⟩ | ⟨-, hacc⟩
    · refine ⟨hinv, ?_, ?_⟩
      · rw [Server.accept, hacc]
        intro x hx
        dsimp only at hx
        rw [hent.clients] at hx
        rcases List.mem_append.mp hx with hx | hx
        · exact inv.allLive x hx
        · rw [List.mem_singleton.mp hx]
          exact live_iff.mpr fresh.1
      · rw [Server.accept, hacc]
        dsimp only
        rw [hent.slot_zero]
        exact inv.slot_zero
    · refine ⟨hinv, ?_, ?_⟩
      · rw [Server.accept, hacc]
        exact inv.allLive
      · rw [Server.accept, hacc]
        exact inv.slot_zero
  | acceptFail errno =>
    obtain ⟨loop, hacc⟩ := commsAccepter_fail s.h errno
    rw [hacc]
    exact inv
  | disconnect cid hd =>
    rcases commsDisconnect_spec inv.isServer cid with
      ⟨h', hd', -, -, -, hrem⟩ | ⟨line, hd', -⟩
    · cases hd.symm.trans hd'
      refine ⟨hinv, fun x hx => ?_, ?_⟩
      · dsimp only at hx
        rw [hrem.clients] at hx
        exact inv.allLive x (List.eraseIdx_subset hx)
      · dsimp only
        rw [hrem.slot_zero]
        exact inv.slot_zero
    · cases hd.symm.trans hd'
      exact ⟨hinv, inv.allLive, inv.slot_zero⟩

theorem table_inv {h₀ h : Commh} {opt : CommsOpt} {env : InitEnv} {calls : List OsCall}
    (hinit : commsTcpserverInitOpt h₀ opt env = some (h, calls, true)) {s : Server}
    (hrun : Relation.ReflTransGen TableStep (Server.init h env.socket) s) :
    TableInv env.socket s := by
  refine Machine.reachable_invariant (fun _ _ inv step => inv.tableStep step) hrun
    ⟨serverInv_init hinit, ?_, (commsTcpserverInitOpt_spec hinit).2.2⟩
  have hclients : (Server.init h env.socket).h.clients = [] := by
    rw [← List.length_eq_zero_iff, clients_length]
    change h.clientCount - 1 = 0
    rw [(commsTcpserverInitOpt_spec hinit).2.1]
  rw [hclients]
  simp

/-! ## The table in every reachable state -/

/-- `CommsDisconnect(cid)` closes the descriptor in slot `cid` and takes only that
client out of the table. -/
def Removes (s : Server) (cid : BitVec 16) : Prop :=
  ∃ h', commsDisconnect s.h cid =
      some (h', [.shutdown (s.h.slot cid.toNat).1, .close (s.h.slot cid.toNat).1], true) ∧
    h'.clientCount = s.h.clientCount - 1 ∧ h'.slot 0 = s.h.slot 0 ∧
    h'.clients = s.h.clients.eraseIdx (cid.toNat - 1) ∧
    (s.os.close (s.h.slot cid.toNat).1).conns = s.os.conns.eraseIdx (cid.toNat - 1)

/-- `CommsDisconnect(cid)` returns `false`, closes nothing and leaves the table. -/
def Refuses (s : Server) (cid : BitVec 16) : Prop :=
  ∃ h', commsDisconnect s.h cid = some (h', [], false) ∧ SameTable s.h h'

/-- The accepter enters the connection behind the last client. -/
def Enters (s : Server) (cs : ℤ) (cli : SockaddrIn) : Prop :=
  ∃ h', commsAccepter s.h (.conn cs cli) = (h', [], .next) ∧
    h'.clientCount = s.h.clientCount + 1 ∧ h'.slot 0 = s.h.slot 0 ∧
    h'.clients = s.h.clients ++ [(cs, cli)]

/-- The accepter closes the connection and leaves the table. -/
def Rejects (s : Server) (cs : ℤ) (cli : SockaddrIn) : Prop :=
  ∃ h', commsAccepter s.h (.conn cs cli) = (h', [.shutdown cs, .close cs], .exit) ∧
    SameTable s.h h'

/-- The state of the table and what the next operation does to it.  `numbers` says
that every connection ever accepted is open or was closed, and closed once. -/
structure TableSpec (sock : ℤ) (s : Server) : Prop where
  count_pos : 1 ≤ s.h.clientCount
  count_le : s.h.clientCount ≤ commsMaxClients
  slot_zero : (s.h.slot 0).1 = sock
  slots : s.h.clients = s.os.conns.map Conn.entry
  fds : (s.os.conns.map (·.fd)).Nodup
  ordered : s.os.conns.Pairwise (·.id < ·.id)
  numbers : (s.os.conns ++ s.os.closed).map (·.id) |>.Perm (List.range s.os.next)
  badClose : s.os.badClose = []
  disconnect : ∀ cid : BitVec 16,
    if 1 ≤ cid.toNat ∧ cid.toNat < s.h.clientCount then Removes s cid else Refuses s cid
  accept : ∀ cs cli, s.os.Fresh cs →
    if s.h.clientCount < commsMaxClients then Enters s cs cli else Rejects s cs cli

theorem TableInv.disconnect {sock : ℤ} {s : Server} (inv : TableInv sock s) (cid : BitVec 16) :
    if 1 ≤ cid.toNat ∧ cid.toNat < s.h.clientCount then Removes s cid else Refuses s cid := by
  rcases inv.disconnect_cases cid with
    ⟨h', before, c, after, hd, hk, hk', hrem, hce, hconns, hbefore, hos, -⟩ |
    ⟨h', hd, hst, hwhy⟩
  · rw [if_pos ⟨hk, hk'⟩]
    have hfd : c.fd = (s.h.slot cid.toNat).1 := by rw [← hce, Conn.entry]
    rw [hfd] at hd hos
    refine ⟨h', hd, hrem.clientCount, hrem.slot_zero, hrem.clients, hos.trans ?_⟩
    -- all slots are live, so the connection has the slot's position
    have hlen : before.length = cid.toNat - 1 := by
      have htake : (s.h.clients.take (cid.toNat - 1)).filter live =
          s.h.clients.take (cid.toNat - 1) :=
        List.filter_eq_self.mpr fun x hx => inv.allLive x (List.mem_of_mem_take hx)
      have hlen := congrArg List.length (hbefore.trans htake)
      rw [List.length_map, List.length_take, clients_length] at hlen
      omega
    rw [hconns, ← hlen, List.eraseIdx_append_of_length_le le_rfl, Nat.sub_self,
      List.eraseIdx_cons_zero]
  · rw [if_neg]
    · exact ⟨h', hd, hst⟩
    · rintro ⟨hk, hk'⟩
      have hmem : s.h.slot cid.toNat ∈ s.h.clients := by
        refine List.mem_map.mpr ⟨cid.toNat - 1, List.mem_range.mpr (by omega), ?_⟩
        rw [Nat.sub_add_cancel hk]
      rcases hwhy with hwhy | hwhy | hwhy
      · omega
      · omega
      · rw [inv.allLive _ hmem] at hwhy
        cases hwhy

theorem TableInv.acceptSpec {sock : ℤ} {s : Server} (inv : TableInv sock s) (cs : ℤ)
    (cli : SockaddrIn) (fresh : s.os.Fresh cs) :
    if s.h.clientCount < commsMaxClients then Enters s cs cli else Rejects s cs cli := by
  rcases commsAccepter_spec inv.isServer cs cli fresh.1 with
    ⟨hlt, h', hacc, hent⟩ | ⟨hfull, hacc⟩
  · rw [if_pos hlt]
    exact ⟨h', hacc, hent.clientCount, hent.slot_zero, hent.clients⟩
  · rw [if_neg (by omega)]
    exact ⟨_, hacc, .of_setError _ _ _ _⟩

/-- **The client table of a server.**  In every state that accepts and disconnects
reach, the table is the list of open connections in order of acceptance. -/
theorem server_table {h₀ h : Commh} {opt : CommsOpt} {env : InitEnv} {calls : List OsCall}
    (hinit : commsTcpserverInitOpt h₀ opt env = some (h, calls, true)) {s : Server}
    (hrun : Relation.ReflTransGen TableStep (Server.init h env.socket) s) :
    TableSpec env.socket s := by
  have inv := table_inv hinit hrun
  exact ⟨inv.isServer.count_pos, inv.isServer.count_le, inv.slot_zero, inv.clients_eq, inv.os.fds,
    inv.os.ordered, inv.os.numbers, inv.os.badClose, inv.disconnect, inv.acceptSpec⟩

/-! A server on descriptor 3 with two clients. -/

/-- A global `commh_t` before any call. -/
def Commh.zero : Commh where
  tcp := false
  server := false
  clientsSocks := Vector.replicate commsMaxClients 0
  clientAddress := Vector.replicate commsMaxClients .zero
  clientCount := 0
  localAddress := .zero
  recvcb := false
  listener := 0
  accepter := 0
  running := false
  errType := .noerror
  error := ("", 0)

def defaultOpt : CommsOpt := ⟨false, none, 0, true⟩

def okEnv : InitEnv := ⟨3, 0, 0, 0, 0, 1, 2, 0, 0⟩

/-- The handle that the `Init` leaves when every system call succeeds. -/
def newServer : Commh :=
  { Commh.zero with
    tcp := true
    server := true
    clientsSocks := Commh.zero.clientsSocks.setIfInBounds 0 3
    clientCount := 1
    localAddress := ⟨afInet, commsDefListenPort, commsDefListenIp⟩
    recvcb := true
    listener := 1
    accepter := 2
    running := true }

theorem newServer_init :
    commsTcpserverInitOpt .zero defaultOpt okEnv =
      some (newServer, [.socket 3, .create 1, .create 2], true) := rfl

def peerA : SockaddrIn := ⟨afInet, 40001, 1⟩

def peerB : SockaddrIn := ⟨afInet, 40002, 2⟩

def oneClient : Server := (Server.init newServer 3).accept 4 peerA

def twoClients : Server := oneClient.accept 5 peerB

theorem oneClient_reachable :
    Relation.ReflTransGen TableStep (Server.init newServer 3) oneClient :=
  .tail .refl (.accept 4 peerA ⟨by decide, by decide, by decide⟩)

theorem fresh_peerB : oneClient.os.Fresh 5 := ⟨by decide, by decide, by decide⟩

theorem twoClients_reachable :
    Relation.ReflTransGen TableStep (Server.init newServer 3) twoClients :=
  .tail oneClient_reachable (.accept 5 peerB fresh_peerB)

/-- A server after `CommsDisconnect(1)`. -/
def disconnectFirst (s : Server) : Server :=
  match commsDisconnect s.h 1 with
  | none => s
  | some (h', calls, _) => ⟨h', s.os.calls calls⟩

theorem disconnectFirst_eq {s : Server} (hd : (commsDisconnect s.h 1).isSome = true) :
    ∃ h' calls r, commsDisconnect s.h 1 = some (h', calls, r) ∧
      disconnectFirst s = ⟨h', s.os.calls calls⟩ := by
  obtain ⟨⟨h', calls, r⟩, hd⟩ := Option.isSome_iff_exists.mp hd
  exact ⟨h', calls, r, hd, by rw [disconnectFirst, hd]⟩

theorem disconnectFirst_step {s : Server} (hd : (commsDisconnect s.h 1).isSome = true) :
    TableStep s (disconnectFirst s) := by
  obtain ⟨h', calls, r, hd, heq⟩ := disconnectFirst_eq hd
  rw [heq]
  exact .disconnect 1 hd

theorem server_table_two : TableSpec 3 twoClients :=
  server_table newServer_init twoClients_reachable

end DataCommons.Comms
