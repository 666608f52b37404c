import DataCommons.Comms.Cids
import DataCommons.Comms.Delivery
import DataCommons.Lib.Tour

/-!
# Whose turn it is

How often the listener calls `recv` for a client while the accepter goes on and users
disconnect other clients, in any order.  A removal below the client moves it to a slot that
the pass in progress may have left behind.

* `TurnRun`: a run that counts the passes that were begun and the calls of `recv` for one
  connection;
* `Follows.step`: seen from one client, the listener is the cursor of a tour;
* `turns_of_client`: a client that stays connected has its turn in every pass except at
  most one for each slot it has moved down, and never two in one pass.
-/

namespace DataCommons.Comms

open Commh

def begins (y y' : System) : ℕ := if y.phase = .top ∧ y'.phase ≠ .top then 1 else 0

/-- The listener calls `recv` on the descriptor of `c`. -/
def asks (c : Conn) (y y' : System) : ℕ :=
  match y.phase with
  | .holding _ _ fd _ =>
    if y'.phase ≠ y.phase ∧ y.server.os.conns.find? (·.fd = fd) = some c then 1 else 0
  | _ => 0

/-- A run with the number of passes begun and of `recv` calls for `c`. -/
inductive TurnRun (c : Conn) (y : System) : ℕ → ℕ → System → Prop
  | refl : TurnRun c y 0 0 y
  | tail {passes reads : ℕ} {y₁ y₂ : System} (run : TurnRun c y passes reads y₁)
      (step : SysStep y₁ y₂) : TurnRun c y (passes + begins y₁ y₂) (reads + asks c y₁ y₂) y₂

/-- The listener as a cursor, seen from connection `c`. -/
def cursor (c : Conn) : Phase → Tour.Pos
  | .top => .idle
  | .scan i _ => .before i
  | .holding i _ fd _ => .holding i (fd = c.fd)
  | .closing i _ => .before (i + 1)

/-- Slot `k` is below the count of the pass. -/
def Covers (k : ℕ) : Phase → Prop
  | .top => True
  | .scan _ n | .holding _ n _ _ | .closing _ n => k < n

theorem Covers.mono {k k' : ℕ} (hk : k' ≤ k) {p : Phase} (h : Covers k p) : Covers k' p := by
  cases p with
  | top => trivial
  | _ => exact lt_of_le_of_lt hk h

/-- What is seen from `c` in slot `j + 1`. -/
def tour (c : Conn) (j : ℕ) (phase : Phase) (passes reads : ℕ) : Tour.State :=
  ⟨j + 1, cursor c phase, passes, reads⟩

/-! ## Where a client moves -/

section Place

variable {sock : ℤ} {s : Server} {c : Conn} {j : ℕ}

/-- A client that was there before an `accept` stays where it is. -/
theorem TableInv.accept_place (inv : TableInv sock s) {cs : ℤ} {cli : SockaddrIn}
    (fresh : s.os.Fresh cs) (hold : c.id < s.os.next)
    (hc : (s.accept cs cli).os.conns[j]? = some c) : s.os.conns[j]? = some c := by
  rcases commsAccepter_spec inv.isServer cs cli fresh.1 with ⟨-, h', hacc, -⟩ | ⟨-, hacc⟩
  · rw [Server.accept, hacc] at hc
    change (s.os.conns ++ [_])[j]? = some c at hc
    by_cases hj : j < s.os.conns.length
    · rwa [List.getElem?_append_left hj] at hc
    · rw [List.getElem?_append_right (by omega)] at hc
      rw [List.mem_singleton.mp (List.mem_of_getElem? hc)] at hold
      exact absurd hold (Nat.lt_irrefl _)
  · obtain ⟨hclose, -⟩ := (inv.os.accept cli fresh).close s.os.conns [] rfl
    rw [Server.accept, hacc] at hc
    change ((s.os.accept cs cli).close cs).conns[j]? = _ at hc
    rwa [hclose, List.append_nil] at hc

/-- Behind a `CommsDisconnect` a client is where it was, or one slot below. -/
theorem TableInv.disconnect_place (inv : TableInv sock s) {cid : BitVec 16} {h' : Commh}
    {calls : List OsCall} {r : Bool} (hd : commsDisconnect s.h cid = some (h', calls, r))
    (hc : (s.os.calls calls).conns[j]? = some c) :
    s.os.conns[j]? = some c ∨ s.os.conns[j + 1]? = some c := by
  have hdis := inv.disconnect cid
  split at hdis
  · obtain ⟨g, hd', -, -, -, hos⟩ := hdis
    cases hd.symm.trans hd'
    change (s.os.close _).conns[j]? = some c at hc
    rw [hos] at hc
    by_cases hj : j < cid.toNat - 1
    · rw [List.getElem?_eraseIdx_of_lt hj] at hc
      exact .inl hc
    · rw [List.getElem?_eraseIdx_of_ge (by omega)] at hc
      exact .inr hc
  · obtain ⟨g, hd', -⟩ := hdis
    cases hd.symm.trans hd'
    exact .inl hc

/-- A step of the table moves a client that stays by one slot at most. -/
theorem TableInv.step_place (inv : TableInv sock s) {t : Server} (step : TableStep s t)
    (hold : c.id < s.os.next) (hc : t.os.conns[j]? = some c) :
    s.os.conns[j]? = some c ∨ s.os.conns[j + 1]? = some c := by
  cases step with
  | accept cs cli fresh => exact .inl (inv.accept_place fresh hold hc)
  | acceptFail errno =>
    obtain ⟨loop, hacc⟩ := commsAccepter_fail s.h errno
    rw [hacc] at hc
    exact .inl hc
  | disconnect cid hd => exact inv.disconnect_place hd hc

/-- What the listener finds in the slot of a client. -/
theorem TableInv.place_slot (inv : TableInv sock s) (hc : s.os.conns[j]? = some c) :
    j + 1 < s.h.clientCount ∧ s.h.slot (j + 1) = c.entry := by
  have hlt := (List.getElem?_eq_some_iff.mp hc).1
  have hcount := inv.count_eq
  obtain ⟨d, hd, hentry⟩ := inv.slot_entry (k := j + 1) (by omega) (by omega)
  rw [Nat.add_sub_cancel] at hd
  cases hc.symm.trans hd
  exact ⟨by omega, hentry⟩

/-- A descriptor that the listener reads is `c`'s in no other slot. -/
theorem TableInv.read_place (inv : TableInv sock s) {i n m k : ℕ} {fd : ℤ} {addr : SockaddrIn}
    (hi : 1 ≤ i) (hun : Unused s.h n) (hr : listenerRead s.h i n = some (.holding k m fd addr))
    (hc : s.os.conns[j]? = some c) (hfd : fd = c.fd) : k = i ∧ i = j + 1 := by
  obtain ⟨rfl, d, -, hd, hentry⟩ := inv.read_client hi hun hr
  have hdc : d.fd = c.fd := (congrArg Prod.fst hentry).trans hfd
  have hsame : d = c := List.inj_on_of_nodup_map inv.os.fds (List.mem_of_getElem? hd)
    (List.mem_of_getElem? hc) hdc
  subst hsame
  obtain ⟨hlt, hget⟩ := List.getElem?_eq_some_iff.mp hd
  have heq := (List.getElem?_inj hlt inv.os.ordered.nodup).mp (hd.trans hc.symm)
  exact ⟨rfl, by omega⟩

end Place

/-! ## What a step counts -/

theorem begins_of_phase {y y' : System} (h : y'.phase = y.phase) : begins y y' = 0 :=
  if_neg fun hb => hb.2 (h.trans hb.1)

theorem begins_of_ne_top {y y' : System} (h : y.phase ≠ .top) : begins y y' = 0 :=
  if_neg fun hb => h hb.1

theorem asks_of_phase (c : Conn) {y y' : System} (h : y'.phase = y.phase) : asks c y y' = 0 := by
  rw [asks]
  split
  · exact if_neg fun ha => ha.1 h
  · rfl

theorem asks_of_not_holding (c : Conn) {y y' : System}
    (h : ∀ i n fd addr, y.phase ≠ .holding i n fd addr) : asks c y y' = 0 := by
  rw [asks]
  split
  · rename_i i n fd addr hp
    exact absurd hp (h i n fd addr)
  · rfl

theorem asks_recv {c : Conn} {y y' : System} {i n : ℕ} {fd : ℤ} {addr : SockaddrIn}
    (hp : y.phase = .holding i n fd addr) (hp' : y'.phase ≠ y.phase) : asks c y y' =
      if y.server.os.conns.find? (·.fd = fd) = some c then 1 else 0 := by
  rw [asks, hp]
  simp only [hp ▸ hp', ne_eq, not_false_eq_true, true_and]

/-! ## One step -/

/-- What `c` has seen since it stood in slot `s + 1` between two passes is a tour. -/
structure Follows (c : Conn) (s : ℕ) (y : System) (passes reads : ℕ) : Prop where
  old : c.id < y.server.os.next
  tour : ∀ j, y.server.os.conns[j]? = some c → Covers (j + 1) y.phase ∧
    Relation.ReflTransGen Tour.Step ⟨s + 1, .idle, 0, 0⟩ (tour c j y.phase passes reads)

section Step

variable {sock : ℤ} {c : Conn} {s passes reads : ℕ} {y : System}

theorem Follows.place (inv : Follows c s y passes reads) {y' : System}
    (hphase : y'.phase = y.phase) (hnext : y.server.os.next ≤ y'.server.os.next)
    (hplace : ∀ j, y'.server.os.conns[j]? = some c →
      y.server.os.conns[j]? = some c ∨ y.server.os.conns[j + 1]? = some c) :
    Follows c s y' passes reads := by
  refine ⟨lt_of_lt_of_le inv.old hnext, fun j hc => ?_⟩
  rw [hphase]
  rcases hplace j hc with hc | hc
  · exact inv.tour j hc
  · obtain ⟨hcovers, hrun⟩ := inv.tour (j + 1) hc
    exact ⟨hcovers.mono (Nat.le_succ _), hrun.tail .shift⟩

theorem Follows.count (inv : Follows c s y passes reads) (ht : TableInv sock y.server)
    (hp : y.phase = .top) :
    Follows c s { y with phase := listenerCount y.server.h } (passes + 1) reads := by
  refine ⟨inv.old, fun j hc => ⟨(ht.place_slot hc).1, ?_⟩⟩
  obtain ⟨-, hrun⟩ := inv.tour j hc
  rw [hp] at hrun
  exact hrun.tail (.start (Nat.le_add_left 1 j))

/-- The listener finds `c` in its slot and in no other one. -/
theorem Follows.read (inv : Follows c s y passes reads) (ht : TableInv sock y.server)
    (hphase : PhaseInv y) {i n : ℕ} {p : Phase} (hp : y.phase = .scan i n)
    (hr : listenerRead y.server.h i n = some p) :
    Follows c s { y with phase := p, stale := false } passes reads := by
  refine ⟨inv.old, fun j hc => ?_⟩
  obtain ⟨hcovers, hrun⟩ := inv.tour j hc
  rw [PhaseInv, hp] at hphase
  obtain ⟨hi, hun⟩ := hphase
  rw [hp] at hcovers hrun
  obtain ⟨-, hslot⟩ := ht.place_slot hc
  by_cases hin : i < n
  · have hread := hr
    rw [listenerRead_of_lt _ hin hun.1, Option.some_inj] at hread
    by_cases hdead : (y.server.h.slot i).1 ≤ 0
    · rw [if_pos hdead] at hread
      subst hread
      refine ⟨hcovers, hrun.tail (.skip ?_)⟩
      rintro rfl
      rw [hslot] at hdead
      exact absurd (ht.os.pos c (List.mem_of_getElem? hc)) (not_lt.mpr hdead)
    · rw [if_neg hdead] at hread
      subst hread
      refine ⟨hcovers, ?_⟩
      have hown : (y.server.h.slot i).1 = c.fd ↔ i = j + 1 := by
        refine ⟨fun hfd => (ht.read_place hi hun hr hc hfd).2, ?_⟩
        rintro rfl
        rw [hslot]
        rfl
      have htake := hrun.tail Tour.Step.take
      rwa [← decide_eq_decide.mpr hown] at htake
  · rw [listenerRead, if_neg hin] at hr
    cases hr
    have hlt : j + 1 < i := lt_of_lt_of_le hcovers (not_lt.mp hin)
    exact ⟨trivial, hrun.tail (.finish hlt)⟩

theorem Follows.recv (inv : Follows c s y passes reads) (ht : TableInv sock y.server)
    {i n : ℕ} {fd : ℤ} {addr : SockaddrIn} (hp : y.phase = .holding i n fd addr) {y' : System}
    (hserver : y'.server = y.server)
    (hphase : y'.phase = .scan (i + 1) n ∨ y'.phase = .closing i n) :
    Follows c s y' passes
      (reads + if y.server.os.conns.find? (·.fd = fd) = some c then 1 else 0) := by
  refine ⟨hserver ▸ inv.old, fun j hc => ?_⟩
  rw [hserver] at hc
  obtain ⟨hcovers, hrun⟩ := inv.tour j hc
  rw [hp] at hcovers hrun
  have hvisit := hrun.tail Tour.Step.visit
  rw [ht.os.own_toNat (List.mem_of_getElem? hc)] at hvisit
  rcases hphase with hphase | hphase
  · rw [hphase]
    exact ⟨hcovers, hvisit⟩
  · rw [hphase]
    exact ⟨hcovers, hvisit⟩

theorem Follows.disconnect (inv : Follows c s y passes reads) {i n : ℕ}
    (hp : y.phase = .closing i n) {y' : System} (hphase : y'.phase = .scan (i + 1) n)
    (hnext : y.server.os.next ≤ y'.server.os.next)
    (hplace : ∀ j, y'.server.os.conns[j]? = some c →
      y.server.os.conns[j]? = some c ∨ y.server.os.conns[j + 1]? = some c) :
    Follows c s y' passes reads := by
  -- to the client, the slot is left behind already
  have inv' : Follows c s { y with phase := .scan (i + 1) n } passes reads := by
    refine ⟨inv.old, fun j hc => ?_⟩
    obtain ⟨hcovers, hrun⟩ := inv.tour j hc
    rw [hp] at hcovers hrun
    exact ⟨hcovers, hrun⟩
  exact inv'.place hphase hnext hplace

theorem Follows.step (inv : Follows c s y passes reads) (ht : TableInv sock y.server)
    (hphase : PhaseInv y) {y' : System} (step : SysStep y y') :
    Follows c s y' (passes + begins y y') (reads + asks c y y') := by
  cases step with
  | accept cs cli fresh =>
    rw [begins_of_phase (by rfl), asks_of_phase c (by rfl)]
    have step : TableStep y.server _ := .accept cs cli fresh
    exact inv.place rfl (ht.toServerInv.later_tableStep step).1
      fun j hc => ht.step_place step inv.old hc
  | user cid hd =>
    rw [begins_of_phase (by rfl), asks_of_phase c (by rfl)]
    have step : TableStep y.server _ := .disconnect cid hd
    exact inv.place rfl (ht.toServerInv.later_tableStep step).1
      fun j hc => ht.step_place step inv.old hc
  | count hp hr =>
    have hbegins : begins y { y with phase := listenerCount y.server.h } = 1 :=
      if_pos ⟨hp, Phase.noConfusion⟩
    rw [hbegins, asks_of_not_holding c (by simp [hp])]
    exact inv.count ht hp
  | read hp hr =>
    rw [begins_of_ne_top (by simp [hp]), asks_of_not_holding c (by simp [hp])]
    exact inv.read ht hphase hp hr
  | @recv i n fd addr answer hp =>
    have hnext := listenerRecv_phase y.server.h i n addr answer
    rw [begins_of_ne_top (by simp [hp]), asks_recv hp (by rcases hnext with h | h <;> simp [h, hp])]
    exact inv.recv ht hp rfl hnext
  | disconnect hp hd =>
    obtain ⟨⟨r, hd'⟩, rfl⟩ := listenerDisconnect_eq hd
    rw [begins_of_ne_top (by simp [hp]), asks_of_not_holding c (by simp [hp])]
    have step : TableStep y.server _ := .disconnect _ hd'
    exact inv.disconnect hp rfl (ht.toServerInv.later_tableStep step).1
      fun j hc => ht.step_place step inv.old hc

end Step

/-! ## Every run -/

theorem TurnRun.follows {sock : ℤ} {c : Conn} {s : ℕ} {y y' : System} (ht : TableInv sock y.server)
    (hphase : PhaseInv y) (htop : y.phase = .top) (hs : y.server.os.conns[s]? = some c)
    {passes reads : ℕ} (run : TurnRun c y passes reads y') :
    TableInv sock y'.server ∧ PhaseInv y' ∧ Follows c s y' passes reads := by
  induction run with
  | refl =>
    refine ⟨ht, hphase, ht.os.id_lt (List.mem_of_getElem? hs), fun j hc => ?_⟩
    obtain ⟨hlt, -⟩ := List.getElem?_eq_some_iff.mp hs
    obtain rfl : s = j := (List.getElem?_inj hlt ht.os.ordered.nodup).mp (hs.trans hc.symm)
    rw [htop]
    exact ⟨trivial, .refl⟩
  | tail run step ih =>
    obtain ⟨ht, hphase, follows⟩ := ih
    obtain ⟨ht', hphase'⟩ := step.core ht hphase
    exact ⟨ht', hphase', follows.step ht hphase step⟩

/-- **No client starves.**  Let `c` stand in slot `s + 1` of a running server when the
listener is between two passes, and still be connected, in slot `j + 1`, after any steps of
the listener, the accepter and the users.  Then the listener has called `recv` for it at
most once in every pass, and has missed it in at most `s - j` passes, the one in progress
not counted: the clients before it that are gone. -/
theorem turns_of_client {h₀ h : Commh} {opt : CommsOpt} {env : InitEnv} {calls : List OsCall}
    (hinit : commsTcpserverInitOpt h₀ opt env = some (h, calls, true)) {y y' : System}
    (hreach : Relation.ReflTransGen SysStep (System.init h env.socket) y) (htop : y.phase = .top)
    {c : Conn} {s : ℕ} (hs : y.server.os.conns[s]? = some c) {passes reads : ℕ}
    (run : TurnRun c y passes reads y') {j : ℕ} (hj : y'.server.os.conns[j]? = some c) :
    j ≤ s ∧ reads ≤ passes ∧ passes ≤ reads + (s - j) + 1 ∧
      (y'.phase = .top → passes ≤ reads + (s - j)) := by
  have hstart : TableInv env.socket (System.init h env.socket).server := table_inv hinit .refl
  have hcore := Machine.reachable_invariant (I := fun y => TableInv env.socket y.server ∧ PhaseInv y)
    (fun _ _ inv step => SysStep.core step inv.1 inv.2) hreach ⟨hstart, trivial⟩
  obtain ⟨-, -, follows⟩ := run.follows hcore.1 hcore.2 htop hs
  obtain ⟨hle, honce, hbound, hidle⟩ := Tour.run_bounds (follows.tour j hj).2
  refine ⟨by omega, honce, by omega, fun hp => ?_⟩
  have hidle := hidle (by rw [hp]; rfl)
  omega

/-! The second of two clients, in a pass in which the first one ends its stream. -/

theorem TurnRun.tail_of_eq {c : Conn} {y y₁ y₂ : System} {passes reads b a : ℕ}
    (run : TurnRun c y passes reads y₁) (step : SysStep y₁ y₂) (hb : begins y₁ y₂ = b)
    (ha : asks c y₁ y₂ = a) : TurnRun c y (passes + b) (reads + a) y₂ :=
  hb ▸ ha ▸ .tail run step

def betweenPasses : System := ⟨twoClients, .top, none, false, []⟩

theorem betweenPasses_reachable :
    Relation.ReflTransGen SysStep (System.init newServer 3) betweenPasses := by
  have hone : SysStep (System.init newServer 3) ⟨oneClient, .top, none, false, []⟩ :=
    .accept 4 peerA ⟨by decide, by decide, by decide⟩
  have htwo : SysStep ⟨oneClient, .top, none, false, []⟩ betweenPasses :=
    .accept 5 peerB fresh_peerB
  exact .tail (.tail .refl hone) htwo

theorem read_slot {s : Server} {i n : ℕ} {p : Phase} {reported : Option Conn} {stale : Bool}
    {log : List Event} (hr : listenerRead s.h i n = some p) :
    SysStep ⟨s, .scan i n, reported, stale, log⟩ ⟨s, p, reported, false, log⟩ := .read rfl hr

theorem missed_run : ∃ log, TurnRun ⟨1, 5, peerB⟩ betweenPasses 1 0
    ⟨disconnectFirst twoClients, .top, some ⟨0, 4, peerA⟩, false, log⟩ := by
  have hcount : SysStep betweenPasses ⟨twoClients, .scan 1 3, none, false, []⟩ := .count rfl rfl
  have hread : SysStep ⟨twoClients, .scan 1 3, none, false, []⟩
      ⟨twoClients, .holding 1 3 4 peerA, none, false, []⟩ := .read rfl (by decide +kernel)
  have hphase : (⟨twoClients, .holding 1 3 4 peerA, none, false, []⟩ : System).phase =
      .holding 1 3 4 peerA := rfl
  have hrecv : SysStep ⟨twoClients, .holding 1 3 4 peerA, none, false, []⟩ firstEnded :=
    .recv (.data []) hphase
  have hasks :
      asks ⟨1, 5, peerB⟩ ⟨twoClients, .holding 1 3 4 peerA, none, false, []⟩ firstEnded = 0 := by
    have hfind : twoClients.os.conns.find? (·.fd = 4) = some ⟨0, 4, peerA⟩ := by decide +kernel
    rw [asks_recv (by rfl) (by simp [firstEnded]), if_neg (by rw [hfind]; decide)]
  have hsecond : listenerRead (disconnectFirst twoClients).h 2 3 = some (.scan 3 3) := by
    decide +kernel
  have hend : listenerRead (disconnectFirst twoClients).h 3 3 = some .top := rfl
  have run := (((TurnRun.refl.tail_of_eq hcount rfl rfl).tail_of_eq hread rfl rfl).tail_of_eq hrecv
    rfl hasks).tail_of_eq (disconnect_one (by decide +kernel)) rfl rfl
  exact ⟨_, (run.tail_of_eq (read_slot hsecond) rfl rfl).tail_of_eq (read_slot hend) rfl rfl⟩

/-- The pass misses the second client, which has moved to the first one's slot. -/
theorem turns_of_second : ∃ y', TurnRun ⟨1, 5, peerB⟩ betweenPasses 1 0 y' ∧ y'.phase = .top ∧
    0 ≤ 1 ∧ 0 ≤ 1 ∧ 1 ≤ 0 + (1 - 0) + 1 ∧ (y'.phase = .top → 1 ≤ 0 + (1 - 0)) := by
  obtain ⟨log, run⟩ := missed_run
  have hs : betweenPasses.server.os.conns[1]? = some ⟨1, 5, peerB⟩ := by decide +kernel
  have hj : (disconnectFirst twoClients).os.conns[0]? = some ⟨1, 5, peerB⟩ := by decide +kernel
  have hturn := turns_of_client newServer_init betweenPasses_reachable rfl hs run (j := 0)
  dsimp only at hturn
  exact ⟨_, run, rfl, hturn hj⟩

end DataCommons.Comms
