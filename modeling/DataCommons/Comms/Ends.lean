import DataCommons.Comms.Listener
import DataCommons.Comms.Lifecycle

/-!
# Connections that have ended

The listener's loop of a TCP handle of either kind, beside the accepter, `CommsConnect`
and `CommsDisconnect` of other threads.  A client's pass is over slot 0 alone, and its
socket counts as its connection from the first `CommsConnect` on.

`ended` keeps the connections whose `recv` has returned 0 or an error that does not
pass, `again` those on which `recv` was called once more behind that, and `shut` those
that were shut down.

* `endStep_inv`: what one step keeps;
* `ended_dropped`: in runs where the listener disconnects the slot of the connection that
  has ended, and the handle is a server's, every such connection is dropped for good;
* `client_keeps_ended`: a client's `CommsDisconnect` refuses.
-/

namespace DataCommons.Comms

open Commh

/-! ## Runs of the listener -/

/-- The handle and the operating system, where the listener is, and the connection
whose descriptor the last `recv` was made on. -/
structure EndSt where
  server : Server
  phase : Phase
  reported : Option Conn
  shut : List Conn
  ended : List Conn
  again : List Conn

/-- Behind an `Init`; the socket of a server listens. -/
def EndSt.init (h : Commh) (sock : ℤ) : EndSt :=
  ⟨⟨h, ⟨[], [], 0, if h.server then some sock else none, []⟩⟩, .top, none, [], [], []⟩

/-- The connections that the calls shut down. -/
def shutBy (os : Os) (calls : List OsCall) : List Conn :=
  calls.filterMap fun call =>
    match call with
    | .shutdown fd => os.conns.find? (·.fd = fd)
    | _ => none

def EndSt.disconnected (s : EndSt) (h : Commh) (calls : List OsCall) : EndSt :=
  { s with server := ⟨h, s.server.os.calls calls⟩, shut := shutBy s.server.os calls ++ s.shut }

instance (os : Os) (fd : ℤ) : Decidable (os.Fresh fd) := inferInstanceAs (Decidable (_ ∧ _ ∧ _))

/-- A step of the accepter, of a user's thread or of the listener. -/
inductive EndEvent where
  | accept (cs : ℤ) (cli : SockaddrIn)
  | connect (ip : BitVec 32) (port : BitVec 16) (ret : ℤ)
  | user (cid : BitVec 16)
  | count
  | read
  | recv (answer : RecvResult)
  | disconnect

/-- A client's socket is its connection from the first `connect` on, whatever that returns:
the socket does not block, so the connection can also be made in the background. -/
def dialled (s : Server) (peer : SockaddrIn) : Os :=
  if s.h.server = false ∧ s.os.conns = [] then s.os.accept (s.h.slot 0).1 peer else s.os

/-- One step and the system calls it makes.  Only a server accepts. -/
def endStep (s : EndSt) : EndEvent → Option (EndSt × List OsCall)
  | .accept cs cli =>
    if s.server.h.server = true ∧ s.server.os.Fresh cs then
      some ({ s with server := s.server.accept cs cli },
        (commsAccepter s.server.h (.conn cs cli)).2.1)
    else none
  | .connect ip port ret =>
    match commsConnect s.server.h ip port ret with
    | none => none
    | some (h, _) => some ({ s with server := ⟨h, dialled s.server ⟨afInet, port, ip⟩⟩ }, [])
  | .user cid =>
    match commsDisconnect s.server.h cid with
    | none => none
    | some (h, calls, _) => some (s.disconnected h calls, calls)
  | .count =>
    if s.phase = .top ∧ s.server.h.running = true then
      some ({ s with
        phase := if s.server.h.server then listenerCount s.server.h else .scan 0 1 }, [])
    else none
  | .read =>
    match s.phase with
    | .scan i n =>
      match listenerRead s.server.h i n with
      | none => none
      | some p => some ({ s with phase := p }, [])
    | _ => none
  | .recv answer =>
    match s.phase with
    | .holding i n fd addr =>
      let c := s.server.os.conns.find? (·.fd = fd)
      some ({ s with
        phase := (listenerRecv s.server.h i n addr answer).1
        reported := c
        ended := if answer.isEnd then c.toList ++ s.ended else s.ended
        again := (c.filter (· ∈ s.ended)).toList ++ s.again }, [])
    | _ => none
  | .disconnect =>
    match s.phase with
    | .closing i n =>
      match listenerDisconnect s.server.h i n with
      | none => none
      | some (h, calls, p) => some ({ s.disconnected h calls with phase := p }, calls)
    | _ => none

/-- The listener is about to call `CommsDisconnect` for the connection. -/
def Dropping (s : EndSt) (c : Conn) : Prop :=
  (∃ i n, s.phase = .closing i n) ∧ s.reported = some c

/-- The connection is shut down, closed and out of the table, which holds the open ones. -/
structure Dropped (s : EndSt) (c : Conn) : Prop where
  shut : c ∈ s.shut
  closed : c ∈ s.server.os.closed
  out : c ∉ s.server.os.conns
  table : s.server.h.clients = s.server.os.conns.map Conn.entry

/-- Every connection that has ended is dropped, or will be by the listener's next step;
`recv` was not called on it again. -/
def EndedDropped (s : EndSt) : Prop :=
  (∀ c ∈ s.ended, Dropped s c ∨ Dropping s c) ∧ s.again = []

/-- What the listener's `CommsDisconnect` has to find: the connection that has ended is
gone already, or the handle is a server's that has it in the slot. -/
def FindsEnded (s : EndSt) : EndEvent → Prop
  | .disconnect => ∀ i n, s.phase = .closing i n → ∀ c, s.reported = some c →
      c ∈ s.server.os.conns → s.server.h.server = true ∧ s.server.h.slot i = c.entry
  | _ => True

/-! ## What is kept -/

/-- Where the listener of a server is. -/
def SlotInv (h : Commh) : Phase → Prop
  | .top => True
  | .scan i n => 1 ≤ i ∧ Unused h n
  | .holding i n _ _ => 1 ≤ i ∧ i < n ∧ Unused h n
  | .closing i n => 1 ≤ i ∧ i < n ∧ Unused h n

/-- A server's table is in order; a client has closed nothing.  A connection that has ended
was shut down and closed, or is being dropped. -/
structure EndInv (sock : ℤ) (s : EndSt) : Prop where
  kind : (TableInv sock s.server ∧ SlotInv s.server.h s.phase) ∨
    (s.server.h.server = false ∧ s.server.os.closed = [])
  ended : ∀ c ∈ s.ended, (c ∈ s.shut ∧ c ∈ s.server.os.closed) ∨
    (c ∈ s.server.os.conns ∧ Dropping s c)
  again : s.again = []

theorem OsInv.not_mem_of_closed {os : Os} (inv : OsInv os) {c : Conn} (hc : c ∈ os.closed) :
    c ∉ os.conns := by
  intro hmem
  have hnodup := inv.numbers.nodup_iff.mpr List.nodup_range
  rw [List.map_append] at hnodup
  have happart := (List.nodup_append.mp hnodup).2.2
  exact happart _ (List.mem_map_of_mem hmem) _ (List.mem_map_of_mem hc) rfl

theorem EndInv.endedDropped {sock : ℤ} {s : EndSt} (inv : EndInv sock s) : EndedDropped s := by
  refine ⟨fun c hc => ?_, inv.again⟩
  rcases inv.ended c hc with ⟨hshut, hclosed⟩ | ⟨-, hdropping⟩
  · rcases inv.kind with ⟨htable, -⟩ | ⟨-, hnone⟩
    · exact Or.inl ⟨hshut, hclosed, htable.os.not_mem_of_closed hclosed, htable.clients_eq⟩
    · rw [hnone] at hclosed
      cases hclosed
  · exact Or.inr hdropping

theorem TableInv.disconnect_closes {sock : ℤ} {s : Server} (inv : TableInv sock s)
    {cid : BitVec 16} {h' : Commh} {calls : List OsCall} {r : Bool}
    (hd : commsDisconnect s.h cid = some (h', calls, r)) :
    (calls = [] ∧ (cid.toNat < 1 ∨ s.h.clientCount ≤ cid.toNat)) ∨
    ∃ before c after, s.os.conns = before ++ c :: after ∧ c.entry = s.h.slot cid.toNat ∧
      shutBy s.os calls = [c] ∧
      s.os.calls calls = { s.os with conns := before ++ after, closed := c :: s.os.closed } := by
  rcases inv.disconnect_cases cid with
    ⟨g, before, c, after, hd', -, -, -, hentry, hconns, -, -, -⟩ | ⟨g, hd', -, hwhy⟩
  · cases hd.symm.trans hd'
    refine Or.inr ⟨before, c, after, hconns, hentry, ?_, (inv.os.close before after hconns).1⟩
    have hfind := inv.os.find_fd (c := c) (by simp [hconns])
    simp only [shutBy, List.filterMap_cons, hfind, List.filterMap_nil]
  · cases hd.symm.trans hd'
    refine Or.inl ⟨rfl, ?_⟩
    rcases hwhy with hwhy | hwhy | hdead
    · exact Or.inl hwhy
    · exact Or.inr hwhy
    · by_contra hin
      obtain ⟨hk, hk'⟩ := not_or.mp hin
      obtain ⟨c, hget, hentry⟩ := inv.slot_entry (not_lt.mp hk) (not_le.mp hk')
      have hpos := inv.os.pos c (List.mem_of_getElem? hget)
      rw [hentry, ← Bool.not_eq_true, live_iff] at hdead
      exact hdead hpos

/-! ## One step -/

section Step

variable {sock : ℤ} {s : EndSt}

/-- Behind a `CommsDisconnect` a connection is where it was, or shut down and closed. -/
theorem EndInv.disconnected {h' : Commh} {cid : BitVec 16} {calls : List OsCall} {r : Bool}
    (inv : EndInv sock s) (hd : commsDisconnect s.server.h cid = some (h', calls, r)) :
    (∀ c, c ∈ s.shut ∧ c ∈ s.server.os.closed →
      c ∈ (s.disconnected h' calls).shut ∧ c ∈ (s.disconnected h' calls).server.os.closed) ∧
    (∀ c ∈ s.server.os.conns, c ∈ (s.disconnected h' calls).server.os.conns ∨
      (c ∈ (s.disconnected h' calls).shut ∧ c ∈ (s.disconnected h' calls).server.os.closed)) := by
  rcases inv.kind with ⟨htable, -⟩ | ⟨hserver, -⟩
  · rcases htable.disconnect_closes hd with ⟨rfl, -⟩ | ⟨before, d, after, hconns, -, hshut, hos⟩
    · exact ⟨fun c hc => hc, fun c hc => Or.inl hc⟩
    · rw [EndSt.disconnected, hshut, hos]
      refine ⟨fun c hc => ⟨List.mem_cons_of_mem d hc.1, List.mem_cons_of_mem d hc.2⟩,
        fun c hc => ?_⟩
      rw [hconns, List.mem_append, List.mem_cons] at hc
      dsimp only
      rw [List.mem_append]
      rcases hc with hc | rfl | hc
      · exact Or.inl (Or.inl hc)
      · exact Or.inr ⟨List.mem_cons_self, List.mem_cons_self⟩
      · exact Or.inl (Or.inr hc)
  · cases hd.symm.trans (commsDisconnect_client hserver cid)
    exact ⟨fun c hc => hc, fun c hc => Or.inl hc⟩

theorem SlotInv.mono {h h' : Commh} {p : Phase} (inv : SlotInv h p)
    (hunused : ∀ n, Unused h n → Unused h' n) : SlotInv h' p := by
  cases p with
  | top => trivial
  | scan i n => exact ⟨inv.1, hunused n inv.2⟩
  | holding i n fd addr => exact ⟨inv.1, inv.2.1, hunused n inv.2.2⟩
  | closing i n => exact ⟨inv.1, inv.2.1, hunused n inv.2.2⟩

theorem EndInv.kind_disconnected {h' : Commh} {cid : BitVec 16} {calls : List OsCall} {r : Bool}
    (inv : EndInv sock s) (hd : commsDisconnect s.server.h cid = some (h', calls, r)) {p : Phase}
    (hp : SlotInv s.server.h s.phase → SlotInv s.server.h p) :
    (TableInv sock ⟨h', s.server.os.calls calls⟩ ∧ SlotInv h' p) ∨
      (h'.server = false ∧ (s.server.os.calls calls).closed = []) := by
  rcases inv.kind with ⟨htable, hslot⟩ | ⟨hserver, hclosed⟩
  · have step : TableStep s.server ⟨h', s.server.os.calls calls⟩ := .disconnect cid hd
    refine Or.inl ⟨htable.tableStep step, (hp hslot).mono fun n hn => ?_⟩
    exact htable.unused_tableStep step hn
  · cases hd.symm.trans (commsDisconnect_client hserver cid)
    exact Or.inr ⟨hserver, hclosed⟩

/-- While the listener drops nothing, what has ended is dropped. -/
theorem EndInv.ended_left (inv : EndInv sock s) (hphase : ∀ i n, s.phase ≠ .closing i n) {c : Conn}
    (hc : c ∈ s.ended) : c ∈ s.shut ∧ c ∈ s.server.os.closed := by
  rcases inv.ended c hc with h | ⟨-, ⟨i, n, hclosing⟩, -⟩
  · exact h
  · exact absurd hclosing (hphase i n)

theorem EndInv.not_mem (inv : EndInv sock s) {c : Conn} (hc : c ∈ s.server.os.closed) :
    c ∉ s.server.os.conns := by
  rcases inv.kind with ⟨htable, -⟩ | ⟨-, hnone⟩
  · exact htable.os.not_mem_of_closed hc
  · rw [hnone] at hc
    cases hc

theorem accept_closed {s : Server} (hs : IsServer s.h) (inv : OsInv s.os) {cs : ℤ}
    (cli : SockaddrIn) (fresh : s.os.Fresh cs) {c : Conn} (hc : c ∈ s.os.closed) :
    c ∈ (s.accept cs cli).os.closed := by
  rcases commsAccepter_spec hs cs cli fresh.1 with ⟨-, h', hacc, -⟩ | ⟨-, hacc⟩
  · rw [Server.accept, hacc]
    exact hc
  · obtain ⟨hclose, -⟩ := (inv.accept cli fresh).close s.os.conns [] rfl
    rw [Server.accept, hacc]
    change c ∈ ((s.os.accept cs cli).close cs).closed
    rw [hclose]
    exact List.mem_cons_of_mem _ hc

theorem EndInv.accept (inv : EndInv sock s) (hserver : s.server.h.server = true) {cs : ℤ}
    (cli : SockaddrIn) (fresh : s.server.os.Fresh cs) :
    EndInv sock { s with server := s.server.accept cs cli } := by
  have step : TableStep s.server (s.server.accept cs cli) := .accept cs cli fresh
  obtain ⟨htable, hslot⟩ := inv.kind.resolve_right fun h => by
    rw [hserver] at h
    cases h.1
  refine ⟨Or.inl ⟨htable.tableStep step, hslot.mono fun n hn => htable.unused_tableStep step hn⟩,
    fun c hc => ?_, inv.again⟩
  rcases inv.ended c hc with ⟨hshut, hclosed⟩ | ⟨hmem, hdropping⟩
  · exact Or.inl ⟨hshut, accept_closed htable.isServer htable.os cli fresh hclosed⟩
  · obtain ⟨k, hk⟩ := List.mem_iff_getElem?.mp hmem
    exact Or.inr ⟨List.mem_of_getElem? (htable.accept_getElem? cli fresh hk), hdropping⟩

theorem dialled_server {s : Server} (hs : s.h.server = true) (peer : SockaddrIn) :
    dialled s peer = s.os := if_neg fun h => by simp [hs] at h

/-- What a client has open stays open, and nothing is closed. -/
theorem dialled_client (s : Server) (peer : SockaddrIn) :
    (dialled s peer).closed = s.os.closed ∧ ∀ c ∈ s.os.conns, c ∈ (dialled s peer).conns := by
  rw [dialled]
  split
  · exact ⟨rfl, fun c hc => List.mem_append_left _ hc⟩
  · exact ⟨rfl, fun c hc => hc⟩

theorem EndInv.connect (inv : EndInv sock s) {ip : BitVec 32} {port : BitVec 16} {ret : ℤ}
    {h' : Commh} {r : Bool} (hc : commsConnect s.server.h ip port ret = some (h', r))
    (peer : SockaddrIn) : EndInv sock { s with server := ⟨h', dialled s.server peer⟩ } := by
  rcases inv.kind with ⟨htable, hslot⟩ | ⟨hclient, hclosed⟩
  · have hserver := htable.isServer.server
    rw [commsConnect, if_pos hserver] at hc
    cases hc
    rw [dialled_server hserver]
    have hsame := SameTable.of_setError s.server.h .connect "CommsConnect" 312
    exact ⟨Or.inl ⟨htable.of_sameTable hsame, hslot.mono fun n hn => hn⟩, inv.ended, inv.again⟩
  · obtain ⟨hclosed', hopen⟩ := dialled_client s.server peer
    refine ⟨Or.inr ⟨(commsConnect_frame hclient hc).2.1, hclosed'.trans hclosed⟩,
      fun c hmem => ?_, inv.again⟩
    rcases inv.ended c hmem with ⟨-, hdropped⟩ | ⟨hmem, hdropping⟩
    · rw [hclosed] at hdropped
      cases hdropped
    · exact Or.inr ⟨hopen c hmem, hdropping⟩

theorem EndInv.user (inv : EndInv sock s) {h' : Commh} {cid : BitVec 16} {calls : List OsCall}
    {r : Bool} (hd : commsDisconnect s.server.h cid = some (h', calls, r)) :
    EndInv sock (s.disconnected h' calls) := by
  obtain ⟨hkept, hopen⟩ := inv.disconnected hd
  refine ⟨inv.kind_disconnected hd id, fun c hc => ?_, inv.again⟩
  rcases inv.ended c hc with hdropped | ⟨hmem, hdropping⟩
  · exact Or.inl (hkept c hdropped)
  · rcases hopen c hmem with hmem | hdropped
    · exact Or.inr ⟨hmem, hdropping⟩
    · exact Or.inl hdropped

theorem EndInv.count (inv : EndInv sock s) (hphase : s.phase = .top) :
    EndInv sock { s with
      phase := if s.server.h.server then listenerCount s.server.h else .scan 0 1 } := by
  refine ⟨?_, fun c hc => Or.inl (inv.ended_left (fun i n => by rw [hphase]; nofun) hc), inv.again⟩
  rcases inv.kind with ⟨htable, -⟩ | hclient
  · refine Or.inl ⟨htable, ?_⟩
    dsimp only
    rw [if_pos htable.isServer.server]
    exact ⟨le_rfl, htable.isServer.count_le, fun _ hj hjn => absurd hjn (Nat.not_lt.mpr hj)⟩
  · exact Or.inr hclient

theorem EndInv.read (inv : EndInv sock s) {i n : ℕ} {p : Phase} (hphase : s.phase = .scan i n)
    (hr : listenerRead s.server.h i n = some p) : EndInv sock { s with phase := p } := by
  refine ⟨?_, fun c hc => Or.inl (inv.ended_left (fun i n => by rw [hphase]; nofun) hc), inv.again⟩
  rcases inv.kind with ⟨htable, hslot⟩ | hclient
  · refine Or.inl ⟨htable, ?_⟩
    rw [hphase] at hslot
    obtain ⟨hi, hun⟩ := hslot
    by_cases hin : i < n
    · rw [listenerRead_of_lt _ hin hun.1] at hr
      split at hr
      · cases hr
        exact ⟨Nat.le_succ_of_le hi, hun⟩
      · cases hr
        exact ⟨hi, hin, hun⟩
    · rw [listenerRead, if_neg hin] at hr
      cases hr
      trivial
  · exact Or.inr hclient

theorem EndInv.recv (inv : EndInv sock s) {i n : ℕ} {fd : ℤ} {addr : SockaddrIn}
    (hphase : s.phase = .holding i n fd addr) (answer : RecvResult) :
    EndInv sock { s with
      phase := (listenerRecv s.server.h i n addr answer).1
      reported := s.server.os.conns.find? (·.fd = fd)
      ended := if answer.isEnd then
          (s.server.os.conns.find? (·.fd = fd)).toList ++ s.ended else s.ended
      again := ((s.server.os.conns.find? (·.fd = fd)).filter (· ∈ s.ended)).toList ++ s.again } := by
  have hdropped := fun c => inv.ended_left (c := c) fun i n => by rw [hphase]; nofun
  refine ⟨?_, fun c hc => ?_, ?_⟩
  · rcases inv.kind with ⟨htable, hslot⟩ | hclient
    · refine Or.inl ⟨htable, ?_⟩
      rw [hphase] at hslot
      obtain ⟨hi, hin, hun⟩ := hslot
      dsimp only
      rcases listenerRecv_phase s.server.h i n addr answer with hnext | hnext
      · rw [hnext]
        exact ⟨Nat.le_succ_of_le hi, hun⟩
      · rw [hnext]
        exact ⟨hi, hin, hun⟩
    · exact Or.inr hclient
  · dsimp only at hc
    split at hc
    · rename_i hend
      rcases List.mem_append.mp hc with hc | hc
      · have hfind := Option.mem_toList.mp hc
        exact Or.inr ⟨List.mem_of_find?_eq_some hfind,
          ⟨i, n, congrArg Prod.fst (listenerRecv_end s.server.h i n addr hend)⟩, hfind⟩
      · exact Or.inl (hdropped c hc)
    · exact Or.inl (hdropped c hc)
  · -- what is open has not ended
    have hnone : (s.server.os.conns.find? (·.fd = fd)).filter (· ∈ s.ended) = none := by
      rw [Option.filter_eq_none_iff]
      intro c hfind hmem
      have hended : c ∈ s.ended := by simpa using hmem
      exact inv.not_mem (hdropped c hended).2 (List.mem_of_find?_eq_some hfind)
    dsimp only
    rw [hnone, inv.again]
    rfl

theorem EndInv.drop (inv : EndInv sock s) {i n : ℕ} (hphase : s.phase = .closing i n)
    (hfinds : ∀ c, s.reported = some c → c ∈ s.server.os.conns →
      s.server.h.server = true ∧ s.server.h.slot i = c.entry)
    {h' : Commh} {calls : List OsCall} {r : Bool}
    (hd : commsDisconnect s.server.h (BitVec.ofNat 16 i) = some (h', calls, r)) :
    EndInv sock { s.disconnected h' calls with phase := .scan (i + 1) n } := by
  obtain ⟨hkept, -⟩ := inv.disconnected hd
  refine ⟨inv.kind_disconnected hd fun hslot => ?_, fun c hc => Or.inl ?_, inv.again⟩
  · rw [hphase] at hslot
    exact ⟨Nat.le_succ_of_le hslot.1, hslot.2.2⟩
  · rcases inv.ended c hc with hdropped | ⟨hopen, -, hreported⟩
    · exact hkept c hdropped
    · obtain ⟨hserver, hentry⟩ := hfinds c hreported hopen
      obtain ⟨htable, hslot⟩ := inv.kind.resolve_right fun h => by
        rw [hserver] at h
        cases h.1
      rw [hphase] at hslot
      obtain ⟨hi, hin, hunused⟩ := hslot
      have hcid := hunused.cid_toNat hin
      rcases htable.disconnect_closes hd with
        ⟨-, hwhy⟩ | ⟨before, d, after, hconns, hd', hshut, hos⟩
      · -- the slot is a client's, since its descriptor is open
        have hpos : 0 < (s.server.h.slot i).1 := by
          rw [hentry]
          exact htable.os.pos c hopen
        have hfree := hunused.2 i
        omega
      · rw [hcid, hentry] at hd'
        have hmem : d ∈ s.server.os.conns := by simp [hconns]
        obtain rfl := List.inj_on_of_nodup_map htable.os.fds hmem hopen (congrArg Prod.fst hd')
        rw [EndSt.disconnected, hshut, hos]
        exact ⟨List.mem_cons_self, List.mem_cons_self⟩

/-- **What one step keeps.** -/
theorem endStep_inv {t : EndSt} {e : EndEvent} {calls : List OsCall} (inv : EndInv sock s)
    (hfinds : FindsEnded s e) (hstep : endStep s e = some (t, calls)) : EndInv sock t := by
  cases e with
  | accept cs cli =>
    rw [endStep] at hstep
    split at hstep
    · rename_i hguard
      cases hstep
      exact inv.accept hguard.1 cli hguard.2
    · cases hstep
  | connect ip port ret =>
    rw [endStep] at hstep
    split at hstep
    · cases hstep
    · rename_i hc
      cases hstep
      exact inv.connect hc _
  | user cid =>
    rw [endStep] at hstep
    split at hstep
    · cases hstep
    · rename_i hd
      cases hstep
      exact inv.user hd
  | count =>
    rw [endStep] at hstep
    split at hstep
    · rename_i hguard
      cases hstep
      exact inv.count hguard.1
    · cases hstep
  | read =>
    rw [endStep] at hstep
    split at hstep
    · rename_i hphase
      split at hstep
      · cases hstep
      · rename_i hr
        cases hstep
        exact inv.read hphase hr
    · cases hstep
  | recv answer =>
    rw [endStep] at hstep
    split at hstep
    · rename_i hphase
      cases hstep
      exact inv.recv hphase answer
    · cases hstep
  | disconnect =>
    rw [endStep] at hstep
    split at hstep
    · rename_i i n hphase
      split at hstep
      · cases hstep
      · rename_i hdis
        cases hstep
        obtain ⟨⟨r, hd⟩, rfl⟩ := listenerDisconnect_eq hdis
        exact inv.drop hphase (hfinds i n hphase) hd
    · cases hstep

end Step

/-! ## Runs -/

theorem commsTcpclientInitOpt_server {h₀ h : Commh} {opt : CommsOpt} {env : InitEnv}
    {calls : List OsCall} (hinit : commsTcpclientInitOpt h₀ opt env = some (h, calls, true)) :
    h.server = false := by
  cases commsTcpclientInitOpt_cases hinit with
  | closes hsocket herr hclose => exact absurd hclose closeAndFail_ne_true
  | starts hsocket hstart => exact (startListener_true rfl rfl hstart).1

theorem endInv_init {kind : Kind} (htcp : kind ≠ .udp) {h₀ h : Commh} {opt : CommsOpt}
    {env : InitEnv} {calls : List OsCall}
    (hinit : commsInit kind h₀ opt env = some (h, calls, true)) :
    EndInv env.socket (EndSt.init h env.socket) := by
  cases kind with
  | udp => exact absurd rfl htcp
  | tcpServer =>
    have hserver : h.server = true := (commsTcpserverInitOpt_spec hinit).1.server
    have heq : (EndSt.init h env.socket).server = Server.init h env.socket := by
      rw [EndSt.init, Server.init, hserver]
      rfl
    refine ⟨Or.inl ⟨?_, trivial⟩, fun c hc => absurd hc List.not_mem_nil, rfl⟩
    rw [heq]
    exact table_inv hinit .refl
  | tcpClient =>
    refine ⟨Or.inr ⟨commsTcpclientInitOpt_server hinit, rfl⟩, ?_, rfl⟩
    exact fun c hc => absurd hc List.not_mem_nil

/-- **What has ended is dropped.**  In every run of a TCP handle in which the listener's
`CommsDisconnect` finds what has ended, every connection whose `recv` has returned 0 or
an error that does not pass is shut down, closed and taken out of the table by the
listener's next step, and `recv` is not called on it again. -/
theorem ended_dropped {kind : Kind} (htcp : kind ≠ .udp) {h₀ h : Commh} {opt : CommsOpt}
    {env : InitEnv} {calls : List OsCall}
    (hinit : commsInit kind h₀ opt env = some (h, calls, true)) {events : List EndEvent}
    (hfinds : Machine.Along endStep FindsEnded (EndSt.init h env.socket) events) {s : EndSt}
    {outs : List (List OsCall)}
    (hrun : Machine.exec endStep (EndSt.init h env.socket) events = some (s, outs)) :
    EndedDropped s :=
  (Machine.exec_invariant (fun _ _ _ _ inv hP hstep => endStep_inv inv hP hstep)
    (endInv_init htcp hinit) hfinds hrun).endedDropped

/-- The listener of a server before it drops its only client. -/
theorem drops_first {s : EndSt} {outs : List (List OsCall)}
    (hrun : Machine.exec endStep (EndSt.init newServer 3)
      [.accept 4 peerA, .count, .read, .recv (.data [])] = some (s, outs)) :
    s.phase = .closing 1 2 ∧ s.reported = some ⟨0, 4, peerA⟩ ∧ s.server.h.server = true ∧
      s.server.h.slot 1 = (4, peerA) := by
  have hview : (Machine.exec endStep (EndSt.init newServer 3)
      [.accept 4 peerA, .count, .read, .recv (.data [])]).map
        (fun r => (r.1.phase, r.1.reported, r.1.server.h.server, r.1.server.h.slot 1))
      = some (.closing 1 2, some ⟨0, 4, peerA⟩, true, (4, peerA)) := by decide +kernel
  rw [hrun, Option.map_some, Option.some.injEq] at hview
  simpa using hview

/-- A client of a server ends its stream, and the listener drops it. -/
theorem ended_dropped_first :
    ∃ s outs, Machine.exec endStep (EndSt.init newServer 3)
        [.accept 4 peerA, .count, .read, .recv (.data []), .disconnect] = some (s, outs) ∧
      EndedDropped s := by
  have hsome : (Machine.exec endStep (EndSt.init newServer 3)
      [.accept 4 peerA, .count, .read, .recv (.data []), .disconnect]).isSome := by decide +kernel
  obtain ⟨⟨s, outs⟩, hrun⟩ := Option.isSome_iff_exists.mp hsome
  have htcp : Kind.tcpServer ≠ .udp := by decide
  refine ⟨s, outs, hrun, ended_dropped htcp newServer_init ?_ hrun⟩
  refine ⟨trivial, fun s₁ o₁ h₁ => ⟨trivial, fun s₂ o₂ h₂ => ⟨trivial, fun s₃ o₃ h₃ =>
    ⟨trivial, fun s₄ o₄ h₄ => ⟨fun i n hphase c hc _ => ?_, fun _ _ _ => trivial⟩⟩⟩⟩⟩
  obtain ⟨hclosing, hreported, hserver, hslot⟩ := drops_first (Machine.exec_cons h₁
    (Machine.exec_cons h₂ (Machine.exec_cons h₃ (Machine.exec_cons h₄ rfl))))
  cases hclosing.symm.trans hphase
  cases hreported.symm.trans hc
  exact ⟨hserver, hslot⟩

/-! A TCP client on descriptor 3. -/

def newClient : Commh :=
  { Commh.zero with
    tcp := true
    clientsSocks := Commh.zero.clientsSocks.setIfInBounds 0 3
    localAddress := ⟨afInet, commsDefListenPort, commsDefListenIp⟩
    recvcb := true
    listener := 1
    running := true }

theorem newClient_init :
    commsTcpclientInitOpt .zero defaultOpt okEnv =
      some (newClient, [.socket 3, .create 1], true) := rfl

/-- The server ends the stream, `CommsDisconnect` refuses, and `recv` is called again. -/
theorem client_keeps_ended :
    ¬ ∀ events s outs,
      Machine.exec endStep (EndSt.init newClient 3) events = some (s, outs) → EndedDropped s := by
  intro hdropped
  have hagain : (Machine.exec endStep (EndSt.init newClient 3)
      [.connect 1 80 0, .count, .read, .recv (.data []), .disconnect, .read, .count, .read,
        .recv (.data [])]).map (fun r => r.1.again.length) = some 1 := by decide +kernel
  obtain ⟨⟨s, outs⟩, hrun, hlen⟩ := Option.map_eq_some_iff.mp hagain
  have hnone := (hdropped _ s outs hrun).2
  dsimp only at hlen
  rw [hnone] at hlen
  cases hlen

end DataCommons.Comms
