import DataCommons.Comms.Ends
import DataCommons.Lib.ShiftingWalk

/-!
# One pass of a server's listener

The loop of `comms__listener` over the slots, with no other thread between.  The count is
taken before it, and a `CommsDisconnect` in slot `i` moves the client behind it to slot
`i`, where the loop does not come again.

* `listenerPass_spec`: the pass calls `recv` for the clients that a walk over a shrinking
  list looks at;
* `reads_sublist`: it reads no client twice;
* `pass_reads_iff`: each client is read once exactly if no client that ends stands
  directly before another one;
* `pass_run`: a pass is a run of the listener's steps, which is one of `endStep`
  (`ListenerRun.exec`).
-/

namespace DataCommons.Comms

open Commh ShiftingWalk

inductive PassCall where
  | recv (fd : ℤ)
  | recvcb (d : Delivery)
  | os (call : OsCall)

/-- The body of the loop for slot `i`; `answer fd` is what `recv` on `fd` returns. -/
def listenerRound (answer : ℤ → RecvResult) (h : Commh) (i n : ℕ) :
    Option (Commh × List PassCall) :=
  match listenerRead h i n with
  | none => none
  | some (.holding i n fd addr) =>
    match listenerRecv h i n addr (answer fd) with
    | (.closing i n, _) =>
      match listenerDisconnect h i n with
      | none => none
      | some (h, calls, _) => some (h, .recv fd :: calls.map .os)
    | (_, d) => some (h, .recv fd :: (d.map .recvcb).toList)
  | some _ => some (h, [])

/-- `k` rounds of the loop from slot `i` on. -/
def listenerLoop (answer : ℤ → RecvResult) (h : Commh) (i n : ℕ) :
    ℕ → Option (Commh × List PassCall)
  | 0 => some (h, [])
  | k + 1 =>
    match listenerRound answer h i n with
    | none => none
    | some (h, calls) =>
      match listenerLoop answer h (i + 1) n k with
      | none => none
      | some (h, rest) => some (h, calls ++ rest)

/-- The loop, with the count that is taken before it. -/
def listenerPass (answer : ℤ → RecvResult) (h : Commh) : Option (Commh × List PassCall) :=
  let localCount := h.clientCount
  listenerLoop answer h 1 localCount (localCount - 1)

def recvs (calls : List PassCall) : List ℤ :=
  calls.filterMap fun call =>
    match call with
    | .recv fd => some fd
    | _ => none

@[simp] theorem recvs_append (calls rest : List PassCall) :
    recvs (calls ++ rest) = recvs calls ++ recvs rest := List.filterMap_append

/-- `recv` is called exactly once for each client that was connected before the pass. -/
def ReadsEach (answer : ℤ → RecvResult) (s : Server) : Prop :=
  ∃ h calls, listenerPass answer s.h = some (h, calls) ∧
    ∀ c ∈ s.os.conns, (recvs calls).count c.fd = 1

/-- The client in the slot ends. -/
def endsSlot (answer : ℤ → RecvResult) (x : ℤ × SockaddrIn) : Bool :=
  live x && (answer x.1).isEnd

/-- No client that ends stands directly before another client. -/
def NoneBehindEnd (answer : ℤ → RecvResult) (h : Commh) : Prop :=
  h.clients.IsChain fun x y => endsSlot answer x = true → live y = false

/-! ## One round -/

section Round

variable {h : Commh} {i n : ℕ} (answer : ℤ → RecvResult)

/-- What a round leaves, and whom it reads. -/
structure RoundSpec (answer : ℤ → RecvResult) (h : Commh) (i n : ℕ) (h' : Commh)
    (calls : List PassCall) : Prop where
  isServer : IsServer h'
  unused : Unused h' n
  clients : h'.clients = after (endsSlot answer) h.clients (i - 1)
  recvs : recvs calls = (h.clients[i - 1]?.toList.filter live).map Prod.fst

theorem clients_getElem? (h : Commh) (hi : 1 ≤ i) :
    h.clients[i - 1]? = if i < h.clientCount then some (h.slot i) else none := by
  split
  · rename_i hlt
    have hlen : i - 1 < h.clients.length := by
      rw [clients_length]
      omega
    rw [List.getElem?_eq_getElem hlen, clients_getElem, Nat.sub_add_cancel hi]
  · rename_i hge
    refine List.getElem?_eq_none ?_
    rw [clients_length]
    omega

theorem listenerRound_dead (hs : IsServer h) (hn : Unused h n) (hi : 1 ≤ i) (hin : i < n)
    (hdead : (h.slot i).1 ≤ 0) : ∃ h' calls, listenerRound answer h i n = some (h', calls) ∧
      RoundSpec answer h i n h' calls := by
  have hread : listenerRead h i n = some (.scan (i + 1) n) := by
    rw [listenerRead_of_lt h hin hn.1, if_pos hdead]
  have hnot : live (h.slot i) = false := decide_eq_false (not_lt.mpr hdead)
  refine ⟨h, [], by rw [listenerRound, hread], hs, hn, ?_, ?_⟩
  · rw [after, clients_getElem? h hi]
    split
    · rw [Option.any_some, endsSlot, hnot]
      rfl
    · rfl
  · rw [clients_getElem? h hi]
    split
    · rw [Option.toList_some, List.filter_cons_of_neg (by simp [hnot])]
      rfl
    · rfl

/-- A client is read, and removed if it ends. -/
theorem listenerRound_live (hs : IsServer h) (hn : Unused h n) (hi : 1 ≤ i) (hin : i < n)
    (hlive : 0 < (h.slot i).1) : ∃ h' calls, listenerRound answer h i n = some (h', calls) ∧
      RoundSpec answer h i n h' calls := by
  have hcount : i < h.clientCount := by
    by_contra hge
    exact absurd (hn.2 i (not_lt.mp hge) hin) (not_le.mpr hlive)
  have hread : listenerRead h i n = some (.holding i n (h.slot i).1 (h.slot i).2) := by
    rw [listenerRead_of_lt h hin hn.1, if_neg (not_le.mpr hlive)]
  have hget : h.clients[i - 1]? = some (h.slot i) := by rw [clients_getElem? h hi, if_pos hcount]
  have hrecvs : (h.clients[i - 1]?.toList.filter live).map Prod.fst = [(h.slot i).1] := by
    rw [hget, Option.toList_some, List.filter_cons_of_pos (live_iff.mpr hlive)]
    rfl
  have hends : h.clients[i - 1]?.any (endsSlot answer) = (answer (h.slot i).1).isEnd := by
    rw [hget, Option.any_some, endsSlot, live_iff.mpr hlive, Bool.true_and]
  by_cases hend : (answer (h.slot i).1).isEnd = true
  · have hcid := hn.cid_toNat hin
    rcases commsDisconnect_spec hs (BitVec.ofNat 16 i) with
      ⟨h', hdis, -, -, -, hrem⟩ | ⟨line, -, hrefused⟩
    · rw [hcid] at hdis hrem
      refine ⟨h', .recv (h.slot i).1 ::
        [OsCall.shutdown (h.slot i).1, .close (h.slot i).1].map .os, ?_, hrem.isServer,
        hn.removed hrem, ?_, ?_⟩
      · rw [listenerRound, hread]
        dsimp only
        rw [listenerRecv_end h i n _ hend]
        dsimp only
        rw [listenerDisconnect, hdis]
      · rw [hrem.clients, after, hends, if_pos hend]
      · rw [hrecvs]
        rfl
    · rw [hcid] at hrefused
      omega
  · obtain ⟨d, hnext⟩ := listenerRecv_next h i n (h.slot i).2 hend
    refine ⟨h, .recv (h.slot i).1 :: (d.map .recvcb).toList, ?_, hs, hn, ?_, ?_⟩
    · rw [listenerRound, hread]
      dsimp only
      rw [hnext]
    · rw [after, hends, if_neg hend]
    · rw [hrecvs]
      cases d with
      | none => rfl
      | some d => rfl

/-- **What one round does.** -/
theorem listenerRound_spec (hs : IsServer h) (hn : Unused h n) (hi : 1 ≤ i) (hin : i < n) :
    ∃ h' calls, listenerRound answer h i n = some (h', calls) ∧
      RoundSpec answer h i n h' calls := by
  by_cases hlive : 0 < (h.slot i).1
  · exact listenerRound_live answer hs hn hi hin hlive
  · exact listenerRound_dead answer hs hn hi hin (not_lt.mp hlive)

end Round

/-! ## The pass -/

/-- The rounds from slot `i` to the last one are a walk over the clients. -/
theorem listenerLoop_spec (answer : ℤ → RecvResult) {h : Commh} {i n : ℕ} (k : ℕ)
    (hs : IsServer h) (hn : Unused h n) (hi : 1 ≤ i) (hin : i + k ≤ n) :
    ∃ h' calls, listenerLoop answer h i n k = some (h', calls) ∧
      recvs calls = ((walk (endsSlot answer) h.clients (i - 1) k).filter live).map Prod.fst := by
  induction k generalizing h i with
  | zero => exact ⟨h, [], rfl, rfl⟩
  | succ k ih =>
    obtain ⟨h₁, calls, hround, spec⟩ := listenerRound_spec answer hs hn hi (by omega)
    obtain ⟨h₂, rest, hloop, hrest⟩ :=
      ih spec.isServer spec.unused (Nat.le_succ_of_le hi) (by omega)
    refine ⟨h₂, calls ++ rest, ?_, ?_⟩
    · rw [listenerLoop, hround]
      dsimp only
      rw [hloop]
    · have hpred : i + 1 - 1 = i - 1 + 1 := by omega
      rw [recvs_append, spec.recvs, hrest, spec.clients, hpred, walk, List.filter_append,
        List.map_append]

/-- **Whom a pass reads.** -/
theorem listenerPass_spec {h : Commh} (hs : IsServer h) (answer : ℤ → RecvResult) :
    ∃ h' calls, listenerPass answer h = some (h', calls) ∧
      recvs calls = ((visited (endsSlot answer) h.clients).filter live).map Prod.fst := by
  have hn : Unused h h.clientCount :=
    ⟨hs.count_le, fun j hj hjn => absurd hjn (Nat.not_lt.mpr hj)⟩
  have hpos := hs.count_pos
  obtain ⟨h', calls, hloop, hrecvs⟩ :=
    listenerLoop_spec answer (h.clientCount - 1) hs hn le_rfl (by omega)
  refine ⟨h', calls, hloop, ?_⟩
  rw [hrecvs, walk_entries _ _ _ _ (by rw [clients_length]; omega), List.drop_zero]

/-- No client is read twice, and nothing else is read, whatever the answers are. -/
theorem reads_sublist {s : Server} (inv : ServerInv s) (answer : ℤ → RecvResult) :
    ∃ h' calls, listenerPass answer s.h = some (h', calls) ∧
      (recvs calls).Sublist (s.os.conns.map (·.fd)) := by
  obtain ⟨h', calls, hpass, hrecvs⟩ := listenerPass_spec inv.isServer answer
  refine ⟨h', calls, hpass, ?_⟩
  have hsub := ((visited_sublist (endsSlot answer) s.h.clients).filter live).map Prod.fst
  rw [inv.conns, List.map_map] at hsub
  rw [hrecvs]
  exact hsub

/-- Each client is read exactly if the walk misses none. -/
theorem readsEach_iff {s : Server} (inv : ServerInv s) (answer : ℤ → RecvResult) :
    ReadsEach answer s ↔
      (visited (endsSlot answer) s.h.clients).filter live = s.h.clients.filter live := by
  obtain ⟨h', calls, hpass, hrecvs⟩ := listenerPass_spec inv.isServer answer
  constructor
  · rintro ⟨h₂, calls₂, hpass₂, hall⟩
    cases hpass.symm.trans hpass₂
    have hmem : s.os.conns.map (·.fd) ⊆ recvs calls := by
      intro fd hfd
      obtain ⟨c, hc, rfl⟩ := List.mem_map.mp hfd
      exact List.count_pos_iff.mp (by rw [hall c hc]; exact Nat.one_pos)
    have hlen := (List.subperm_of_subset inv.os.fds hmem).length_le
    have hclients := congrArg List.length inv.conns
    refine ((visited_sublist _ _).filter live).eq_of_length_le ?_
    rw [hrecvs, List.length_map, List.length_map] at hlen
    rw [List.length_map] at hclients
    omega
  · intro heq
    refine ⟨h', calls, hpass, fun c hc => ?_⟩
    rw [hrecvs, heq, inv.conns, List.map_map]
    exact List.count_eq_one_of_mem inv.os.fds (List.mem_map_of_mem hc)

/-- **Whom a pass misses.**  A pass over a reachable table reads each client once exactly if
no client that ends stands directly before another one: its `CommsDisconnect` moves that one
to the slot that the loop leaves. -/
theorem pass_reads_iff {h₀ h : Commh} {opt : CommsOpt} {env : InitEnv} {calls : List OsCall}
    (hinit : commsTcpserverInitOpt h₀ opt env = some (h, calls, true)) {s : Server}
    (hrun : Relation.ReflTransGen ServerStep (Server.init h env.socket) s)
    (answer : ℤ → RecvResult) : ReadsEach answer s ↔ NoneBehindEnd answer s.h := by
  have hlive : ∀ x, endsSlot answer x = true → live x = true :=
    fun x hx => ((Bool.and_eq_true _ _).mp hx).1
  exact (readsEach_iff (server_inv hinit hrun) answer).trans (filter_visited_eq_iff hlive _)

/-- The client with descriptor `fd` ends its stream; the others have sent a byte. -/
def endOf (fd : ℤ) : ℤ → RecvResult := fun fd' => .data (if fd' = fd then [] else [7])

theorem pass_reads_two : ReadsEach (endOf 5) twoClients :=
  (pass_reads_iff newServer_init (serverRun_of_tableRun twoClients_reachable) (endOf 5)).mpr
    (by unfold NoneBehindEnd; decide +kernel)

/-- The first of two clients ends, and the second one is not read. -/
theorem second_not_read :
    ¬ ∀ (s : Server) (answer : ℤ → RecvResult),
      Relation.ReflTransGen ServerStep (Server.init newServer 3) s → ReadsEach answer s := by
  intro hreads
  obtain ⟨h', calls, hpass, hall⟩ :=
    hreads twoClients (endOf 4) (serverRun_of_tableRun twoClients_reachable)
  have hcalls : (listenerPass (endOf 4) twoClients.h).map (fun r => recvs r.2) = some [4] := by
    decide +kernel
  have hmem : ⟨1, 5, peerB⟩ ∈ twoClients.os.conns := by decide +kernel
  have hcount := hall ⟨1, 5, peerB⟩ hmem
  rw [hpass, Option.map_some, Option.some_inj] at hcalls
  rw [hcalls] at hcount
  exact absurd hcount (by decide)

/-! ## The pass as a run

`endStep` takes the listener's steps one at a time, with those of other threads between. -/

/-- The listener's steps from `s` to `t`, with no other thread between, and what they do. -/
inductive ListenerRun (answer : ℤ → RecvResult) : EndSt → EndSt → List PassCall → Prop
  | refl (s : EndSt) : ListenerRun answer s s []
  | count {s t u : EndSt} {calls : List PassCall} (step : endStep s .count = some (t, []))
      (run : ListenerRun answer t u calls) : ListenerRun answer s u calls
  | read {s t u : EndSt} {calls : List PassCall} (step : endStep s .read = some (t, []))
      (run : ListenerRun answer t u calls) : ListenerRun answer s u calls
  | recv {s t u : EndSt} {i n : ℕ} {fd : ℤ} {addr : SockaddrIn} {calls : List PassCall}
      (phase : s.phase = .holding i n fd addr)
      (step : endStep s (.recv (answer fd)) = some (t, [])) (run : ListenerRun answer t u calls) :
      ListenerRun answer s u (.recv fd ::
        ((listenerRecv s.server.h i n addr (answer fd)).2.map .recvcb).toList ++ calls)
  | disconnect {s t u : EndSt} {out : List OsCall} {calls : List PassCall}
      (step : endStep s .disconnect = some (t, out)) (run : ListenerRun answer t u calls) :
      ListenerRun answer s u (out.map .os ++ calls)

namespace ListenerRun

variable {answer : ℤ → RecvResult} {s t u : EndSt} {calls rest : List PassCall}

theorem trans (run : ListenerRun answer s t calls) (run' : ListenerRun answer t u rest) :
    ListenerRun answer s u (calls ++ rest) := by
  induction run with
  | refl => exact run'
  | count step _ ih => exact .count step (ih run')
  | read step _ ih => exact .read step (ih run')
  | recv phase step _ ih =>
    rw [List.append_assoc]
    exact .recv phase step (ih run')
  | disconnect step _ ih =>
    rw [List.append_assoc]
    exact .disconnect step (ih run')

theorem exec (run : ListenerRun answer s t calls) :
    ∃ events outs, Machine.exec endStep s events = some (t, outs) := by
  induction run with
  | refl s => exact ⟨[], [], rfl⟩
  | count step _ ih =>
    obtain ⟨events, outs, hexec⟩ := ih
    exact ⟨_, _, Machine.exec_cons step hexec⟩
  | read step _ ih =>
    obtain ⟨events, outs, hexec⟩ := ih
    exact ⟨_, _, Machine.exec_cons step hexec⟩
  | recv phase step _ ih =>
    obtain ⟨events, outs, hexec⟩ := ih
    exact ⟨_, _, Machine.exec_cons step hexec⟩
  | disconnect step _ ih =>
    obtain ⟨events, outs, hexec⟩ := ih
    exact ⟨_, _, Machine.exec_cons step hexec⟩

end ListenerRun

/-! The listener's steps, where they are enabled. -/

theorem endStep_read {s : EndSt} {i n : ℕ} {p : Phase} (hphase : s.phase = .scan i n)
    (hr : listenerRead s.server.h i n = some p) :
    endStep s .read = some ({ s with phase := p }, []) := by
  rw [endStep, hphase]
  dsimp only
  rw [hr]

theorem endStep_recv {s : EndSt} {i n : ℕ} {fd : ℤ} {addr : SockaddrIn}
    (hphase : s.phase = .holding i n fd addr) (answer : RecvResult) :
    ∃ t, endStep s (.recv answer) = some (t, []) ∧ t.server = s.server ∧
      t.phase = (listenerRecv s.server.h i n addr answer).1 := by
  rw [endStep, hphase]
  exact ⟨_, rfl, rfl, rfl⟩

theorem endStep_disconnect {s : EndSt} {i n : ℕ} {h' : Commh} {out : List OsCall} {p : Phase}
    (hphase : s.phase = .closing i n)
    (hd : listenerDisconnect s.server.h i n = some (h', out, p)) :
    ∃ t, endStep s .disconnect = some (t, out) ∧ t.server.h = h' ∧ t.phase = p := by
  rw [endStep, hphase]
  dsimp only
  rw [hd]
  exact ⟨_, rfl, rfl, rfl⟩

/-- A round is the steps between two slots. -/
theorem listenerRound_run {answer : ℤ → RecvResult} {s : EndSt} {i n : ℕ} {h' : Commh}
    {calls : List PassCall} (hphase : s.phase = .scan i n) (hin : i < n) (hn : n ≤ commsMaxClients)
    (hround : listenerRound answer s.server.h i n = some (h', calls)) :
    ∃ t, ListenerRun answer s t calls ∧ t.server.h = h' ∧ t.phase = .scan (i + 1) n := by
  have hread := listenerRead_of_lt s.server.h hin hn
  rw [listenerRound, hread] at hround
  have hstep := endStep_read hphase hread
  by_cases hdead : (s.server.h.slot i).1 ≤ 0
  · rw [if_pos hdead] at hround hstep
    cases hround
    exact ⟨_, .read hstep (.refl _), rfl, rfl⟩
  · rw [if_neg hdead] at hround hstep
    dsimp only at hround
    obtain ⟨t, hrecv, hserver, ht⟩ :=
      endStep_recv (s := { s with
        phase := .holding i n (s.server.h.slot i).1 (s.server.h.slot i).2 }) rfl
        (answer (s.server.h.slot i).1)
    dsimp only at hserver ht
    by_cases hend : (answer (s.server.h.slot i).1).isEnd = true
    · rw [listenerRecv_end _ i n _ hend] at hround ht
      dsimp only at hround
      split at hround
      · cases hround
      · rename_i g out p hdis
        cases hround
        obtain ⟨-, rfl⟩ := listenerDisconnect_eq hdis
        rw [← hserver] at hdis
        obtain ⟨u, hclose, hu, hup⟩ := endStep_disconnect ht hdis
        have run : ListenerRun answer s u _ :=
          .read hstep (.recv rfl hrecv (.disconnect hclose (.refl u)))
        dsimp only at run
        rw [listenerRecv_end _ i n _ hend] at run
        refine ⟨u, ?_, hu, hup⟩
        simpa using run
    · obtain ⟨d, hnext⟩ := listenerRecv_next s.server.h i n (s.server.h.slot i).2 hend
      rw [hnext] at hround ht
      cases hround
      have run : ListenerRun answer s t _ := .read hstep (.recv rfl hrecv (.refl t))
      dsimp only at run
      rw [hnext, List.append_nil] at run
      exact ⟨t, run, by rw [hserver], ht⟩

theorem listenerLoop_run {answer : ℤ → RecvResult} {s : EndSt} {i n : ℕ} {h' : Commh}
    {calls : List PassCall} (k : ℕ) (hphase : s.phase = .scan i n) (hin : i + k ≤ n)
    (hn : n ≤ commsMaxClients) (hloop : listenerLoop answer s.server.h i n k = some (h', calls)) :
    ∃ t, ListenerRun answer s t calls ∧ t.server.h = h' ∧ t.phase = .scan (i + k) n := by
  induction k generalizing s i calls with
  | zero =>
    cases hloop
    exact ⟨s, .refl s, rfl, hphase⟩
  | succ k ih =>
    rw [listenerLoop] at hloop
    split at hloop
    · cases hloop
    · rename_i h₁ first hround
      split at hloop
      · cases hloop
      · rename_i h₂ rest hrest
        cases hloop
        obtain ⟨t, run, rfl, ht⟩ := listenerRound_run hphase (by omega) hn hround
        obtain ⟨u, run', hu, hup⟩ := ih ht (by omega) hrest
        refine ⟨u, run.trans run', hu, ?_⟩
        rw [hup, Nat.add_right_comm, Nat.add_assoc]

/-- **A pass is a run of the listener's steps**, from the count to the end of the loop. -/
theorem pass_run {answer : ℤ → RecvResult} {s : EndSt} (hs : IsServer s.server.h)
    (hphase : s.phase = .top) (hrunning : s.server.h.running = true) :
    ∃ t calls, listenerPass answer s.server.h = some (t.server.h, calls) ∧
      ListenerRun answer s t calls ∧ t.phase = .top := by
  obtain ⟨h', calls, hpass, -⟩ := listenerPass_spec hs answer
  have hpos := hs.count_pos
  have hcount : endStep s .count =
      some ({ s with phase := .scan 1 s.server.h.clientCount }, []) := by
    rw [endStep, if_pos ⟨hphase, hrunning⟩, if_pos hs.server, listenerCount]
  obtain ⟨t, run, ht, htp⟩ := listenerLoop_run
    (s := { s with phase := .scan 1 s.server.h.clientCount }) (s.server.h.clientCount - 1) rfl
    (by omega) hs.count_le hpass
  have hend : listenerRead t.server.h (1 + (s.server.h.clientCount - 1)) s.server.h.clientCount
      = some .top := by
    rw [listenerRead, if_neg (by omega)]
  have run' : ListenerRun answer t { t with phase := .top } [] :=
    .read (endStep_read htp hend) (.refl _)
  refine ⟨{ t with phase := .top }, calls, ?_, ?_, rfl⟩
  · rw [hpass, ← ht]
  · have hrun := ListenerRun.count hcount (run.trans run')
    rwa [List.append_nil] at hrun

end DataCommons.Comms
