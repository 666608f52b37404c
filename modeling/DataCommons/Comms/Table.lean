import DataCommons.Comms.Model

/-!
# The client table as a list

`Commh.slot` is a position of the two arrays and `Commh.clients` the slots
`1 .. client_count - 1`.  One specification for each operation:

* `commsDisconnect_spec`: one slot leaves the list, or nothing changes;
* `commsDisconnect_cases`: what it can do with any handle;
* `commsAccepter_spec`: one slot enters at the end, or nothing changes;
* `commsClose_spec`: every live slot is closed and marked `-1`;
* `commsSendOpt_server`: a send only reads the table;
* `commsTcpserverInitOpt_spec`: a new server has no clients;
* `commsTcpserverInitOpt_cases` and its siblings: what each `Init` can do;
* `commsConnect_cases`: a refusal, or an address and a count are written.
-/

namespace DataCommons.Comms

/-! ## Slots -/

namespace Commh

/-- Slot `i` of the two arrays; zeros outside. -/
def slot (h : Commh) (i : ℕ) : ℤ × SockaddrIn :=
  (h.clientsSocks[i]?.getD 0, h.clientAddress[i]?.getD .zero)

/-- The client slots `1 .. client_count - 1`. -/
def clients (h : Commh) : List (ℤ × SockaddrIn) :=
  (List.range (h.clientCount - 1)).map fun i => h.slot (i + 1)

theorem slot?_eq (h : Commh) {i : ℕ} (hi : i < commsMaxClients) : h.slot? i = some (h.slot i) := by
  simp [slot?, slot, hi]

theorem slot?_eq_none (h : Commh) {i : ℕ} (hi : commsMaxClients ≤ i) : h.slot? i = none := by
  simp [slot?, hi]

theorem slot_setSlot (h : Commh) (i j : ℕ) (x : ℤ × SockaddrIn) (hi : i < commsMaxClients) :
    (h.setSlot i x).slot j = if j = i then x else h.slot j := by
  simp only [setSlot, slot, Vector.getElem?_setIfInBounds]
  by_cases hj : j = i
  · simp [hj, hi]
  · simp [hj, Ne.symm hj]

@[simp] theorem setSlot_clientCount (h : Commh) (i : ℕ) (x : ℤ × SockaddrIn) :
    (h.setSlot i x).clientCount = h.clientCount := rfl

@[simp] theorem clients_length (h : Commh) : h.clients.length = h.clientCount - 1 := by
  simp [clients]

theorem clients_getElem (h : Commh) (i : ℕ) (hi : i < h.clients.length) :
    h.clients[i] = h.slot (i + 1) := by
  simp [clients]

/-- Everything but the two arrays. -/
structure SameFrame (h h' : Commh) : Prop where
  tcp : h'.tcp = h.tcp
  server : h'.server = h.server
  clientCount : h'.clientCount = h.clientCount

/-- The whole table; the error may differ. -/
structure SameTable (h h' : Commh) : Prop extends SameFrame h h' where
  socks : h'.clientsSocks = h.clientsSocks
  address : h'.clientAddress = h.clientAddress

theorem SameTable.refl (h : Commh) : SameTable h h := ⟨⟨rfl, rfl, rfl⟩, rfl, rfl⟩

theorem SameTable.of_setError (h : Commh) (err : CommsError) (f : String) (l : ℕ) :
    SameTable h (setError h err f l) := ⟨⟨rfl, rfl, rfl⟩, rfl, rfl⟩

theorem SameTable.slot {h h' : Commh} (st : SameTable h h') (i : ℕ) : h'.slot i = h.slot i := by
  rw [Commh.slot, Commh.slot, st.socks, st.address]

theorem SameTable.clients {h h' : Commh} (st : SameTable h h') : h'.clients = h.clients := by
  rw [Commh.clients, Commh.clients, st.clientCount]
  exact List.map_congr_left fun i _ => st.slot (i + 1)

end Commh

open Commh

/-- A server handle with a sane count. -/
structure IsServer (h : Commh) : Prop where
  tcp : h.tcp = true
  server : h.server = true
  count_pos : 1 ≤ h.clientCount
  count_le : h.clientCount ≤ commsMaxClients

theorem IsServer.of_sameFrame {h h' : Commh} (hs : IsServer h) (hf : SameFrame h h') :
    IsServer h' :=
  ⟨hf.tcp.trans hs.tcp, hf.server.trans hs.server, hf.clientCount ▸ hs.count_pos,
    hf.clientCount ▸ hs.count_le⟩

/-! ## Removing a client -/

theorem shiftDown_spec (h : Commh) (i k : ℕ) (hk : i + k < commsMaxClients) :
    ∃ h', shiftDown h i k = some h' ∧ SameFrame h h' ∧
      ∀ j, h'.slot j = if i ≤ j ∧ j < i + k then h.slot (j + 1) else h.slot j := by
  induction k generalizing h i with
  | zero =>
    refine ⟨h, rfl, ⟨rfl, rfl, rfl⟩, fun j => ?_⟩
    rw [if_neg (by omega)]
  | succ k ih =>
    obtain ⟨h', hs, hf, hslot⟩ := ih (h.setSlot i (h.slot (i + 1))) (i + 1) (by omega)
    refine ⟨h', ?_, ⟨hf.tcp, hf.server, hf.clientCount⟩, fun j => ?_⟩
    · rw [shiftDown, slot?_eq h (by omega)]
      exact hs
    · rw [hslot, slot_setSlot _ _ _ _ (by omega), slot_setSlot _ _ _ _ (by omega)]
      by_cases hj : j = i
      · subst hj
        rw [if_neg (by omega), if_pos rfl, if_pos (by omega)]
      · by_cases hj' : i + 1 ≤ j ∧ j < i + 1 + k
        · rw [if_pos hj', if_neg (by omega), if_pos (by omega)]
        · rw [if_neg hj', if_neg hj, if_neg (by omega)]

/-- `h'` is `h` without the client in slot `cid`. -/
structure Removed (h : Commh) (cid : ℕ) (h' : Commh) : Prop where
  isServer : IsServer h'
  slot_zero : h'.slot 0 = h.slot 0
  clientCount : h'.clientCount = h.clientCount - 1
  clients : h'.clients = h.clients.eraseIdx (cid - 1)
  freed : h'.slot (h.clientCount - 1) = (0, .zero)
  unused : ∀ j, h.clientCount ≤ j → h'.slot j = h.slot j

/-- The table after the shift loop and the clearing of the last slot. -/
theorem removed_of_shift {h : Commh} (hs : IsServer h) {cid : ℕ} (hk : 1 ≤ cid)
    (hk' : cid < h.clientCount) :
    ∃ g, shiftDown (h.setSlot cid (0, .zero)) cid (h.clientCount - 1 - cid) = some g ∧
      Removed h cid { g.setSlot (g.clientCount - 1) (0, .zero) with
        clientCount := g.clientCount - 1 } := by
  have hle := hs.count_le
  obtain ⟨g, hsh, hf, hslot⟩ := shiftDown_spec (h.setSlot cid (0, .zero)) cid
    (h.clientCount - 1 - cid) (by omega)
  have hslot' : ∀ j, j ≠ h.clientCount - 1 →
      (g.setSlot (h.clientCount - 1) (0, .zero)).slot j =
        if cid ≤ j ∧ j < h.clientCount - 1 then h.slot (j + 1) else h.slot j := by
    intro j hj
    rw [slot_setSlot _ _ _ _ (by omega), if_neg hj, hslot, slot_setSlot _ _ _ _ (by omega),
      slot_setSlot _ _ _ _ (by omega)]
    by_cases hjr : cid ≤ j ∧ j < h.clientCount - 1
    · rw [if_pos (by omega), if_neg (by omega), if_pos hjr]
    · rw [if_neg (by omega), if_neg (by omega), if_neg hjr]
  have hcount : g.clientCount = h.clientCount := hf.clientCount
  refine ⟨g, hsh, ?_⟩
  rw [hcount]
  refine ⟨⟨?_, ?_, ?_, ?_⟩, ?_, rfl, ?_, ?_, ?_⟩
  · exact hf.tcp.trans hs.tcp
  · exact hf.server.trans hs.server
  · change 1 ≤ h.clientCount - 1
    omega
  · change h.clientCount - 1 ≤ _
    omega
  · exact (hslot' 0 (by omega)).trans (by rw [if_neg (by omega)])
  · apply List.ext_getElem
    · rw [clients_length, List.length_eraseIdx, clients_length, if_pos (by omega)]
    · intro j h₁ h₂
      rw [clients_length] at h₁
      change j < h.clientCount - 1 - 1 at h₁
      rw [clients_getElem, List.getElem_eraseIdx]
      refine (hslot' (j + 1) (by omega)).trans ?_
      by_cases hj : j < cid - 1
      · rw [dif_pos hj, clients_getElem, if_neg (by omega)]
      · rw [dif_neg hj, clients_getElem, if_pos (by omega)]
  · exact (slot_setSlot _ _ _ _ (by omega)).trans (if_pos rfl)
  · intro j hj
    exact (hslot' j (by omega)).trans (by rw [if_neg (by omega)])

/-- **`CommsDisconnect` on a server.**  It removes one slot and closes its
descriptor, or changes nothing but the error. -/
theorem commsDisconnect_spec {h : Commh} (hs : IsServer h) (cid : BitVec 16) :
    (∃ h', commsDisconnect h cid =
        some (h', [.shutdown (h.slot cid.toNat).1, .close (h.slot cid.toNat).1], true) ∧
      1 ≤ cid.toNat ∧ cid.toNat < h.clientCount ∧ 0 < (h.slot cid.toNat).1 ∧
      Removed h cid.toNat h') ∨
    (∃ line, commsDisconnect h cid =
        some (setError h .disconnect "CommsDisconnect" line, [], false) ∧
      (cid.toNat < 1 ∨ h.clientCount ≤ cid.toNat ∨ (h.slot cid.toNat).1 ≤ 0)) := by
  have hle := hs.count_le
  have hcount : h.clientCount % 2 ^ 16 = h.clientCount := by
    apply Nat.mod_eq_of_lt
    simp only [commsMaxClients] at hle
    omega
  unfold commsDisconnect
  rw [if_neg (by simp [hs.tcp, hs.server]), hcount]
  by_cases hr : cid.toNat < 1 ∨ cid.toNat ≥ h.clientCount
  · right
    rw [if_pos hr]
    exact ⟨226, rfl, by omega⟩
  · rw [if_neg hr, slot?_eq h (by omega)]
    dsimp only
    by_cases hz : (h.slot cid.toNat).1 ≤ 0
    · right
      rw [if_pos hz]
      exact ⟨233, rfl, Or.inr (Or.inr hz)⟩
    · left
      rw [if_neg hz]
      obtain ⟨g, hsh, hrem⟩ := removed_of_shift hs (by omega : 1 ≤ cid.toNat) (by omega)
      rw [setSlot_clientCount, hsh]
      exact ⟨_, rfl, by omega, by omega, by omega, hrem⟩

theorem shiftDown_arrays {h h' : Commh} {i k : ℕ} (hsh : shiftDown h i k = some h') :
    ∃ socks addresses, h' = { h with clientsSocks := socks, clientAddress := addresses } := by
  induction k generalizing h i with
  | zero =>
    cases hsh
    exact ⟨_, _, rfl⟩
  | succ k ih =>
    rw [shiftDown] at hsh
    split at hsh
    · cases hsh
    · obtain ⟨socks, addresses, hwritten⟩ := ih hsh
      exact ⟨socks, addresses, hwritten⟩

/-- What `CommsDisconnect` can do with any handle. -/
inductive Disconnect (h : Commh) (cid : BitVec 16) : Commh → List OsCall → Bool → Prop where
  | kind (hkind : h.tcp = false ∨ h.server = false) :
      Disconnect h cid (setError h .disconnect "CommsDisconnect" 218) [] false
  | outside (hcid : cid.toNat < 1 ∨ cid.toNat ≥ h.clientCount % 2 ^ 16) :
      Disconnect h cid (setError h .disconnect "CommsDisconnect" 226) [] false
  | empty {x : ℤ × SockaddrIn} (hslot : h.slot? cid.toNat = some x) (hsock : x.1 ≤ 0) :
      Disconnect h cid (setError h .disconnect "CommsDisconnect" 233) [] false
  | removed {x : ℤ × SockaddrIn} {socks : Vector ℤ commsMaxClients}
      {addresses : Vector SockaddrIn commsMaxClients} {count : ℕ}
      (htcp : h.tcp = true) (hserver : h.server = true)
      (hcid : ¬ (cid.toNat < 1 ∨ cid.toNat ≥ h.clientCount % 2 ^ 16))
      (hslot : h.slot? cid.toNat = some x) (hsock : ¬ x.1 ≤ 0) :
      Disconnect h cid
        { h with clientsSocks := socks, clientAddress := addresses, clientCount := count }
        [.shutdown x.1, .close x.1] true

theorem commsDisconnect_cases {h h' : Commh} {cid : BitVec 16} {calls : List OsCall} {r : Bool}
    (hd : commsDisconnect h cid = some (h', calls, r)) : Disconnect h cid h' calls r := by
  rw [commsDisconnect] at hd
  split at hd
  · rename_i hkind
    cases hd
    exact .kind (by simpa using hkind)
  · rename_i hkind
    obtain ⟨htcp, hserver⟩ : h.tcp = true ∧ h.server = true := by simpa using hkind
    split at hd
    · rename_i hcid
      cases hd
      exact .outside hcid
    · rename_i hcid
      split at hd
      · cases hd
      · rename_i hslot
        split at hd
        · rename_i hsock
          cases hd
          exact .empty hslot hsock
        · rename_i hsock
          dsimp only at hd
          split at hd
          · cases hd
          · rename_i hsh
            obtain ⟨socks, addresses, rfl⟩ := shiftDown_arrays hsh
            cases hd
            exact .removed htcp hserver hcid hslot hsock

theorem commsDisconnect_client {h : Commh} (hs : h.server = false) (cid : BitVec 16) :
    commsDisconnect h cid = some (setError h .disconnect "CommsDisconnect" 218, [], false) := by
  rw [commsDisconnect, if_pos (by simp [hs])]

/-- The threads, the loops' flag and the callback. -/
structure SameThreads (h h' : Commh) : Prop where
  recvcb : h'.recvcb = h.recvcb
  listener : h'.listener = h.listener
  accepter : h'.accepter = h.accepter
  running : h'.running = h.running

theorem commsDisconnect_threads {h h' : Commh} {cid : BitVec 16} {calls : List OsCall} {r : Bool}
    (hd : commsDisconnect h cid = some (h', calls, r)) : SameThreads h h' := by
  cases commsDisconnect_cases hd with
  | kind hkind => exact ⟨rfl, rfl, rfl, rfl⟩
  | outside hcid => exact ⟨rfl, rfl, rfl, rfl⟩
  | empty hslot hsock => exact ⟨rfl, rfl, rfl, rfl⟩
  | removed htcp hserver hcid hslot hsock => exact ⟨rfl, rfl, rfl, rfl⟩

/-! ## Entering a client -/

/-- `h'` is `h` with one more client, `x`. -/
structure Entered (h : Commh) (x : ℤ × SockaddrIn) (h' : Commh) : Prop where
  isServer : IsServer h'
  slot_zero : h'.slot 0 = h.slot 0
  clientCount : h'.clientCount = h.clientCount + 1
  clients : h'.clients = h.clients ++ [x]
  unused : ∀ j, h.clientCount < j → h'.slot j = h.slot j

/-- The accepter enters a connection behind the last client. -/
theorem commsAccepter_enter {h : Commh} (hs : IsServer h) (cs : ℤ) (cli : SockaddrIn)
    (hlt : h.clientCount < commsMaxClients) :
    ∃ h', commsAccepter h (.conn cs cli) = (h', [], .next) ∧ Entered h (cs, cli) h' := by
  have hpos := hs.count_pos
  refine ⟨_, if_neg (Nat.not_le.mpr hlt), ⟨hs.tcp, hs.server, ?_, hlt⟩, ?_, rfl, ?_, fun j hj => ?_⟩
  · change 1 ≤ h.clientCount + 1
    omega
  · exact (slot_setSlot h _ 0 _ hlt).trans (if_neg (by omega))
  · apply List.ext_getElem
    · rw [clients_length, List.length_append, clients_length, List.length_singleton]
      change h.clientCount + 1 - 1 = _
      omega
    · intro j h₁ h₂
      rw [clients_length] at h₁
      change j < h.clientCount + 1 - 1 at h₁
      rw [clients_getElem]
      refine (slot_setSlot h _ _ _ hlt).trans ?_
      by_cases hj : j < h.clientCount - 1
      · rw [if_neg (by omega), List.getElem_append_left (by rw [clients_length]; exact hj),
          clients_getElem]
      · rw [if_pos (by omega), List.getElem_append_right (by rw [clients_length]; omega)]
        simp
  · exact (slot_setSlot h _ j _ hlt).trans (if_neg (by omega))

/-- At a full table it closes the connection and ends. -/
theorem commsAccepter_full {h : Commh} (cs : ℤ) (cli : SockaddrIn)
    (hfull : commsMaxClients ≤ h.clientCount) :
    commsAccepter h (.conn cs cli) = (setError h .maxClients "comms_accepter" 653,
      if cs > 0 then [.shutdown cs, .close cs] else [], .exit) := if_pos hfull

/-- **An accepted connection on a server.**  It is entered behind the last
client, or closed at once when the table is full. -/
theorem commsAccepter_spec {h : Commh} (hs : IsServer h) (cs : ℤ) (cli : SockaddrIn) (hcs : 0 < cs) :
    (h.clientCount < commsMaxClients ∧
      ∃ h', commsAccepter h (.conn cs cli) = (h', [], .next) ∧ Entered h (cs, cli) h') ∨
    (h.clientCount = commsMaxClients ∧
      commsAccepter h (.conn cs cli) =
        (setError h .maxClients "comms_accepter" 653, [.shutdown cs, .close cs], .exit)) := by
  rcases Nat.lt_or_ge h.clientCount commsMaxClients with hlt | hfull
  · exact Or.inl ⟨hlt, commsAccepter_enter hs cs cli hlt⟩
  · refine Or.inr ⟨Nat.le_antisymm hs.count_le hfull, ?_⟩
    rw [commsAccepter_full cs cli hfull, if_pos hcs]

theorem commsAccepter_fail (h : Commh) (errno : Errno) :
    ∃ loop, commsAccepter h (.fail errno) = (h, [], loop) := by
  unfold commsAccepter
  dsimp only
  split
  · exact ⟨_, rfl⟩
  · split
    · exact ⟨_, rfl⟩
    · split
      · exact ⟨_, rfl⟩
      · exact ⟨_, rfl⟩

/-! ## Closing the server -/

/-- A slot that still names a descriptor. -/
def live (x : ℤ × SockaddrIn) : Bool := 0 < x.1

theorem live_iff {x : ℤ × SockaddrIn} : live x = true ↔ 0 < x.1 := decide_eq_true_iff

/-- The calls of `CommsClose` on a list of slots. -/
def closing (xs : List (ℤ × SockaddrIn)) : List OsCall :=
  (xs.filter live).flatMap fun x => [.shutdown x.1, .close x.1]

theorem closeSlots_spec (h : Commh) (i k : ℕ) (hk : i + k ≤ commsMaxClients) :
    ∃ h', closeSlots h i k = some (h', closing ((List.range' i k).map h.slot)) ∧ SameFrame h h' ∧
      ∀ j, h'.slot j =
        if i ≤ j ∧ j < i + k ∧ live (h.slot j) = true then (-1, .zero) else h.slot j := by
  induction k generalizing h i with
  | zero =>
    refine ⟨h, rfl, ⟨rfl, rfl, rfl⟩, fun j => ?_⟩
    rw [if_neg (by omega)]
  | succ k ih =>
    rw [closeSlots, slot?_eq h (by omega)]
    dsimp only
    by_cases hl : (h.slot i).1 > 0
    · obtain ⟨h', hc, hf, hslot⟩ := ih (h.setSlot i (-1, .zero)) (i + 1) (by omega)
      have hmap : (List.range' (i + 1) k).map (h.setSlot i (-1, .zero)).slot =
          (List.range' (i + 1) k).map h.slot := by
        refine List.map_congr_left fun j hj => ?_
        rw [slot_setSlot _ _ _ _ (by omega), if_neg]
        have := List.mem_range'_1.mp hj
        omega
      rw [if_pos hl, hc, hmap]
      refine ⟨h', ?_, ⟨hf.tcp, hf.server, hf.clientCount⟩, fun j => ?_⟩
      · simp [closing, List.range'_succ, live, hl]
      · rw [hslot, slot_setSlot _ _ _ _ (by omega)]
        by_cases hj : j = i
        · subst hj
          rw [if_neg (by omega), if_pos rfl, if_pos ⟨by omega, by omega, by simpa [live] using hl⟩]
        · rw [if_neg hj]
          by_cases hr : i ≤ j ∧ j < i + (k + 1) ∧ live (h.slot j) = true
          · rw [if_pos hr, if_pos ⟨by omega, by omega, hr.2.2⟩]
          · rw [if_neg hr, if_neg (fun hr' => hr ⟨by omega, by omega, hr'.2.2⟩)]
    · obtain ⟨h', hc, hf, hslot⟩ := ih h (i + 1) (by omega)
      rw [if_neg hl, hc]
      refine ⟨h', ?_, hf, fun j => ?_⟩
      · simp [closing, List.range'_succ, live, hl]
      · rw [hslot]
        by_cases hr : i ≤ j ∧ j < i + (k + 1) ∧ live (h.slot j) = true
        · have hj : j ≠ i := fun e => by
            subst e
            exact hl (by simpa [live] using hr.2.2)
          rw [if_pos hr, if_pos ⟨by omega, by omega, hr.2.2⟩]
        · rw [if_neg hr, if_neg (fun hr' => hr ⟨by omega, by omega, hr'.2.2⟩)]

theorem commsClose_spec {h : Commh} (hs : IsServer h) (rcListener rcAccepter : ℤ) :
    ∃ h' joins r, commsClose h rcListener rcAccepter =
        some (h', closing ((List.range h.clientCount).map h.slot) ++ joins, r) ∧
      (∀ c ∈ joins, ∃ thread, c = OsCall.join thread) ∧ SameFrame h h' ∧
      ∀ j, h'.slot j =
        if j < h.clientCount ∧ live (h.slot j) = true then (-1, .zero) else h.slot j := by
  have hle := hs.count_le
  obtain ⟨g, hc, hf, hslot⟩ := closeSlots_spec h 0 h.clientCount (by omega)
  have hslot' : ∀ j, g.slot j =
      if j < h.clientCount ∧ live (h.slot j) = true then (-1, .zero) else h.slot j := by
    intro j
    rw [hslot]
    simp only [Nat.zero_le, Nat.zero_add, true_and]
  have hserver : g.server = true := hf.server.trans hs.server
  rw [← List.range_eq_range'] at hc
  unfold commsClose
  rw [hc]
  dsimp only
  by_cases hl : rcListener ≠ 0
  · rw [if_pos hl]
    exact ⟨_, [.join g.listener], false, rfl, by simp, ⟨hf.tcp, hf.server, hf.clientCount⟩, hslot'⟩
  · rw [if_neg hl, if_pos hserver]
    by_cases ha : rcAccepter ≠ 0
    · rw [if_pos ha]
      exact ⟨setError { g with running := false } .closeComms "CommsClose" 298,
        [.join g.listener, .join g.accepter], false, by simp, by simp,
        ⟨hf.tcp, hf.server, hf.clientCount⟩, hslot'⟩
    · rw [if_neg ha]
      exact ⟨{ g with running := false }, [.join g.listener, .join g.accepter], true,
        by simp, by simp,
        ⟨hf.tcp, hf.server, hf.clientCount⟩, hslot'⟩

/-! ## Sending -/

theorem sendAll_frame {h h' : Commh} {msg : List UInt8} {ret : ℕ → ℤ} {i k : ℕ}
    {calls : List OsCall} {r : Bool} (hsend : sendAll h msg ret i k = some (h', calls, r)) :
    SameTable h h' ∧ ∀ c ∈ calls, ∃ fd, c = .send fd msg := by
  induction k generalizing i calls with
  | zero =>
    cases hsend
    exact ⟨.refl h, by simp⟩
  | succ k ih =>
    rw [sendAll] at hsend
    split at hsend
    · cases hsend
    · split at hsend
      · cases hsend
        exact ⟨.of_setError h _ _ _, by simp⟩
      · split at hsend
        · cases hsend
        · rename_i hrest
          cases hsend
          obtain ⟨hst, hcalls⟩ := ih hrest
          refine ⟨hst, fun c hc => ?_⟩
          rcases List.mem_cons.mp hc with rfl | hc
          · exact ⟨_, rfl⟩
          · exact hcalls c hc

theorem sendOne_frame {h h' : Commh} {msg : List UInt8} {ret : ℕ → ℤ} {cid : ℕ}
    {calls : List OsCall} {r : Bool} (hsend : sendOne h msg ret cid = some (h', calls, r)) :
    SameTable h h' ∧ ∀ c ∈ calls, ∃ fd, c = .send fd msg := by
  unfold sendOne at hsend
  split at hsend
  · cases hsend
  · split at hsend
    · cases hsend
      exact ⟨.of_setError h _ _ _, by simp⟩
    · split at hsend
      · cases hsend
        exact ⟨.of_setError h _ _ _, by simp⟩
      · cases hsend
        exact ⟨.refl h, by simp⟩

theorem commsSendOpt_server {h : Commh} (hs : IsServer h) (msg : List UInt8) (opt : CommsSendOpt)
    (ret : ℕ → ℤ) :
    commsSendOpt h msg opt ret =
      if opt.cid.toNat < 1 then some (setError h .failedToSend "comms_send__opt" 405, [], false)
      else if opt.cid.toNat ≠ commsSendToAllClients then sendOne h msg ret opt.cid.toNat
      else sendAll h msg ret 1 (h.clientCount - 1) := by
  rw [commsSendOpt, if_pos hs.tcp, if_pos hs.server]

theorem commsSendOpt_frame {h h' : Commh} (hs : IsServer h) {msg : List UInt8}
    {opt : CommsSendOpt} {ret : ℕ → ℤ} {calls : List OsCall} {r : Bool}
    (hsend : commsSendOpt h msg opt ret = some (h', calls, r)) :
    SameTable h h' ∧ ∀ c ∈ calls, ∃ fd, c = .send fd msg := by
  rw [commsSendOpt_server hs] at hsend
  split at hsend
  · cases hsend
    exact ⟨.of_setError h _ _ _, by simp⟩
  · split at hsend
    · exact sendOne_frame hsend
    · exact sendAll_frame hsend

/-! ## A new server -/

/-- What the end of `comms_tcpserver_init__opt` can do. -/
inductive ServerStart (g : Commh) (env : InitEnv) (cs : List OsCall) :
    Commh → List OsCall → Bool → Prop where
  | off (hrun : g.running = false) : ServerStart g env cs g cs true
  | noListener (hrun : g.running = true) (hlistener : env.listenerRc ≠ 0) :
      ServerStart g env cs
        { setError g .failedToCreateListener "comms_tcpserver_init__opt" 828 with running := false }
        cs false
  | noAccepter (hrun : g.running = true) (hlistener : env.listenerRc = 0)
      (haccepter : env.accepterRc ≠ 0) :
      ServerStart g env cs
        { setError { g with listener := env.listenerTid } .failedToCreateAccepter
            "comms_tcpserver_init__opt" 836 with running := false }
        (cs ++ [.create env.listenerTid]) false
  | threads (hrun : g.running = true) (hlistener : env.listenerRc = 0)
      (haccepter : env.accepterRc = 0) :
      ServerStart g env cs { g with listener := env.listenerTid, accepter := env.accepterTid }
        (cs ++ [.create env.listenerTid] ++ [.create env.accepterTid]) true

theorem startServer_cases {g h : Commh} {env : InitEnv} {cs calls : List OsCall} {r : Bool}
    (hst : startServer g env cs = (h, calls, r)) : ServerStart g env cs h calls r := by
  rw [startServer] at hst
  split at hst
  · rename_i hrun
    split at hst
    · rename_i hlistener
      cases hst
      exact .noListener hrun hlistener
    · rename_i hlistener
      dsimp only at hst
      split at hst
      · rename_i haccepter
        cases hst
        exact .noAccepter hrun (not_not.mp hlistener) haccepter
      · rename_i haccepter
        cases hst
        exact .threads hrun (not_not.mp hlistener) (not_not.mp haccepter)
  · rename_i hrun
    cases hst
    exact .off (Bool.eq_false_iff.mpr hrun)

theorem startServer_frame {g h : Commh} {env : InitEnv} {cs calls : List OsCall} {r : Bool}
    (hst : startServer g env cs = (h, calls, r)) :
    SameFrame g h ∧ h.clientsSocks = g.clientsSocks := by
  cases startServer_cases hst with
  | off hrun => exact ⟨⟨rfl, rfl, rfl⟩, rfl⟩
  | noListener hrun hlistener => exact ⟨⟨rfl, rfl, rfl⟩, rfl⟩
  | noAccepter hrun hlistener haccepter => exact ⟨⟨rfl, rfl, rfl⟩, rfl⟩
  | threads hrun hlistener haccepter => exact ⟨⟨rfl, rfl, rfl⟩, rfl⟩

theorem closeAndFail_ne_true {g h : Commh} {env : InitEnv} {cs calls : List OsCall} :
    closeAndFail g env cs ≠ some (h, calls, true) := by
  intro e
  unfold closeAndFail at e
  split at e <;> simp at e

/-- What `comms_tcpserver_init__opt` can do. -/
inductive ServerInit (h : Commh) (opt : CommsOpt) (env : InitEnv) :
    Commh → List OsCall → Bool → Prop where
  | noSocket {g : Commh} (hsocket : env.socket < 0) (herr : g.errType = .socket) :
      ServerInit h opt env g [] false
  | closes {g h' : Commh} {calls : List OsCall} {r : Bool} (hsocket : 0 ≤ env.socket)
      (hfails : env.bind < 0 ∧ g.errType = .bind ∨ env.listen < 0 ∧ g.errType = .listen)
      (hclose : closeAndFail g env [.socket env.socket] = some (h', calls, r)) :
      ServerInit h opt env h' calls r
  | starts {h' : Commh} {calls : List OsCall} {r : Bool} (hipv4 : opt.ipv6 = false)
      (hsocket : 0 ≤ env.socket) (hbind : 0 ≤ env.bind) (hlisten : 0 ≤ env.listen)
      (hstart : startServer
        { h with
          localAddress := localAddressOf h opt
          clientsSocks := h.clientsSocks.setIfInBounds 0 env.socket
          recvcb := opt.recvcb, running := opt.recvcb, tcp := true, server := true
          clientCount := 1 } env [.socket env.socket] = (h', calls, r)) :
      ServerInit h opt env h' calls r

theorem commsTcpserverInitOpt_cases {h h' : Commh} {opt : CommsOpt} {env : InitEnv}
    {calls : List OsCall} {r : Bool}
    (hinit : commsTcpserverInitOpt h opt env = some (h', calls, r)) :
    ServerInit h opt env h' calls r := by
  rw [commsTcpserverInitOpt] at hinit
  dsimp only at hinit
  split at hinit
  · cases hinit
  · rename_i hipv4
    split at hinit
    · rename_i hsocket
      cases hinit
      exact .noSocket hsocket rfl
    · rename_i hsocket
      split at hinit
      · rename_i hbind
        exact .closes (not_lt.mp hsocket) (Or.inl ⟨hbind, rfl⟩) hinit
      · rename_i hbind
        split at hinit
        · rename_i hlisten
          exact .closes (not_lt.mp hsocket) (Or.inr ⟨hlisten, rfl⟩) hinit
        · rename_i hlisten
          exact .starts (Bool.eq_false_iff.mpr hipv4) (not_lt.mp hsocket) (not_lt.mp hbind)
            (not_lt.mp hlisten) (Option.some.inj hinit)

theorem slot_zero_of_socks {h g : Commh} {sock : ℤ}
    (hsocks : h.clientsSocks = g.clientsSocks.setIfInBounds 0 sock) : (h.slot 0).1 = sock := by
  rw [slot, hsocks, Vector.getElem?_setIfInBounds, if_pos rfl, if_pos (by decide)]
  rfl

/-- A successful `comms_tcpserver_init__opt` leaves a server without clients that
listens on the socket it got. -/
theorem commsTcpserverInitOpt_spec {h₀ h : Commh} {opt : CommsOpt} {env : InitEnv}
    {calls : List OsCall} (hinit : commsTcpserverInitOpt h₀ opt env = some (h, calls, true)) :
    IsServer h ∧ h.clientCount = 1 ∧ (h.slot 0).1 = env.socket := by
  cases commsTcpserverInitOpt_cases hinit with
  | closes hsocket hfails hclose => exact absurd hclose closeAndFail_ne_true
  | starts hipv4 hsocket hbind hlisten hstart =>
    obtain ⟨hf, hsocks⟩ := startServer_frame hstart
    have hcount : h.clientCount = 1 := hf.clientCount
    exact ⟨⟨hf.tcp, hf.server, by omega, by rw [hcount]; decide⟩, hcount,
      slot_zero_of_socks hsocks⟩

/-- A new server runs its threads if it has a callback. -/
theorem commsTcpserverInitOpt_running {h₀ h : Commh} {opt : CommsOpt} {env : InitEnv}
    {calls : List OsCall} (hinit : commsTcpserverInitOpt h₀ opt env = some (h, calls, true)) :
    h.running = opt.recvcb := by
  cases commsTcpserverInitOpt_cases hinit with
  | closes hsocket hfails hclose => exact absurd hclose closeAndFail_ne_true
  | starts hipv4 hsocket hbind hlisten hstart =>
    cases startServer_cases hstart with
    | off hrun => rfl
    | threads hrun hlistener haccepter => rfl

theorem commsTcpserverInitOpt_recvcb {h₀ h : Commh} {opt : CommsOpt} {env : InitEnv}
    {calls : List OsCall} (hinit : commsTcpserverInitOpt h₀ opt env = some (h, calls, true)) :
    h.recvcb = opt.recvcb := by
  cases commsTcpserverInitOpt_cases hinit with
  | closes hsocket hfails hclose => exact absurd hclose closeAndFail_ne_true
  | starts hipv4 hsocket hbind hlisten hstart =>
    cases startServer_cases hstart with
    | off hrun => rfl
    | threads hrun hlistener haccepter => rfl

/-! ## The other handles -/

/-- What the end of the other two `Init` functions can do. -/
inductive ListenerStart (g : Commh) (env : InitEnv) (f : String) (line : ℕ) (cs : List OsCall) :
    Commh → List OsCall → Bool → Prop where
  | off (hrun : g.running = false) : ListenerStart g env f line cs g cs true
  | noListener (hrun : g.running = true) :
      ListenerStart g env f line cs
        { setError g .failedToCreateListener f line with running := false } cs false
  | thread (hrun : g.running = true) :
      ListenerStart g env f line cs { g with listener := env.listenerTid }
        (cs ++ [.create env.listenerTid]) true

theorem startListener_cases {g h : Commh} {env : InitEnv} {f : String} {line : ℕ}
    {cs calls : List OsCall} {r : Bool} (hst : startListener g env f line cs = (h, calls, r)) :
    ListenerStart g env f line cs h calls r := by
  rw [startListener] at hst
  split at hst
  · rename_i hrun
    split at hst
    · cases hst
      exact .noListener hrun
    · cases hst
      exact .thread hrun
  · rename_i hrun
    cases hst
    exact .off (Bool.eq_false_iff.mpr hrun)

/-- What `comms_udp_init__opt` can do. -/
inductive UdpInit (h : Commh) (opt : CommsOpt) (env : InitEnv) :
    Commh → List OsCall → Bool → Prop where
  | noSocket {g : Commh} (hsocket : env.socket < 0) (herr : g.errType = .socket) :
      UdpInit h opt env g [] false
  | noBind {g : Commh} (hsocket : 0 ≤ env.socket) (herr : g.errType = .bind) :
      UdpInit h opt env g [.socket env.socket] false
  | starts {address : SockaddrIn} {h' : Commh} {calls : List OsCall} {r : Bool}
      (hsocket : 0 ≤ env.socket)
      (hstart : startListener
        { h with
          localAddress := address
          clientsSocks := h.clientsSocks.setIfInBounds 0 env.socket
          recvcb := opt.recvcb, clientCount := 0, running := opt.recvcb, tcp := false
          server := false } env "comms_udp_init__opt" 743 [.socket env.socket] = (h', calls, r)) :
      UdpInit h opt env h' calls r

theorem commsUdpInitOpt_cases {h h' : Commh} {opt : CommsOpt} {env : InitEnv}
    {calls : List OsCall} {r : Bool} (hinit : commsUdpInitOpt h opt env = (h', calls, r)) :
    UdpInit h opt env h' calls r := by
  rw [commsUdpInitOpt] at hinit
  obtain ⟨address, haddress⟩ : ∃ address,
      (if opt.ipv6 then h else { h with localAddress := localAddressOf h opt })
        = { h with localAddress := address } := by
    split
    · exact ⟨h.localAddress, rfl⟩
    · exact ⟨_, rfl⟩
  rw [haddress] at hinit
  dsimp only at hinit
  split at hinit
  · rename_i hsocket
    cases hinit
    exact .noSocket hsocket rfl
  · rename_i hsocket
    split at hinit
    · cases hinit
      exact .noBind (not_lt.mp hsocket) rfl
    · exact .starts (not_lt.mp hsocket) hinit

/-- What `comms_tcpclient_init__opt` can do. -/
inductive ClientInit (h : Commh) (opt : CommsOpt) (env : InitEnv) :
    Commh → List OsCall → Bool → Prop where
  | noSocket {g : Commh} (hsocket : env.socket < 0) (herr : g.errType = .socket) :
      ClientInit h opt env g [] false
  | closes {g h' : Commh} {calls : List OsCall} {r : Bool} (hsocket : 0 ≤ env.socket)
      (herr : g.errType = .bind)
      (hclose : closeAndFail g env [.socket env.socket] = some (h', calls, r)) :
      ClientInit h opt env h' calls r
  | starts {h' : Commh} {calls : List OsCall} {r : Bool} (hsocket : 0 ≤ env.socket)
      (hstart : startListener
        { h with
          localAddress := localAddressOf h opt
          clientsSocks := h.clientsSocks.setIfInBounds 0 env.socket
          recvcb := opt.recvcb, clientCount := 0, running := opt.recvcb, tcp := true
          server := false } env "comms_tcpclient_init__opt" 910 [.socket env.socket]
        = (h', calls, r)) :
      ClientInit h opt env h' calls r

theorem commsTcpclientInitOpt_cases {h h' : Commh} {opt : CommsOpt} {env : InitEnv}
    {calls : List OsCall} {r : Bool}
    (hinit : commsTcpclientInitOpt h opt env = some (h', calls, r)) :
    ClientInit h opt env h' calls r := by
  rw [commsTcpclientInitOpt] at hinit
  dsimp only at hinit
  split at hinit
  · cases hinit
  · split at hinit
    · rename_i hsocket
      cases hinit
      exact .noSocket hsocket rfl
    · rename_i hsocket
      split at hinit
      · exact .closes (not_lt.mp hsocket) rfl hinit
      · exact .starts (not_lt.mp hsocket) (Option.some.inj hinit)

/-! ## CommsConnect -/

/-- `CommsConnect` refuses, or writes an address and the count. -/
theorem commsConnect_cases {h h' : Commh} {ip : BitVec 32} {port : BitVec 16} {ret : ℤ} {r : Bool}
    (hc : commsConnect h ip port ret = some (h', r)) :
    (∃ line, h' = setError h .connect "CommsConnect" line) ∨
      ∃ addresses count, h' = { h with clientAddress := addresses, clientCount := count } := by
  have hconnected : ∀ {g : Commh} {i : ℕ}, connected g i ip port = some (h', r) →
      ∃ addresses count, h' = { g with clientAddress := addresses, clientCount := count } := by
    intro g i hg
    rw [connected] at hg
    split at hg
    · cases hg
    · cases hg
      exact ⟨_, _, rfl⟩
  rw [commsConnect] at hc
  split at hc
  · cases hc
    exact Or.inl ⟨_, rfl⟩
  · split at hc
    · split at hc
      · cases hc
        exact Or.inl ⟨_, rfl⟩
      · obtain ⟨addresses, count, hwritten⟩ := hconnected hc
        exact Or.inr ⟨addresses, count, hwritten⟩
    · exact Or.inr (hconnected hc)

end DataCommons.Comms
