import Mathlib.Order.Bounds.Basic
import DataCommons.Comms.Listener
import DataCommons.Comms.Sections
import DataCommons.Lib.Trail

/-!
# Where a client stands between two stores

While `CommsDisconnect` moves the clients down, one slot holds nothing that counts any more:
the slot of the client that leaves, then the upper copy of the client that moved last
(`Shared.junk`).  A client that stays is in its slot, or for the time between two stores in
two of them.

* `Located.step`: what one step makes of a client's place;
* `placed`: every client has one, in every state that is reached.
-/

namespace DataCommons.Comms

open Commh

/-- The slot that is overwritten next. -/
def Shared.junk (x : Shared) : Option ℕ :=
  match x.sec with
  | some (.zero i) | some (.shift i) => some i
  | some .last => some (x.server.h.clientCount - 1)
  | _ => none

/-- The number of slots that will be left when the section is over, before it counts up. -/
def Shared.inUse (x : Shared) : ℕ :=
  match x.sec with
  | some .count => x.server.h.clientCount - 1
  | _ => x.server.h.clientCount

/-- `c` is in slot `k`, and with `trail` in the one above.  This is said of the slots in use
and of slot `e`, which somebody is going to read. -/
structure Located (c : Conn) (x : Shared) (e : Option ℕ) (k : ℕ) (trail : Bool) : Prop where
  pos : 1 ≤ k
  lt : k < x.inUse
  slot : ∀ m, 1 ≤ m → m < x.server.h.clientCount ∨ e = some m →
    ((x.server.h.slot m).1 = c.fd ↔ Trail.Holds k trail m)
  junk : trail = true → x.junk = some (k + 1)
  kept : trail = false → x.junk ≠ some k

/-! ## A slot is overwritten -/

theorem holds_of_junk {k j m : ℕ} {trail : Bool} (hjunk : trail = true → j = k + 1)
    (hkept : trail = false → j ≠ k) :
    (m ≠ j ∧ Trail.Holds k trail m) ↔ Trail.Holds k false m := by
  cases trail with
  | false =>
    have hj := hkept rfl
    simp only [Trail.Holds, Bool.false_eq_true, false_and, or_false]
    exact ⟨And.right, fun hm => ⟨fun h => hj (h.symm.trans hm), hm⟩⟩
  | true =>
    have hj := hjunk rfl
    simp only [Trail.Holds, Bool.false_eq_true, false_and, or_false, true_and]
    omega

theorem move_off (k : ℕ) (trail : Bool) : Trail.Move k trail k false := by
  cases trail with
  | false => exact .stay
  | true => exact .clear

section Overwrite

variable {c : Conn} {x : Shared} {e : Option ℕ} {k : ℕ} {trail : Bool}

theorem Located.ne_junk (loc : Located c x e k trail) {j : ℕ} (hj : x.junk = some j) : j ≠ k := by
  cases trail with
  | false =>
    rintro rfl
    exact loc.kept rfl hj
  | true =>
    have hjk : j = k + 1 := Option.some.inj (hj.symm.trans (loc.junk rfl))
    omega

/-- The slots behind a store in the junk that is not the client's. -/
theorem Located.overwrite (loc : Located c x e k trail) {j : ℕ} (hj : x.junk = some j)
    (hlt : j < commsMaxClients) {y : ℤ × SockaddrIn} (hy : y.1 ≠ c.fd) {m : ℕ} (hm : 1 ≤ m)
    (hm' : m < x.server.h.clientCount ∨ e = some m) :
    ((x.server.h.setSlot j y).slot m).1 = c.fd ↔ Trail.Holds k false m := by
  have hoff := @holds_of_junk k j m trail
    (fun h => Option.some.inj (hj.symm.trans (loc.junk h)))
    (fun h heq => loc.kept h (heq ▸ hj))
  rw [← hoff, slot_setSlot _ _ _ _ hlt]
  by_cases h : m = j
  · rw [if_pos h]
    exact iff_of_false hy fun hboth => hboth.1 h
  · rw [if_neg h, loc.slot m hm hm']
    exact (and_iff_right h).symm

/-- The client in the slot above is copied to the junk. -/
theorem Located.copied (loc : Located c x e (k + 1) false) {m : ℕ} (hk : 1 ≤ k)
    (hcount : k + 1 < x.server.h.clientCount) (hlt : k < commsMaxClients) (hm : 1 ≤ m)
    (hm' : m < x.server.h.clientCount ∨ e = some m) :
    ((x.server.h.setSlot k (x.server.h.slot (k + 1))).slot m).1 = c.fd ↔
      Trail.Holds k true m := by
  rw [slot_setSlot _ _ _ _ hlt]
  by_cases h : m = k
  · rw [if_pos h, loc.slot (k + 1) (by omega) (.inl hcount)]
    simp [Trail.Holds, h]
  · rw [if_neg h, loc.slot m hm hm']
    simp [Trail.Holds, h]

end Overwrite

/-! ## Inside a section -/

theorem Within.count_eq {s t : Server} {k : Section} (hw : Within s t k) :
    t.h.clientCount = s.h.clientCount := by
  cases hw with
  | shift hl hcount hi hi' hrest => exact hcount
  | last hl hcount hall => exact hcount
  | count hl hcount hall => exact hcount
  | _ => rfl

theorem Leaving.conn {sock : ℤ} {s : Server} (inv : TableInv sock s) {cid : BitVec 16}
    {x : ℤ × SockaddrIn} (hl : Leaving s.h cid x) :
    ∃ c ∈ s.os.conns, x = c.entry := by
  obtain ⟨hpos, hlt⟩ := hl.range
  obtain ⟨c, hc, hentry⟩ := inv.slot_entry hpos hlt
  have hslot := hl.2
  rw [slot?_eq _ (lt_of_lt_of_le hlt inv.isServer.count_le)] at hslot
  exact ⟨c, List.mem_of_getElem? hc, (Option.some.inj hslot).symm.trans hentry⟩

theorem Within.osInv {sock : ℤ} {s t : Server} (inv : TableInv sock s) {k : Section}
    (hw : Within s t k) : OsInv t.os := by
  have hclosed : ∀ {cid : BitVec 16} {x : ℤ × SockaddrIn}, Leaving s.h cid x →
      OsInv (s.os.calls [.shutdown x.1, .close x.1]) := by
    intro cid x hl
    obtain ⟨c, hc, rfl⟩ := hl.conn inv
    obtain ⟨before, after, hconns⟩ := List.append_of_mem hc
    exact (inv.os.close before after hconns).2
  cases hw with
  | drop hl => exact inv.os
  | zero hl => exact hclosed hl
  | shift hl hcount hi hi' hrest => exact hclosed hl
  | last hl hcount hall => exact hclosed hl
  | count hl hcount hall => exact hclosed hl
  | write hroom fresh => exact inv.os
  | grow hroom fresh => exact inv.os

/-- A descriptor that was closed is nobody's. -/
theorem OsInv.ne_of_close {os : Os} (inv : OsInv os) {c : Conn} {fd : ℤ}
    (hc : c ∈ (os.close fd).conns) : c.fd ≠ fd := by
  rintro rfl
  by_cases hmem : c ∈ os.conns
  · have hfind := inv.find_fd hmem
    rw [Os.close, if_neg (inv.listening c hmem), hfind] at hc
    exact (List.Nodup.of_map _ inv.fds).not_mem_erase hc
  · rw [Os.close] at hc
    split at hc
    · exact hmem hc
    · split at hc
      · exact hmem hc
      · exact hmem (List.erase_subset hc)

section Store

variable {sock : ℤ} {s : Server} {c : Conn} {h : Commh} {os : Os} {a a' : Option (ℤ × SockaddrIn)}
  {e : Option ℕ} {k i : ℕ} {trail : Bool}

theorem Located.drop (inv : OsInv os) {cid : ℕ} {x : ℤ × SockaddrIn}
    (loc : Located c ⟨⟨h, os⟩, some (.drop cid), a⟩ e k trail) (hcid : cid < h.clientCount)
    (hslot : h.slot cid = x) (hc : c ∈ (os.calls [.shutdown x.1, .close x.1]).conns) :
    Located c ⟨⟨h, os.calls [.shutdown x.1, .close x.1]⟩, some (.zero cid), a'⟩ e k trail := by
  refine ⟨loc.pos, loc.lt, loc.slot, fun ht => (nomatch loc.junk ht), fun _ hk => ?_⟩
  obtain rfl : cid = k := Option.some.inj hk
  have hown := (loc.slot cid loc.pos (.inl hcid)).mpr (.inl rfl)
  rw [hslot] at hown
  exact inv.ne_of_close hc hown.symm

theorem Located.zero {cid : ℕ} (loc : Located c ⟨⟨h, os⟩, some (.zero cid), a⟩ e k trail)
    (hle : cid < commsMaxClients) (hpos : 0 < c.fd) :
    Located c ⟨⟨h.setSlot cid (0, .zero), os⟩, some (.shift cid), a'⟩ e k false :=
  ⟨loc.pos, loc.lt, fun _ hm hm' => loc.overwrite rfl hle hpos.ne hm hm', nofun,
    fun _ hk => loc.ne_junk rfl (Option.some.inj hk)⟩

/-- A round of the loop moves the client in the slot above, if it is `c`. -/
theorem Located.shift (loc : Located c ⟨⟨h, os⟩, some (.shift i), a⟩ e k trail) (hi : 1 ≤ i)
    (hlt : i < h.clientCount - 1) (hle : h.clientCount ≤ commsMaxClients) :
    ∃ k' trail',
      Located c ⟨⟨h.setSlot i (h.slot (i + 1)), os⟩, some (.shift (i + 1)), a'⟩ e k' trail' ∧
        Trail.Move k trail k' trail' := by
  have habove := loc.slot (i + 1) (Nat.le_add_left 1 i) (.inl (show i + 1 < h.clientCount by omega))
  by_cases hk : k = i + 1
  · subst hk
    cases trail with
    | true => exact absurd (Option.some.inj (loc.junk rfl)) (by omega)
    | false =>
      refine ⟨i, true, ⟨hi, lt_trans (Nat.lt_succ_self i) loc.lt, fun m hm hm' => ?_, fun _ => rfl,
        nofun⟩, .copy⟩
      exact loc.copied hi (show i + 1 < h.clientCount by omega) (by omega) hm hm'
  · have hother : (h.slot (i + 1)).1 ≠ c.fd := by
      intro heq
      rcases habove.mp heq with hik | ⟨ht, hik⟩
      · exact hk hik.symm
      · have hjunk := Option.some.inj (loc.junk ht)
        omega
    refine ⟨k, false, ⟨loc.pos, loc.lt, fun m hm hm' => ?_, nofun, fun _ hj => ?_⟩, move_off k trail⟩
    · exact loc.overwrite rfl (show i < commsMaxClients by omega) hother hm hm'
    · exact hk (Option.some.inj hj).symm

theorem Located.shifted (loc : Located c ⟨⟨h, os⟩, some (.shift i), a⟩ e k trail)
    (hlt : i = h.clientCount - 1) : Located c ⟨⟨h, os⟩, some .last, a'⟩ e k trail := by
  subst hlt
  exact ⟨loc.pos, loc.lt, loc.slot, loc.junk, loc.kept⟩

theorem Located.last (loc : Located c ⟨⟨h, os⟩, some .last, a⟩ e k trail)
    (hcount : 1 ≤ h.clientCount) (hle : h.clientCount ≤ commsMaxClients) (hpos : 0 < c.fd) :
    Located c ⟨⟨h.setSlot (h.clientCount - 1) (0, .zero), os⟩, some .count, a'⟩ e k false := by
  have hlt : k < h.clientCount := loc.lt
  have hne : h.clientCount - 1 ≠ k := loc.ne_junk rfl
  refine ⟨loc.pos, ?_, fun m hm hm' => ?_, nofun, nofun⟩
  · change k < h.clientCount - 1
    omega
  · exact loc.overwrite rfl (show h.clientCount - 1 < commsMaxClients by omega) hpos.ne hm hm'

/-- Where nothing is junk, `c` is in one slot. -/
theorem Located.single {x : Shared} (loc : Located c x e k trail) (hj : x.junk = none) :
    trail = false := by
  cases trail with
  | false => rfl
  | true => exact absurd (hj.symm.trans (loc.junk rfl)) nofun

theorem Located.count (loc : Located c ⟨⟨h, os⟩, some .count, a⟩ e k trail) :
    Located c ⟨⟨{ h with clientCount := h.clientCount - 1 }, os⟩, none, a'⟩ e k trail :=
  ⟨loc.pos, loc.lt,
    fun m hm hm' => loc.slot m hm (hm'.imp_left fun hlt => lt_of_lt_of_le hlt (Nat.sub_le _ _)),
    loc.junk, loc.kept⟩

theorem Located.write {cs : ℤ} {cli : SockaddrIn}
    (loc : Located c ⟨⟨h, os⟩, some (.write cs cli), a⟩ e k trail) (hroom : h.clientCount < commsMaxClients)
    (hne : cs ≠ c.fd) :
    Located c ⟨⟨h.setSlot h.clientCount (cs, cli), os⟩, some (.grow cs cli), a'⟩ e k trail := by
  have hlt : k < h.clientCount := loc.lt
  obtain rfl := loc.single rfl
  refine ⟨loc.pos, loc.lt, fun m hm hm' => ?_, nofun, nofun⟩
  rw [slot_setSlot _ _ _ _ hroom]
  by_cases hm₀ : m = h.clientCount
  · rw [if_pos hm₀]
    refine iff_of_false hne fun hk => ?_
    rcases hk with hk | hk
    · omega
    · exact Bool.false_ne_true hk.1
  · rw [if_neg hm₀]
    exact loc.slot m hm hm'

theorem Located.grow {cs : ℤ} {cli : SockaddrIn}
    (loc : Located c ⟨⟨h, os⟩, some (.grow cs cli), a⟩ e k trail)
    (hslot : h.slot h.clientCount = (cs, cli)) (hne : cs ≠ c.fd) :
    Located c ⟨⟨{ h with clientCount := h.clientCount + 1 }, os.accept cs cli⟩, none, a'⟩ e k
      trail := by
  have hlt : k < h.clientCount := loc.lt
  obtain rfl := loc.single rfl
  refine ⟨loc.pos, Nat.lt_succ_of_lt hlt, fun m hm hm' => ?_, nofun, nofun⟩
  by_cases hm₀ : m = h.clientCount
  · subst hm₀
    change (h.slot h.clientCount).1 = c.fd ↔ _
    rw [hslot]
    refine iff_of_false hne fun hk => ?_
    rcases hk with hk | hk
    · omega
    · exact Bool.false_ne_true hk.1
  · refine loc.slot m hm (hm'.imp_left fun hm₁ => ?_)
    change m < h.clientCount + 1 at hm₁
    change m < h.clientCount
    omega

end Store

/-! ## One step -/

/-- The two ways in which a store may leave `c`. -/
def Stays (c : Conn) (e : Option ℕ) (k : ℕ) (trail : Bool) (y : Shared) : Prop :=
  ∃ k' trail', Located c y e k' trail' ∧ Trail.Move k trail k' trail'

theorem Located.stays {c : Conn} {y : Shared} {e : Option ℕ} {k : ℕ} {trail : Bool}
    (loc : Located c y e k trail) : Stays c e k trail y := ⟨k, trail, loc, .stay⟩

theorem Located.store {sock : ℤ} {s t : Server} (inv : TableInv sock s) {c : Conn} {x : Shared}
    {e : Option ℕ} {k : ℕ} {trail : Bool} (loc : Located c x e k trail) {sec : Section}
    {sec' : Option Section} (hsec : x.sec = some sec) (hw : Within s x.server sec)
    (hstore : sectionStep x.server sec = some (t, sec')) (hc : c ∈ x.server.os.conns)
    (hc' : c ∈ t.os.conns) (a : Option (ℤ × SockaddrIn)) : Stays c e k trail ⟨t, sec', a⟩ := by
  obtain ⟨⟨h, os⟩, sec₀, a₀⟩ := x
  obtain rfl : sec₀ = some sec := hsec
  have hos : OsInv os := hw.osInv inv
  have hpos := hos.pos c hc
  have hcount : h.clientCount = s.h.clientCount := hw.count_eq
  have hone : 1 ≤ h.clientCount := hcount ▸ inv.isServer.count_pos
  have hle : h.clientCount ≤ commsMaxClients := hcount ▸ inv.isServer.count_le
  cases hw with
  | @drop cid x hl =>
    have hx := hl.2
    rw [sectionStep, hx] at hstore
    cases hstore
    rw [slot?_eq _ (lt_of_lt_of_le hl.range.2 hle)] at hx
    exact (loc.drop hos hl.range.2 (Option.some.inj hx) hc').stays
  | zero hl =>
    cases hstore
    exact ⟨k, false, loc.zero (lt_of_lt_of_le hl.range.2 hle) hpos, move_off k trail⟩
  | @shift cid x g i hl _ hi hi' hrest =>
    rw [sectionStep] at hstore
    dsimp only at hstore
    split at hstore
    · rename_i hlt
      rw [slot?_eq _ (show i + 1 < commsMaxClients by omega)] at hstore
      cases hstore
      exact loc.shift hi hlt hle
    · rename_i hlt
      cases hstore
      exact (loc.shifted (by omega)).stays
  | last hl _ hall =>
    cases hstore
    exact ⟨k, false, loc.last hone hle hpos, move_off k trail⟩
  | count hl _ hall =>
    cases hstore
    exact loc.count.stays
  | write hroom fresh =>
    cases hstore
    exact (loc.write hroom (fresh.2.2 c hc).symm).stays
  | grow hroom fresh =>
    cases hstore
    refine (loc.grow ?_ (fresh.2.2 c hc).symm).stays
    rw [setSlot_clientCount, slot_setSlot _ _ _ _ hroom, if_pos rfl]

theorem Located.congr {c : Conn} {x y : Shared} {e : Option ℕ} {k : ℕ} {trail : Bool}
    (loc : Located c x e k trail) (st : SameTable x.server.h y.server.h) (hj : y.junk = x.junk)
    (hu : y.inUse = x.inUse) : Located c y e k trail := by
  refine ⟨loc.pos, hu ▸ loc.lt, fun m hm hm' => ?_, hj ▸ loc.junk, hj ▸ loc.kept⟩
  rw [st.clientCount] at hm'
  rw [st.slot]
  exact loc.slot m hm hm'

/-- **One step of anyone** that leaves `c` connected. -/
theorem Located.step {sock : ℤ} {s : Server} (inv : TableInv sock s) {c : Conn} {x y : Shared}
    (hx : x.Since s) {e : Option ℕ} {k : ℕ} {trail : Bool} (loc : Located c x e k trail)
    (step : SharedStep x y) (hc : c ∈ x.server.os.conns) (hc' : c ∈ y.server.os.conns) :
    Stays c e k trail y := by
  obtain ⟨server, sec, accepted⟩ := x
  cases step with
  | answer cs cli hacc fresh => exact Located.stays (loc.congr (.refl _) rfl rfl)
  | @enter cs cli hfree hacc =>
    cases hfree
    rw [Shared.enter]
    split
    · rename_i hfull
      have st : SameTable server.h (server.accept cs cli).h := by
        rw [Server.accept, commsAccepter_full cs cli hfull]
        exact .of_setError _ _ _ _
      exact Located.stays (loc.congr st rfl st.clientCount)
    · exact Located.stays (loc.congr (.refl _) rfl rfl)
  | @disconnect h' sec' cid hfree hlock =>
    cases hfree
    cases disconnectLock_cases hlock with
    | refused hd => exact Located.stays (loc.congr (.of_setError _ _ _ _) rfl rfl)
    | leaving hl => exact Located.stays (loc.congr (.refl _) rfl rfl)
  | @store sec' t sec'' hsec hstore =>
    cases hsec
    exact loc.store inv rfl hx hstore hc hc' _

/-! ## Every run -/

/-- What is known of every state. -/
structure SharedInv (sock : ℤ) (x : Shared) : Prop where
  since : ∃ s, TableInv sock s ∧ x.Since s
  fresh : x.Fresh
  placed : ∀ c ∈ x.server.os.conns, ∃ k trail, Located c x none k trail

theorem Os.close_subset (os : Os) (fd : ℤ) : (os.close fd).conns ⊆ os.conns := by
  intro c hc
  rw [Os.close] at hc
  split at hc
  · exact hc
  · split at hc
    · exact hc
    · exact List.erase_subset hc

theorem Os.close_next (os : Os) (fd : ℤ) : (os.close fd).next = os.next := by
  rw [Os.close]
  split
  · rfl
  · split <;> rfl

theorem SharedStep.next_le {x y : Shared} (step : SharedStep x y) :
    x.server.os.next ≤ y.server.os.next := by
  cases step with
  | answer cs cli hacc fresh => exact Nat.le_refl _
  | @enter cs cli hfree hacc =>
    rcases Nat.lt_or_ge x.server.h.clientCount commsMaxClients with hroom | hfull
    · rw [Shared.enter_room cs cli hroom]
    · rw [Shared.enter_full cs cli hfull]
      dsimp only
      split
      · rw [Os.calls_shutdown, Os.calls_close, Os.calls_nil, Os.close_next]
        exact Nat.le_succ _
      · exact Nat.le_succ _
  | disconnect cid hfree hlock => exact Nat.le_refl _
  | @store k t k' hsec hstore =>
    cases sectionStep_os hstore with
    | same hleft hos => exact (congrArg Os.next hos).ge
    | close hleft fd hos => exact ((congrArg Os.next hos).trans (Os.close_next _ fd)).ge
    | accept cs cli => exact Nat.le_succ _

/-- Who comes, comes with the last store of the accepter. -/
inductive Came (x : Shared) (c : Conn) : Shared → Prop
  | before {y : Shared} (hc : c ∈ x.server.os.conns) : Came x c y
  | now {cs : ℤ} {cli : SockaddrIn} (hsec : x.sec = some (.grow cs cli))
      (hc : c = ⟨x.server.os.next, cs, cli⟩) :
      Came x c ⟨⟨{ x.server.h with clientCount := x.server.h.clientCount + 1 },
        x.server.os.accept cs cli⟩, none, none⟩

theorem SharedInv.came {sock : ℤ} {x y : Shared} (inv : SharedInv sock x) (step : SharedStep x y)
    {c : Conn} (hc : c ∈ y.server.os.conns) : Came x c y := by
  obtain ⟨s, hs, hx⟩ := inv.since
  cases step with
  | answer cs cli hacc fresh => exact .before hc
  | @enter cs cli hfree hacc =>
    rw [Shared.enter] at hc ⊢
    split at hc
    · rename_i hfull
      have hfresh := inv.fresh cs cli hacc
      rw [Shared.Since, hfree] at hx
      obtain rfl : x.server = s := hx
      rw [Server.accept, commsAccepter_full cs cli hfull, if_pos hfresh.1] at hc
      have hne := (hs.os.accept cli hfresh).ne_of_close hc
      rcases List.mem_append.mp (Os.close_subset _ _ hc) with hc | hc
      · exact .before hc
      · rw [List.mem_singleton.mp hc] at hne
        exact absurd rfl hne
    · exact .before hc
  | disconnect cid hfree hlock => exact .before hc
  | @store k t k' hsec hstore =>
    cases sectionStep_os hstore with
    | same hleft hos => exact .before (hos ▸ hc)
    | close hleft fd hos => exact .before (Os.close_subset _ fd (hos ▸ hc))
    | accept cs cli =>
      rcases List.mem_append.mp hc with hc | hc
      · exact .before hc
      · exact .now hsec (List.mem_singleton.mp hc)

/-- The last store gives the new client the slot behind all others. -/
theorem Located.arrived {sock : ℤ} {s : Server} (inv : TableInv sock s) {cs : ℤ} {cli : SockaddrIn}
    (fresh : s.os.Fresh cs) (hroom : s.h.clientCount < commsMaxClients) {g : Commh}
    (hg : g = s.h.setSlot s.h.clientCount (cs, cli)) {os : Os} {n : ℕ} :
    Located ⟨n, cs, cli⟩ ⟨⟨{ g with clientCount := g.clientCount + 1 }, os⟩, none, none⟩ none
      s.h.clientCount false := by
  subst hg
  refine ⟨inv.isServer.count_pos, Nat.lt_succ_self _, fun m hm hm' => ?_, nofun, nofun⟩
  change ((s.h.setSlot s.h.clientCount (cs, cli)).slot m).1 = cs ↔ _
  rw [slot_setSlot _ _ _ _ hroom]
  by_cases hm₀ : m = s.h.clientCount
  · rw [if_pos hm₀]
    exact iff_of_true rfl (.inl hm₀)
  · have hlt : m < s.h.clientCount + 1 := hm'.resolve_right nofun
    obtain ⟨d, hd, hentry⟩ := inv.slot_entry hm (show m < s.h.clientCount by omega)
    rw [if_neg hm₀, hentry]
    refine iff_of_false (fresh.2.2 d (List.mem_of_getElem? hd)) fun hk => ?_
    rcases hk with hk | hk
    · exact hm₀ hk
    · exact Bool.false_ne_true hk.1

theorem SharedInv.step {sock : ℤ} {x y : Shared} (inv : SharedInv sock x)
    (step : SharedStep x y) : SharedInv sock y := by
  obtain ⟨s, hs, hx⟩ := inv.since
  obtain ⟨t, hrun, hy, hfresh⟩ := hx.step inv.fresh step
  refine ⟨⟨t, Machine.reachable_invariant (fun _ _ h step => h.tableStep step) hrun hs, hy⟩,
    hfresh, fun c hc => ?_⟩
  cases inv.came step hc with
  | before hold =>
    obtain ⟨k, trail, loc⟩ := inv.placed c hold
    obtain ⟨k', trail', loc', -⟩ := loc.step hs hx step hold hc
    exact ⟨k', trail', loc'⟩
  | @now cs cli hsec hnew =>
    subst hnew
    obtain ⟨server, sec, accepted⟩ := x
    obtain rfl : sec = some (.grow cs cli) := hsec
    have hx : Within s server (.grow cs cli) := hx
    cases hx with
    | grow hroom fresh => exact ⟨_, false, Located.arrived hs fresh hroom rfl⟩

/-- **Every client has its place**, in every state that is reached store by store. -/
theorem placed {h₀ h : Commh} {opt : CommsOpt} {env : InitEnv} {calls : List OsCall}
    (hinit : commsTcpserverInitOpt h₀ opt env = some (h, calls, true)) {x : Shared}
    (hreach : Relation.ReflTransGen SharedStep ⟨Server.init h env.socket, none, none⟩ x) :
    SharedInv env.socket x :=
  Machine.reachable_invariant (fun _ _ inv step => inv.step step) hreach
    ⟨⟨_, table_inv hinit .refl, rfl⟩, nofun, nofun⟩

theorem SharedInv.osInv {sock : ℤ} {x : Shared} (inv : SharedInv sock x) : OsInv x.server.os := by
  obtain ⟨s, hs, hx⟩ := inv.since
  obtain ⟨server, sec, accepted⟩ := x
  cases sec with
  | none =>
    obtain rfl : server = s := hx
    exact hs.os
  | some k => exact Within.osInv hs hx

/-- The first slot that holds the descriptor of `c`. -/
def Standing (c : Conn) (x : Shared) (k : ℕ) : Prop :=
  IsLeast {m | 1 ≤ m ∧ m < x.server.h.clientCount ∧ (x.server.h.slot m).1 = c.fd} k

theorem Located.standing {c : Conn} {x : Shared} {e : Option ℕ} {k : ℕ} {trail : Bool}
    (loc : Located c x e k trail) : Standing c x k := by
  have hlt : k < x.server.h.clientCount := by
    have hlt := loc.lt
    rw [Shared.inUse] at hlt
    split at hlt
    · omega
    · exact hlt
  refine ⟨⟨loc.pos, hlt, (loc.slot k loc.pos (.inl hlt)).mpr (.inl rfl)⟩, ?_⟩
  rintro m ⟨hm, hm', hfd⟩
  rcases (loc.slot m hm (.inl hm')).mp hfd with hk | ⟨-, hk⟩
  · exact hk.ge
  · omega

end DataCommons.Comms
