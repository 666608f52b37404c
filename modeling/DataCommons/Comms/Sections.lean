import DataCommons.Comms.Server

/-!
# The critical sections, store by store

`g_comms_mtx` keeps the accepter and the calls of `CommsDisconnect` apart.  A thread that
does not take it, as `CommsSend`, sees what is between `lock` and `unlock`: the slot that is
cleared, the clients that move down one by one, the count that comes last.  `SharedStep` is
`TableStep` with each of these stores a step of its own; a slot's descriptor and address are
written in one.

* `commsDisconnect_eq`: `CommsDisconnect` is its tests and its stores;
* `Within.store`: what is done of a section, and what is left of it;
* `sections_atomic`: with the mutex free, there is nothing to be seen but whole calls.
-/

namespace DataCommons.Comms

open Commh

/-- Where the thread that holds `g_comms_mtx` stands: `CommsDisconnect` before `shutdown` and
`close`, before it clears the slot, in its loop, behind it, and before it counts down; the
accepter before each of its two stores. -/
inductive Section where
  | drop (cid : ℕ)
  | zero (cid : ℕ)
  | shift (i : ℕ)
  | last
  | count
  | write (cs : ℤ) (cli : SockaddrIn)
  | grow (cs : ℤ) (cli : SockaddrIn)
  deriving DecidableEq

/-- A server, who is in the critical section, and the connection that `accept` gave and the
accepter has not entered. -/
structure Shared where
  server : Server
  sec : Option Section
  accepted : Option (ℤ × SockaddrIn)

/-- The next store, and where it leaves the thread. -/
def sectionStep (s : Server) : Section → Option (Server × Option Section)
  | .drop cid =>
    match s.h.slot? cid with
    | none => none
    | some (sock, _) => some (⟨s.h, s.os.calls [.shutdown sock, .close sock]⟩, some (.zero cid))
  | .zero cid => some (⟨s.h.setSlot cid (0, .zero), s.os⟩, some (.shift cid))
  | .shift i =>
    if i < s.h.clientCount - 1 then
      match s.h.slot? (i + 1) with
      | none => none
      | some x => some (⟨s.h.setSlot i x, s.os⟩, some (.shift (i + 1)))
    else some (s, some .last)
  | .last => some (⟨s.h.setSlot (s.h.clientCount - 1) (0, .zero), s.os⟩, some .count)
  | .count => some (⟨{ s.h with clientCount := s.h.clientCount - 1 }, s.os⟩, none)
  | .write cs cli => some (⟨s.h.setSlot s.h.clientCount (cs, cli), s.os⟩, some (.grow cs cli))
  | .grow cs cli =>
    some (⟨{ s.h with clientCount := s.h.clientCount + 1 }, s.os.accept cs cli⟩, none)

/-- The tests of `CommsDisconnect`. -/
def disconnectLock (h : Commh) (cid : BitVec 16) : Option (Commh × Option Section) :=
  if !h.tcp || !h.server then some (setError h .disconnect "CommsDisconnect" 218, none)
  else if cid.toNat < 1 ∨ cid.toNat ≥ h.clientCount % 2 ^ 16 then
    some (setError h .disconnect "CommsDisconnect" 226, none)
  else
    match h.slot? cid.toNat with
    | none => none
    | some (sock, _) =>
      if sock ≤ 0 then some (setError h .disconnect "CommsDisconnect" 233, none)
      else some (h, some (.drop cid.toNat))

/-- The test of the accepter.  Behind it, it closes the connection at once, or stores it. -/
def Shared.enter (x : Shared) (cs : ℤ) (cli : SockaddrIn) : Shared :=
  if x.server.h.clientCount ≥ commsMaxClients then ⟨x.server.accept cs cli, none, none⟩
  else { x with sec := some (.write cs cli) }

/-- What the accepter holds behind a store. -/
def Section.left : Section → Option (ℤ × SockaddrIn) → Option (ℤ × SockaddrIn)
  | .grow _ _, _ => none
  | _, accepted => accepted

/-- A step of the accepter or of a `CommsDisconnect` by any thread.  The two that take the
mutex find it free. -/
inductive SharedStep : Shared → Shared → Prop
  | answer {x : Shared} (cs : ℤ) (cli : SockaddrIn) (hacc : x.accepted = none)
      (fresh : x.server.os.Fresh cs) : SharedStep x { x with accepted := some (cs, cli) }
  | enter {x : Shared} {cs : ℤ} {cli : SockaddrIn} (hfree : x.sec = none)
      (hacc : x.accepted = some (cs, cli)) : SharedStep x (x.enter cs cli)
  | disconnect {x : Shared} {h' : Commh} {k : Option Section} (cid : BitVec 16)
      (hfree : x.sec = none) (hlock : disconnectLock x.server.h cid = some (h', k)) :
      SharedStep x ⟨⟨h', x.server.os⟩, k, x.accepted⟩
  | store {x : Shared} {k : Section} {t : Server} {k' : Option Section} (hsec : x.sec = some k)
      (hstore : sectionStep x.server k = some (t, k')) :
      SharedStep x ⟨t, k', k.left x.accepted⟩

/-! ## Tests and stores -/

/-- The tests have passed for the client `x`. -/
def Leaving (h : Commh) (cid : BitVec 16) (x : ℤ × SockaddrIn) : Prop :=
  disconnectLock h cid = some (h, some (.drop cid.toNat)) ∧ h.slot? cid.toNat = some x

def shifted (h : Commh) (cid : ℕ) : Option Commh :=
  shiftDown (h.setSlot cid (0, .zero)) cid (h.clientCount - 1 - cid)

/-- And behind all stores. -/
def countedDown (h : Commh) : Commh :=
  { h.setSlot (h.clientCount - 1) (0, .zero) with clientCount := h.clientCount - 1 }

/-- What the tests can say. -/
inductive Locked (h : Commh) (cid : BitVec 16) : Commh → Option Section → Prop where
  | refused {line : ℕ}
      (hd : commsDisconnect h cid =
        some (setError h .disconnect "CommsDisconnect" line, [], false)) :
      Locked h cid (setError h .disconnect "CommsDisconnect" line) none
  | leaving {x : ℤ × SockaddrIn} (hl : Leaving h cid x) :
      Locked h cid h (some (.drop cid.toNat))

theorem Leaving.range {h : Commh} {cid : BitVec 16} {x : ℤ × SockaddrIn} (hl : Leaving h cid x) :
    1 ≤ cid.toNat ∧ cid.toNat < h.clientCount := by
  have hlock := hl.1
  rw [disconnectLock] at hlock
  split at hlock
  · simp at hlock
  · split at hlock
    · simp at hlock
    · have hmod := Nat.mod_le h.clientCount (2 ^ 16)
      omega

/-- **`CommsDisconnect` is its tests and its stores.** -/
theorem commsDisconnect_eq {h : Commh} {cid : BitVec 16} {x : ℤ × SockaddrIn}
    (hl : Leaving h cid x) :
    commsDisconnect h cid =
      (shifted h cid.toNat).map fun g => (countedDown g, [.shutdown x.1, .close x.1], true) := by
  obtain ⟨hlock, hslot⟩ := hl
  have hrefused : ∀ line, some (setError h .disconnect "CommsDisconnect" line, none) ≠
      some (h, some (Section.drop cid.toNat)) := by
    simp
  rw [disconnectLock] at hlock
  rw [commsDisconnect]
  split at hlock
  · exact absurd hlock (hrefused _)
  · rename_i hkind
    rw [if_neg hkind]
    split at hlock
    · exact absurd hlock (hrefused _)
    · rename_i hcid
      rw [if_neg hcid, hslot]
      rw [hslot] at hlock
      dsimp only at hlock ⊢
      split at hlock
      · exact absurd hlock (hrefused _)
      · rename_i hsock
        rw [if_neg hsock, setSlot_clientCount, ← shifted]
        cases shifted h cid.toNat with
        | none => rfl
        | some g => rfl

theorem disconnectLock_cases {h h' : Commh} {cid : BitVec 16} {k : Option Section}
    (hlock : disconnectLock h cid = some (h', k)) : Locked h cid h' k := by
  have hall := hlock
  rw [disconnectLock] at hlock
  split at hlock
  · rename_i hkind
    cases hlock
    exact .refused (if_pos hkind)
  · rename_i hkind
    split at hlock
    · rename_i hcid
      cases hlock
      exact .refused (by rw [commsDisconnect, if_neg hkind, if_pos hcid])
    · rename_i hcid
      cases hslot : h.slot? cid.toNat with
      | none => rw [hslot] at hlock; cases hlock
      | some x =>
        rw [hslot] at hlock
        dsimp only at hlock
        split at hlock
        · rename_i hsock
          cases hlock
          refine .refused ?_
          rw [commsDisconnect, if_neg hkind, if_neg hcid, hslot]
          exact if_pos hsock
        · cases hlock
          exact .leaving ⟨hall, hslot⟩

theorem commsDisconnect_locked {h h' : Commh} {cid : BitVec 16} {calls : List OsCall} {r : Bool}
    (hd : commsDisconnect h cid = some (h', calls, r)) :
    ∃ g k, disconnectLock h cid = some (g, k) := by
  rw [commsDisconnect] at hd
  rw [disconnectLock]
  split
  · exact ⟨_, _, rfl⟩
  · rename_i hkind
    rw [if_neg hkind] at hd
    split
    · exact ⟨_, _, rfl⟩
    · rename_i hcid
      rw [if_neg hcid] at hd
      cases hslot : h.slot? cid.toNat with
      | none => rw [hslot] at hd; cases hd
      | some x =>
        dsimp only
        split
        · exact ⟨_, _, rfl⟩
        · exact ⟨_, _, rfl⟩

/-! ## Half-done calls -/

/-- `x` in the middle of a section that began with the server `s`. -/
inductive Within (s : Server) : Server → Section → Prop where
  | drop {cid : BitVec 16} {x : ℤ × SockaddrIn} (hl : Leaving s.h cid x) :
      Within s s (.drop cid.toNat)
  | zero {cid : BitVec 16} {x : ℤ × SockaddrIn} (hl : Leaving s.h cid x) :
      Within s ⟨s.h, s.os.calls [.shutdown x.1, .close x.1]⟩ (.zero cid.toNat)
  | shift {cid : BitVec 16} {x : ℤ × SockaddrIn} {g : Commh} {i : ℕ} (hl : Leaving s.h cid x)
      (hcount : g.clientCount = s.h.clientCount) (hi : 1 ≤ i) (hi' : i < g.clientCount)
      (hrest : shiftDown g i (g.clientCount - 1 - i) = shifted s.h cid.toNat) :
      Within s ⟨g, s.os.calls [.shutdown x.1, .close x.1]⟩ (.shift i)
  | last {cid : BitVec 16} {x : ℤ × SockaddrIn} {g : Commh} (hl : Leaving s.h cid x)
      (hcount : g.clientCount = s.h.clientCount) (hall : shifted s.h cid.toNat = some g) :
      Within s ⟨g, s.os.calls [.shutdown x.1, .close x.1]⟩ .last
  | count {cid : BitVec 16} {x : ℤ × SockaddrIn} {g : Commh} (hl : Leaving s.h cid x)
      (hcount : g.clientCount = s.h.clientCount) (hall : shifted s.h cid.toNat = some g) :
      Within s ⟨g.setSlot (g.clientCount - 1) (0, .zero),
        s.os.calls [.shutdown x.1, .close x.1]⟩ .count
  | write {cs : ℤ} {cli : SockaddrIn} (hroom : s.h.clientCount < commsMaxClients)
      (fresh : s.os.Fresh cs) : Within s s (.write cs cli)
  | grow {cs : ℤ} {cli : SockaddrIn} (hroom : s.h.clientCount < commsMaxClients)
      (fresh : s.os.Fresh cs) :
      Within s ⟨s.h.setSlot s.h.clientCount (cs, cli), s.os⟩ (.grow cs cli)

/-- What a section that stands at `k` has made of `s`. -/
def Made (s t : Server) : Option Section → Prop
  | none => TableStep s t
  | some k => Within s t k

theorem Server.accept_room {s : Server} {cs : ℤ} {cli : SockaddrIn}
    (hroom : s.h.clientCount < commsMaxClients) :
    s.accept cs cli = ⟨{ s.h.setSlot s.h.clientCount (cs, cli) with
      clientCount := s.h.clientCount + 1 }, s.os.accept cs cli⟩ := by
  rw [Server.accept, commsAccepter, if_neg (not_le.mpr hroom)]
  rfl

theorem Shared.enter_full {x : Shared} (cs : ℤ) (cli : SockaddrIn)
    (hfull : commsMaxClients ≤ x.server.h.clientCount) :
    x.enter cs cli = ⟨⟨setError x.server.h .maxClients "comms_accepter" 653,
      (x.server.os.accept cs cli).calls (if cs > 0 then [.shutdown cs, .close cs] else [])⟩,
      none, none⟩ := by
  rw [Shared.enter, if_pos hfull, Server.accept, commsAccepter_full cs cli hfull]

theorem Shared.enter_room {x : Shared} (cs : ℤ) (cli : SockaddrIn)
    (hroom : x.server.h.clientCount < commsMaxClients) :
    x.enter cs cli = { x with sec := some (.write cs cli) } :=
  if_neg (not_le.mpr hroom)

theorem Within.store {s t t' : Server} {k : Section} {k' : Option Section} (hw : Within s t k)
    (hstore : sectionStep t k = some (t', k')) : Made s t' k' := by
  cases hw with
  | @drop cid x hl =>
    rw [sectionStep, hl.2] at hstore
    cases hstore
    exact .zero hl
  | zero hl =>
    cases hstore
    exact .shift hl rfl hl.range.1 hl.range.2 rfl
  | @shift cid x g i hl hcount hi hi' hrest =>
    rw [sectionStep] at hstore
    dsimp only at hstore
    split at hstore
    · rename_i hlt
      split at hstore
      · cases hstore
      · rename_i y hslot
        cases hstore
        refine .shift hl hcount (Nat.le_add_left 1 i) ?_ (Eq.trans ?_ hrest)
        · rw [setSlot_clientCount]
          omega
        · rw [show g.clientCount - 1 - i = g.clientCount - 1 - (i + 1) + 1 by omega, shiftDown,
            hslot]
          rfl
    · rename_i hlt
      cases hstore
      rw [show g.clientCount - 1 - i = 0 by omega] at hrest
      exact .last hl hcount hrest.symm
  | last hl hcount hall =>
    cases hstore
    exact .count hl hcount hall
  | @count cid x g hl hcount hall =>
    cases hstore
    refine .disconnect (r := true) cid ?_
    rw [commsDisconnect_eq hl, hall]
    rfl
  | write hroom fresh =>
    cases hstore
    exact .grow hroom fresh
  | @grow cs cli hroom fresh =>
    cases hstore
    have step := TableStep.accept cs cli fresh
    rw [Server.accept_room hroom] at step
    exact step

/-! ## Whole calls -/

/-- The server that a thread with the mutex would find, or found. -/
def Shared.Since (x : Shared) (s : Server) : Prop :=
  match x.sec with
  | none => x.server = s
  | some k => Within s x.server k

/-- What the accepter holds is still fresh. -/
def Shared.Fresh (x : Shared) : Prop :=
  ∀ cs cli, x.accepted = some (cs, cli) → x.server.os.Fresh cs

theorem Os.Fresh.close {os : Os} {cs : ℤ} (fresh : os.Fresh cs) (fd : ℤ) :
    (os.close fd).Fresh cs := by
  rw [Os.close]
  split
  · exact ⟨fresh.1, by simp, fresh.2.2⟩
  · split
    · exact fresh
    · exact ⟨fresh.1, fresh.2.1, fun c hc => fresh.2.2 c (List.erase_subset hc)⟩

/-- What a store does to the operating system. -/
inductive OsEffect (s : Server) : Section → Server → Option Section → Prop
  | same {k : Section} {t : Server} {k' : Option Section} (hleft : ∀ a, k.left a = a)
      (hos : t.os = s.os) : OsEffect s k t k'
  | close {k : Section} {t : Server} {k' : Option Section} (hleft : ∀ a, k.left a = a) (fd : ℤ)
      (hos : t.os = s.os.close fd) : OsEffect s k t k'
  | accept (cs : ℤ) (cli : SockaddrIn) :
      OsEffect s (.grow cs cli)
        ⟨{ s.h with clientCount := s.h.clientCount + 1 }, s.os.accept cs cli⟩ none

theorem sectionStep_os {s t : Server} {k : Section} {k' : Option Section}
    (hstore : sectionStep s k = some (t, k')) : OsEffect s k t k' := by
  cases k with
  | drop cid =>
    rw [sectionStep] at hstore
    split at hstore
    · cases hstore
    · cases hstore
      exact .close (fun _ => rfl) _ rfl
  | shift i =>
    rw [sectionStep] at hstore
    split at hstore
    · split at hstore
      · cases hstore
      · cases hstore
        exact .same (fun _ => rfl) rfl
    · cases hstore
      exact .same (fun _ => rfl) rfl
  | grow cs cli =>
    cases hstore
    exact .accept cs cli
  | _ =>
    cases hstore
    exact .same (fun _ => rfl) rfl

theorem Shared.Fresh.store {x : Shared} (hx : x.Fresh) {k : Section} {t : Server}
    {k' : Option Section} (hstore : sectionStep x.server k = some (t, k')) :
    Shared.Fresh ⟨t, k', k.left x.accepted⟩ := by
  intro cs cli hacc
  cases sectionStep_os hstore with
  | same hleft hos =>
    rw [hleft] at hacc
    exact hos ▸ hx cs cli hacc
  | close hleft fd hos =>
    rw [hleft] at hacc
    exact hos ▸ (hx cs cli hacc).close fd
  | accept cs' cli' => cases hacc

/-- **One step of anyone** is none of the whole calls, or one. -/
theorem Shared.Since.step {x y : Shared} {s : Server} (hs : x.Since s) (hx : x.Fresh)
    (step : SharedStep x y) :
    ∃ t, Relation.ReflTransGen TableStep s t ∧ y.Since t ∧ y.Fresh := by
  obtain ⟨server, sec, accepted⟩ := x
  cases step with
  | answer cs cli hacc fresh =>
    refine ⟨s, .refl, hs, fun cs' cli' hacc' => ?_⟩
    cases hacc'
    exact fresh
  | @enter cs cli hfree hacc =>
    cases hfree
    obtain rfl : server = s := hs
    rw [Shared.enter]
    split
    · exact ⟨_, .single (.accept cs cli (hx cs cli hacc)), rfl, nofun⟩
    · rename_i hroom
      exact ⟨server, .refl, .write (not_le.mp hroom) (hx cs cli hacc), hx⟩
  | @disconnect h' k cid hfree hlock =>
    cases hfree
    obtain rfl : server = s := hs
    cases disconnectLock_cases hlock with
    | refused hd => exact ⟨_, .single (.disconnect cid hd), rfl, hx⟩
    | leaving hl => exact ⟨server, .refl, .drop hl, hx⟩
  | @store k t k' hsec hstore =>
    cases hsec
    have hmade := Within.store hs hstore
    cases k' with
    | none => exact ⟨t, .single hmade, rfl, hx.store hstore⟩
    | some k' => exact ⟨s, .refl, hmade, hx.store hstore⟩

/-- The loop of `CommsDisconnect`, store by store. -/
theorem shift_run {g g' : Commh} {os : Os} {a : Option (ℤ × SockaddrIn)} {i n : ℕ}
    (hn : g.clientCount - 1 - i = n) (hsh : shiftDown g i n = some g') :
    Relation.ReflTransGen SharedStep ⟨⟨g, os⟩, some (.shift i), a⟩ ⟨⟨g', os⟩, some .last, a⟩ := by
  induction n generalizing g i with
  | zero =>
    cases hsh
    exact .single (.store (k := .shift i) rfl (if_neg (not_lt.mpr (Nat.le_of_sub_eq_zero hn))))
  | succ n ih =>
    rw [shiftDown] at hsh
    split at hsh
    · cases hsh
    · rename_i x hslot
      have hstore : sectionStep ⟨g, os⟩ (.shift i) =
          some (⟨g.setSlot i x, os⟩, some (.shift (i + 1))) := by
        rw [sectionStep, if_pos (show i < g.clientCount - 1 by omega), hslot]
      exact .head (.store rfl hstore) (ih (by rw [setSlot_clientCount]; omega) hsh)

/-- **A whole call is a run of stores.** -/
theorem TableStep.run {s t : Server} (step : TableStep s t) :
    Relation.ReflTransGen SharedStep ⟨s, none, none⟩ ⟨t, none, none⟩ := by
  cases step with
  | accept cs cli fresh =>
    have hanswer : SharedStep ⟨s, none, none⟩ ⟨s, none, some (cs, cli)⟩ := .answer cs cli rfl fresh
    have henter : SharedStep ⟨s, none, some (cs, cli)⟩ (Shared.enter ⟨s, none, some (cs, cli)⟩ cs cli) :=
      .enter rfl rfl
    refine .head hanswer (.head henter ?_)
    rw [Shared.enter]
    split
    · exact .refl
    · rename_i hroom
      rw [Server.accept_room (not_le.mp hroom)]
      exact .head (.store (k := .write cs cli) rfl rfl)
        (.single (.store (k := .grow cs cli) rfl rfl))
  | acceptFail errno =>
    obtain ⟨loop, hacc⟩ := commsAccepter_fail s.h errno
    rw [hacc]
    exact .refl
  | @disconnect h' calls r cid hd =>
    obtain ⟨g, k, hlock⟩ := commsDisconnect_locked hd
    have hfirst : SharedStep ⟨s, none, none⟩ ⟨⟨g, s.os⟩, k, none⟩ := .disconnect cid rfl hlock
    cases disconnectLock_cases hlock with
    | refused hd' =>
      cases hd.symm.trans hd'
      exact .single hfirst
    | @leaving x hl =>
      rw [commsDisconnect_eq hl] at hd
      cases hall : shifted s.h cid.toNat with
      | none => rw [hall] at hd; cases hd
      | some g =>
        rw [hall] at hd
        cases hd
        have hdrop : sectionStep ⟨s.h, s.os⟩ (.drop cid.toNat) =
            some (⟨s.h, s.os.calls [.shutdown x.1, .close x.1]⟩, some (.zero cid.toNat)) := by
          rw [sectionStep, hl.2]
        refine .head hfirst (.head (.store rfl hdrop) (.head (.store rfl rfl) ?_))
        exact (shift_run rfl hall).trans
          (.head (.store rfl rfl) (.single (.store (k := .count) rfl rfl)))

theorem run_of_calls {s t : Server} (hrun : Relation.ReflTransGen TableStep s t) :
    Relation.ReflTransGen SharedStep ⟨s, none, none⟩ ⟨t, none, none⟩ := by
  induction hrun with
  | refl => exact .refl
  | tail _ step ih => exact ih.trans step.run

/-- **The sections are atomic.**  Store by store, with what `accept` gives coming at any time,
the servers that are there with the mutex free are those of the runs of whole calls. -/
theorem sections_atomic (s t : Server) :
    (∃ accepted, Relation.ReflTransGen SharedStep ⟨s, none, none⟩ ⟨t, none, accepted⟩) ↔
      Relation.ReflTransGen TableStep s t := by
  constructor
  · rintro ⟨accepted, hrun⟩
    obtain ⟨t', hrun', rfl, -⟩ := Machine.reachable_simulates
      (R := fun x s => x.Since s ∧ x.Fresh)
      (fun x y s hR step => hR.1.step hR.2 step) ⟨rfl, nofun⟩ hrun
    exact hrun'
  · exact fun hrun => ⟨none, run_of_calls hrun⟩

/-! ## Errors -/

/-- `_set_error`, which takes no mutex either. -/
def Shared.withError (x : Shared) (err : CommsError) (f : String) (l : ℕ) : Shared :=
  { x with server := ⟨setError x.server.h err f l, x.server.os⟩ }

theorem sectionStep_setError {h : Commh} {os : Os} {err : CommsError} {f : String} {l : ℕ}
    {k : Section} {t : Server} {k' : Option Section}
    (hstore : sectionStep ⟨setError h err f l, os⟩ k = some (t, k')) :
    ∃ t₀, sectionStep ⟨h, os⟩ k = some (t₀, k') ∧ t = ⟨setError t₀.h err f l, t₀.os⟩ := by
  cases k with
  | drop cid =>
    rw [sectionStep] at hstore ⊢
    change (match h.slot? cid with | none => none | some (sock, _) => _) = _ at hstore
    cases hslot : h.slot? cid with
    | none => rw [hslot] at hstore; cases hstore
    | some x =>
      rw [hslot] at hstore
      cases hstore
      exact ⟨_, rfl, rfl⟩
  | shift i =>
    rw [sectionStep] at hstore ⊢
    change (if i < h.clientCount - 1 then
      match h.slot? (i + 1) with | none => none | some x => _ else _) = _ at hstore
    by_cases hi : i < h.clientCount - 1
    · rw [if_pos hi] at hstore ⊢
      cases hslot : h.slot? (i + 1) with
      | none => rw [hslot] at hstore; cases hstore
      | some x =>
        rw [hslot] at hstore
        cases hstore
        exact ⟨_, rfl, rfl⟩
    · rw [if_neg hi] at hstore ⊢
      cases hstore
      exact ⟨_, rfl, rfl⟩
  | _ =>
    cases hstore
    exact ⟨_, rfl, rfl⟩

theorem disconnectLock_setError {h h' : Commh} {err : CommsError} {f : String} {l : ℕ}
    {cid : BitVec 16} {k : Option Section}
    (hlock : disconnectLock (setError h err f l) cid = some (h', k)) :
    ∃ g err' f' l', disconnectLock h cid = some (g, k) ∧ h' = setError g err' f' l' := by
  rw [disconnectLock] at hlock ⊢
  change (if !h.tcp || !h.server then _ else
    if cid.toNat < 1 ∨ cid.toNat ≥ h.clientCount % 2 ^ 16 then _ else
      match h.slot? cid.toNat with | none => none | some (sock, _) => _) = _ at hlock
  split at hlock
  · rename_i hkind
    cases hlock
    exact ⟨_, _, _, _, if_pos hkind, rfl⟩
  · rename_i hkind
    rw [if_neg hkind]
    split at hlock
    · rename_i hcid
      cases hlock
      exact ⟨_, _, _, _, if_pos hcid, rfl⟩
    · rename_i hcid
      rw [if_neg hcid]
      cases hslot : h.slot? cid.toNat with
      | none => rw [hslot] at hlock; cases hlock
      | some x =>
        rw [hslot] at hlock
        dsimp only at hlock ⊢
        split at hlock
        · rename_i hsock
          cases hlock
          exact ⟨_, _, _, _, if_pos hsock, rfl⟩
        · rename_i hsock
          cases hlock
          exact ⟨_, _, _, _, if_neg hsock, rfl⟩

/-- An error that was stored meanwhile keeps nobody from a step. -/
theorem SharedStep.of_error {x y : Shared} {err : CommsError} {f : String} {l : ℕ}
    (step : SharedStep (x.withError err f l) y) :
    ∃ y₀ err' f' l', SharedStep x y₀ ∧ y = y₀.withError err' f' l' := by
  obtain ⟨⟨h, os⟩, sec, accepted⟩ := x
  cases step with
  | answer cs cli hacc fresh => exact ⟨_, err, f, l, .answer cs cli hacc fresh, rfl⟩
  | @enter cs cli hfree hacc =>
    have step : SharedStep ⟨⟨h, os⟩, sec, accepted⟩
      (Shared.enter ⟨⟨h, os⟩, sec, accepted⟩ cs cli) := .enter hfree hacc
    by_cases hfull : commsMaxClients ≤ h.clientCount
    · refine ⟨_, .maxClients, "comms_accepter", 653, step, ?_⟩
      exact (Shared.enter_full cs cli hfull).trans
        (congrArg (Shared.withError · .maxClients "comms_accepter" 653)
          (Shared.enter_full cs cli hfull).symm)
    · have hroom : h.clientCount < commsMaxClients := not_le.mp hfull
      rw [Shared.enter_room (x := ⟨⟨h, os⟩, sec, accepted⟩) cs cli hroom] at step
      exact ⟨_, err, f, l, step, Shared.enter_room cs cli hroom⟩
  | @disconnect h' k cid hfree hlock =>
    obtain ⟨g, err', f', l', hlock₀, rfl⟩ := disconnectLock_setError hlock
    exact ⟨_, err', f', l', .disconnect cid hfree hlock₀, rfl⟩
  | @store k t k' hsec hstore =>
    obtain ⟨t₀, hstore₀, rfl⟩ := sectionStep_setError hstore
    exact ⟨_, err, f, l, .store hsec hstore₀, rfl⟩

end DataCommons.Comms
