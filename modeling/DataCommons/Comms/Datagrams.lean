import Mathlib.Logic.Function.Basic
import DataCommons.Comms.Delivery
import DataCommons.Comms.Udp
import DataCommons.Lib.Datagrams

/-!
# From `CommsSend` to the callback, over UDP

Any number of UDP handles, their users, their listeners and a network that may lose,
copy and reorder what is sent.

* `UdpNet.Step.inv`: every step keeps the books;
* `udp_delivery`: what a callback gets is what a handle was told to send to it.
-/

namespace DataCommons.Comms

open Commh Datagrams

/-! ## comms__listener, the UDP branch -/

/-- Where the listener stands: before the locked section, and with the descriptor. -/
inductive UdpPhase where
  | top
  | holding (fd : ℤ)
  deriving DecidableEq

/-- The locked section; the branch without a descriptor sleeps and goes round. -/
def udpListenerRead (h : Commh) : Option UdpPhase :=
  match h.slot? 0 with
  | none => none
  | some (fd, _) => some (if fd ≤ 0 then .top else .holding fd)

/-- What `recvfrom` answered: the bytes and where they come from. -/
inductive RecvfromResult where
  | data (msg : List UInt8) (src : SockaddrIn)
  | fail (errno : Errno)

/-- What the listener does with the answer of `recvfrom`.  Its branches for the errors
differ in what they log and whether they sleep. -/
def udpListenerRecvfrom (h : Commh) : RecvfromResult → UdpPhase × Option Delivery
  | .data msg src =>
    if msg ≠ [] then (.top, if h.recvcb then some ⟨msg, src, 0⟩ else none) else (.top, none)
  | .fail errno =>
    if errno = .EAGAIN ∨ errno = .EWOULDBLOCK then (.top, none)
    else if errno = .EINTR then (.top, none)
    else (.top, none)

/-! ## Handles and a network -/

/-- A datagram, with the address of its socket. -/
structure Datagram where
  src : SockaddrIn
  dest : SockaddrIn
  msg : List UInt8
  deriving DecidableEq

/-- A call of `CommsSend`: who made it, with which message, whether it found the address
kept, what it meant, where `sendto` sent it if it was reached, whether the operating
system took it, and what was returned. -/
structure UdpSend (ι : Type) where
  who : ι
  msg : List UInt8
  kept : Prop
  meant : Option (BitVec 32 × BitVec 16)
  dest : Option SockaddrIn
  accepted : Bool
  returned : Bool

/-- A datagram that a listener took, and the call of the callback. -/
structure Arrival (ι : Type) where
  who : ι
  datagram : Datagram
  delivery : Option Delivery

/-- The handles, where their listeners stand, the network, and all that was sent and
taken. -/
structure UdpNet (ι : Type) where
  ends : ι → UdpSt
  phase : ι → UdpPhase
  net : Network Datagram
  sends : List (UdpSend ι)
  arrivals : List (Arrival ι)

def destOf : List OsCall → Option SockaddrIn
  | [.sendto _ _ dest] => some dest
  | _ => none

/-- The datagram that a call of `CommsSend` leaves in the network. -/
def UdpSend.datagram {ι : Type} (addr : ι → SockaddrIn) (s : UdpSend ι) : Option Datagram :=
  if s.accepted then s.dest.map fun dest => ⟨addr s.who, dest, s.msg⟩ else none

/-- The network has the address of a socket. -/
def Datagram.reaches (d : Datagram) (a : SockaddrIn) : Prop :=
  d.dest.sinPort = a.sinPort ∧ d.dest.sinAddr = a.sinAddr

namespace UdpNet

variable {ι : Type} [DecidableEq ι]

def init (h : ι → Commh) : UdpNet ι where
  ends := fun i => UdpSt.init (h i)
  phase := fun _ => .top
  net := .empty
  sends := []
  arrivals := []

def setEnd (w : UdpNet ι) (i : ι) (s : UdpSt) : UdpNet ι :=
  { w with ends := Function.update w.ends i s }

def setPhase (w : UdpNet ι) (i : ι) (p : UdpPhase) : UdpNet ι :=
  { w with phase := Function.update w.phase i p }

/-- A call of `CommsSend`; the network has what the operating system took. -/
def posts (w : UdpNet ι) (addr : ι → SockaddrIn) (s : UdpSend ι) : UdpNet ι :=
  { w with
    net := ((s.datagram addr).map w.net.post).getD w.net
    sends := w.sends ++ [s] }

def takes (w : UdpNet ι) (a : Arrival ι) : UdpNet ι :=
  { w with net := w.net.take a.datagram, arrivals := w.arrivals ++ [a] }

@[simp] theorem setEnd_self (w : UdpNet ι) (i : ι) (s : UdpSt) : (w.setEnd i s).ends i = s :=
  Function.update_self ..

@[simp] theorem setEnd_of_ne {i j : ι} (hj : j ≠ i) (w : UdpNet ι) (s : UdpSt) :
    (w.setEnd i s).ends j = w.ends j := Function.update_of_ne hj ..

@[simp] theorem setPhase_self (w : UdpNet ι) (i : ι) (p : UdpPhase) : (w.setPhase i p).phase i = p :=
  Function.update_self ..

@[simp] theorem setPhase_of_ne {i j : ι} (hj : j ≠ i) (w : UdpNet ι) (p : UdpPhase) :
    (w.setPhase i p).phase j = w.phase j := Function.update_of_ne hj ..

/-- What `sendto` returns: how much it took, which is all, or -1. -/
def sendtoReturns (msg : List UInt8) (accepted : Bool) : ℕ → ℤ :=
  fun _ => if accepted then msg.length else -1

def record (w : UdpNet ι) (i : ι) (msg : List UInt8) (opt : CommsSendOpt) (accepted : Bool)
    (calls : List OsCall) (r : Bool) : UdpSend ι where
  who := i
  msg := msg
  kept := AddressKept (w.ends i) (.send msg opt (sendtoReturns msg accepted))
  meant := (w.ends i).known.target opt
  dest := destOf calls
  accepted := accepted
  returned := r

/-- A step of a user, of a listener or of the network. -/
inductive Step (addr : ι → SockaddrIn) : UdpNet ι → UdpNet ι → Prop
  | connect {w : UdpNet ι} {s : UdpSt} {calls : List OsCall} {r : Bool} (i : ι)
      (ip : Option (BitVec 32)) (port : BitVec 16) (ret : ℤ)
      (hcall : udpStep (w.ends i) (.connect ip port ret) = some (s, calls, r)) :
      Step addr w (w.setEnd i s)
  | send {w : UdpNet ι} {s : UdpSt} {calls : List OsCall} {r : Bool} (i : ι) (msg : List UInt8)
      (opt : CommsSendOpt) (accepted : Bool)
      (hcall : udpStep (w.ends i) (.send msg opt (sendtoReturns msg accepted))
        = some (s, calls, r)) :
      Step addr w ((w.setEnd i s).posts addr (w.record i msg opt accepted calls r))
  | network {w : UdpNet ι} {net : Network Datagram} (hloose : Network.Loose w.net net) :
      Step addr w { w with net := net }
  | read {w : UdpNet ι} {p : UdpPhase} (i : ι) (hp : w.phase i = .top)
      (hr : (w.ends i).h.running = true) (hread : udpListenerRead (w.ends i).h = some p) :
      Step addr w (w.setPhase i p)
  | recvfrom {w : UdpNet ι} {fd : ℤ} {d : Datagram} {p : UdpPhase} {got : Option Delivery} (i : ι)
      (hp : w.phase i = .holding fd) (hd : d ∈ w.net.flying) (hdest : d.reaches (addr i))
      -- what does not fit into `msg` is cut off
      (hgot : udpListenerRecvfrom (w.ends i).h (.data (d.msg.take recvSize) d.src) = (p, got)) :
      Step addr w ((w.setPhase i p).takes ⟨i, d, got⟩)
  | recvfromFails {w : UdpNet ι} {fd : ℤ} (i : ι) (hp : w.phase i = .holding fd) (errno : Errno) :
      Step addr w (w.setPhase i (udpListenerRecvfrom (w.ends i).h (.fail errno)).1)

end UdpNet

/-! ## One call -/

/-- A UDP handle whose listener runs if it has a callback. -/
structure IsUdp (h : Commh) : Prop where
  tcp : h.tcp = false
  running : h.running = h.recvcb

theorem isUdp_init {h₀ h : Commh} {opt : CommsOpt} {env : InitEnv} {calls : List OsCall}
    (hinit : commsUdpInitOpt h₀ opt env = (h, calls, true)) : IsUdp h := by
  refine ⟨(commsUdpInitOpt_kind hinit).1, ?_⟩
  cases commsUdpInitOpt_cases hinit with
  | starts hsocket hstart =>
    cases startListener_cases hstart with
    | off hrun => rfl
    | thread hrun => rfl

theorem commsConnectOpt_threads {h h' : Commh} {ip : Option (BitVec 32)} {port : BitVec 16} {ret : ℤ}
    {r : Bool} (hc : commsConnectOpt h ip port ret = some (h', r)) : SameThreads h h' := by
  cases ip with
  | none =>
    rw [commsConnectOpt] at hc
    split at hc
    · cases hc
      exact ⟨rfl, rfl, rfl, rfl⟩
    · cases hc
  | some ip =>
    obtain ⟨line, rfl⟩ | ⟨addresses, count, rfl⟩ := commsConnect_cases hc
    · exact ⟨rfl, rfl, rfl, rfl⟩
    · exact ⟨rfl, rfl, rfl, rfl⟩

/-- **A UDP send** sends nothing and says so, or makes one call of `sendto` and says whether
that took a byte. -/
theorem commsSendOpt_udp_cases {h h' : Commh} {msg : List UInt8} {opt : CommsSendOpt} {ret : ℕ → ℤ}
    {calls : List OsCall} {r : Bool} (hudp : h.tcp = false)
    (hsend : commsSendOpt h msg opt ret = some (h', calls, r)) :
    SameThreads h h' ∧ ((destOf calls = none ∧ r = false) ∨
      ∃ dest, destOf calls = some dest ∧ (r = true ↔ 0 < ret 0)) := by
  rw [commsSendOpt, if_neg (by simp [hudp])] at hsend
  split at hsend
  · cases hsend
    exact ⟨⟨rfl, rfl, rfl, rfl⟩, Or.inl ⟨rfl, rfl⟩⟩
  · rw [h.slot?_eq (by decide)] at hsend
    dsimp only at hsend
    split at hsend
    · rename_i hfail
      cases hsend
      exact ⟨⟨rfl, rfl, rfl, rfl⟩, Or.inr ⟨_, rfl, by simpa using hfail⟩⟩
    · rename_i hsent
      cases hsend
      exact ⟨⟨rfl, rfl, rfl, rfl⟩, Or.inr ⟨_, rfl, by simpa using hsent⟩⟩

theorem udpStep_threads {s t : UdpSt} {call : UdpCall} {calls : List OsCall} {r : Bool}
    (hudp : s.h.tcp = false) (hcall : udpStep s call = some (t, calls, r)) : SameThreads s.h t.h := by
  cases call with
  | connect ip port ret =>
    rw [udpStep] at hcall
    cases hconn : commsConnectOpt s.h ip port ret with
    | none =>
      rw [hconn] at hcall
      cases hcall
    | some res =>
      rw [hconn] at hcall
      cases hcall
      exact commsConnectOpt_threads hconn
  | send msg opt ret =>
    rw [udpStep] at hcall
    cases hsend : commsSendOpt s.h msg opt ret with
    | none =>
      rw [hsend] at hcall
      cases hcall
    | some res =>
      rw [hsend] at hcall
      cases hcall
      exact (commsSendOpt_udp_cases hudp hsend).1

theorem IsUdp.step {s t : UdpSt} {call : UdpCall} {calls : List OsCall} {r : Bool}
    (hu : IsUdp s.h) (hcall : udpStep s call = some (t, calls, r)) : IsUdp t.h := by
  have hth := udpStep_threads hu.tcp hcall
  exact ⟨udpStep_tcp hu.tcp hcall, hth.running.trans (hu.running.trans hth.recvcb.symm)⟩

/-- A send that goes where it belongs goes where it was meant to. -/
theorem meant_of_addressed {s : UdpSt} {h' : Commh} {msg : List UInt8} {opt : CommsSendOpt}
    {ret : ℕ → ℤ} {calls : List OsCall} {r : Bool} (haddr : Addressed s (.send msg opt ret))
    (hsend : commsSendOpt s.h msg opt ret = some (h', calls, r)) :
    s.known.target opt = (destOf calls).map fun a => (a.sinAddr, a.sinPort) := by
  rw [Addressed] at haddr
  cases htarget : s.known.target opt with
  | none =>
    rw [htarget] at haddr
    obtain ⟨h'', hno, -⟩ := haddr
    cases hsend.symm.trans hno
    rfl
  | some remote =>
    rw [htarget] at haddr
    obtain ⟨h'', r', hsent⟩ := haddr
    cases hsend.symm.trans hsent
    rfl

/-! ## The books -/

/-- The record of a call of `CommsSend` tells the truth. -/
structure SentRight {ι : Type} (s : UdpSend ι) : Prop where
  returned : s.returned = true ↔ s.accepted = true ∧ s.dest.isSome ∧ s.msg ≠ []
  meant : s.kept → s.meant = s.dest.map fun a => (a.sinAddr, a.sinPort)

/-- What a listener took was for its handle, and the callback got it. -/
structure ArrivedRight {ι : Type} (addr : ι → SockaddrIn) (a : Arrival ι) : Prop where
  reaches : a.datagram.reaches (addr a.who)
  delivery : a.delivery = if a.datagram.msg = [] then none
    else some ⟨a.datagram.msg.take recvSize, a.datagram.src, 0⟩

structure UdpInv {ι : Type} (addr : ι → SockaddrIn) (w : UdpNet ι) : Prop where
  isUdp : ∀ i, IsUdp (w.ends i).h
  holding : ∀ i fd, w.phase i = .holding fd → (w.ends i).h.running = true
  balanced : w.net.Balanced
  posted : w.net.posted = w.sends.filterMap (·.datagram addr)
  taken : w.net.taken = w.arrivals.map (·.datagram)
  sends : ∀ s ∈ w.sends, SentRight s
  arrivals : ∀ a ∈ w.arrivals, ArrivedRight addr a

theorem udpInv_init {ι : Type} (addr : ι → SockaddrIn) {h : ι → Commh} (hu : ∀ i, IsUdp (h i)) :
    UdpInv addr (UdpNet.init h) where
  isUdp := hu
  holding := fun i fd hp => by cases hp
  balanced := Network.balanced_empty
  posted := rfl
  taken := rfl
  sends := fun s hs => by cases hs
  arrivals := fun a ha => by cases ha

section Step

variable {ι : Type} {addr : ι → SockaddrIn} {w w' : UdpNet ι}

theorem udpListenerRecvfrom_data {h : Commh} (hu : IsUdp h) (hrun : h.running = true)
    (msg : List UInt8) (src : SockaddrIn) :
    udpListenerRecvfrom h (.data (msg.take recvSize) src) =
      (.top, if msg = [] then none else some ⟨msg.take recvSize, src, 0⟩) := by
  have hcb : h.recvcb = true := hu.running ▸ hrun
  have htake : msg.take recvSize = [] ↔ msg = [] := by
    rw [List.take_eq_nil_iff, recvSize]
    simp
  rw [udpListenerRecvfrom, hcb, if_pos rfl]
  by_cases hmsg : msg = []
  · rw [if_neg (not_not.mpr (htake.mpr hmsg)), if_pos hmsg]
  · rw [if_pos (mt htake.mp hmsg), if_neg hmsg]

theorem UdpInv.posts (inv : UdpInv addr w) {s : UdpSend ι} (hs : SentRight s) :
    UdpInv addr (w.posts addr s) where
  isUdp := inv.isUdp
  holding := inv.holding
  balanced := by
    unfold UdpNet.posts
    cases s.datagram addr with
    | none => exact inv.balanced
    | some d => exact inv.balanced.post d
  posted := by
    unfold UdpNet.posts
    rw [List.filterMap_append, ← inv.posted]
    cases hd : s.datagram addr with
    | none => simp [hd]
    | some d => simp [hd, Network.post]
  taken := by
    unfold UdpNet.posts
    rw [← inv.taken]
    cases s.datagram addr with
    | none => rfl
    | some d => rfl
  sends := by
    intro s' hs'
    rcases List.mem_append.mp hs' with hs' | hs'
    · exact inv.sends s' hs'
    · rw [List.mem_singleton.mp hs']
      exact hs
  arrivals := inv.arrivals

theorem UdpInv.takes (inv : UdpInv addr w) {a : Arrival ι} (hfly : a.datagram ∈ w.net.flying)
    (ha : ArrivedRight addr a) : UdpInv addr (w.takes a) where
  isUdp := inv.isUdp
  holding := inv.holding
  balanced := inv.balanced.take hfly
  posted := inv.posted
  taken := by
    rw [UdpNet.takes, Network.take, inv.taken, List.map_append]
    rfl
  sends := inv.sends
  arrivals := by
    intro a' ha'
    rcases List.mem_append.mp ha' with ha' | ha'
    · exact inv.arrivals a' ha'
    · rw [List.mem_singleton.mp ha']
      exact ha

theorem sentRight_record {i : ι} (hu : IsUdp (w.ends i).h) {s : UdpSt} {calls : List OsCall}
    {r : Bool} {msg : List UInt8} {opt : CommsSendOpt} {accepted : Bool}
    (hcall : udpStep (w.ends i) (.send msg opt (UdpNet.sendtoReturns msg accepted))
      = some (s, calls, r)) : SentRight (w.record i msg opt accepted calls r) := by
  rw [udpStep] at hcall
  cases hsend : commsSendOpt (w.ends i).h msg opt (UdpNet.sendtoReturns msg accepted) with
  | none =>
    rw [hsend] at hcall
    cases hcall
  | some res =>
    rw [hsend] at hcall
    cases hcall
    refine ⟨?_, fun hkept =>
      meant_of_addressed ((send_addressed_iff hu.tcp _).mpr hkept) hsend⟩
    obtain ⟨hnone, hr⟩ | ⟨dest, hsome, hr⟩ := (commsSendOpt_udp_cases hu.tcp hsend).2
    · simp [UdpNet.record, hnone, hr]
    · simp only [UdpNet.record, hsome, hr, UdpNet.sendtoReturns]
      cases accepted with
      | true => simp [List.length_pos_iff]
      | false => simp

variable [DecidableEq ι]

/-- A call on one handle leaves the listeners where they are. -/
theorem UdpInv.setEnd (inv : UdpInv addr w) {i : ι} {s : UdpSt} (hu : IsUdp s.h)
    (hrun : s.h.running = (w.ends i).h.running) : UdpInv addr (w.setEnd i s) := by
  refine { inv with isUdp := fun j => ?_, holding := fun j fd hj => ?_ }
  · by_cases hji : j = i
    · subst hji
      rw [UdpNet.setEnd_self]
      exact hu
    · rw [UdpNet.setEnd_of_ne hji]
      exact inv.isUdp j
  · have hbefore := inv.holding j fd hj
    by_cases hji : j = i
    · subst hji
      rw [UdpNet.setEnd_self]
      exact hrun.trans hbefore
    · rw [UdpNet.setEnd_of_ne hji]
      exact hbefore

theorem UdpInv.setPhase (inv : UdpInv addr w) {i : ι} {p : UdpPhase}
    (hp : ∀ fd, p = .holding fd → (w.ends i).h.running = true) : UdpInv addr (w.setPhase i p) := by
  refine { inv with holding := fun j fd hj => ?_ }
  by_cases hji : j = i
  · subst hji
    exact hp fd ((UdpNet.setPhase_self w j p).symm.trans hj)
  · exact inv.holding j fd ((UdpNet.setPhase_of_ne hji w p).symm.trans hj)

/-- **Every step keeps the books.** -/
theorem UdpNet.Step.inv (step : UdpNet.Step addr w w') (inv : UdpInv addr w) : UdpInv addr w' := by
  cases step with
  | connect i ip port ret hcall =>
    have hu := inv.isUdp i
    exact inv.setEnd (hu.step hcall) (udpStep_threads hu.tcp hcall).running
  | send i msg opt accepted hcall =>
    have hu := inv.isUdp i
    have hend := inv.setEnd (hu.step hcall) (udpStep_threads hu.tcp hcall).running
    exact hend.posts (sentRight_record hu hcall)
  | network hloose =>
    exact { inv with
      balanced := inv.balanced.loose hloose
      posted := hloose.posted.trans inv.posted
      taken := hloose.taken.trans inv.taken }
  | read i hp hr hread => exact inv.setPhase fun fd _ => hr
  | recvfrom i hp hd hdest hgot =>
    have hrun := inv.holding i _ hp
    rw [udpListenerRecvfrom_data (inv.isUdp i) hrun] at hgot
    cases hgot
    exact (inv.setPhase fun fd _ => hrun).takes hd ⟨hdest, rfl⟩
  | recvfromFails i hp errno => exact inv.setPhase fun fd _ => inv.holding i _ hp

end Step

/-! ## Whole runs -/

/-- What a listener took comes from this call of `CommsSend`, which was for its handle. -/
structure Delivers {ι : Type} (addr : ι → SockaddrIn) (s : UdpSend ι) (a : Arrival ι) : Prop where
  accepted : s.accepted = true
  sent : ∃ dest, s.dest = some dest ∧ a.datagram = ⟨addr s.who, dest, s.msg⟩ ∧
    dest.sinPort = (addr a.who).sinPort ∧ dest.sinAddr = (addr a.who).sinAddr
  meant : s.kept → s.meant = some ((addr a.who).sinAddr, (addr a.who).sinPort)
  delivery : a.delivery = if s.msg = [] then none
    else some ⟨s.msg.take recvSize, addr s.who, 0⟩

theorem UdpInv.delivers {ι : Type} {addr : ι → SockaddrIn} {w : UdpNet ι} (inv : UdpInv addr w)
    {a : Arrival ι} (ha : a ∈ w.arrivals) : ∃ s ∈ w.sends, Delivers addr s a := by
  have htaken : a.datagram ∈ w.net.taken := inv.taken ▸ List.mem_map.mpr ⟨a, ha, rfl⟩
  have hposted := inv.balanced.posted_of_taken htaken
  rw [inv.posted] at hposted
  obtain ⟨s, hs, hd⟩ := List.mem_filterMap.mp hposted
  rw [UdpSend.datagram] at hd
  split at hd
  · rename_i hacc
    obtain ⟨dest, hdest, hd⟩ := Option.map_eq_some_iff.mp hd
    obtain ⟨⟨hport, hip⟩, hdel⟩ := inv.arrivals a ha
    rw [← hd] at hport hip hdel
    refine ⟨s, hs, hacc, ⟨dest, hdest, hd.symm, hport, hip⟩, fun hkept => ?_, hdel⟩
    rw [(inv.sends s hs).meant hkept, hdest, ← hip, ← hport]
    rfl
  · cases hd

/-- **From `CommsSend` to the callback, over UDP.**  In every run, whatever the network
loses, copies and reorders: each callback gets the first 2048 bytes of one message that a
`CommsSend` sent to its handle, and the address of the sender, and that call meant this
handle if it found the address kept; `CommsSend` returns `true` exactly if the operating
system took the datagram and the message is not empty; and no datagram is taken more often
than it was sent and copied, and each as often as it was sent, once nothing is in flight,
if the network copies and loses nothing. -/
theorem udp_delivery {ι : Type} [DecidableEq ι] (addr : ι → SockaddrIn) {h : ι → Commh}
    (hinit : ∀ i, ∃ h₀ opt env calls, commsUdpInitOpt h₀ opt env = (h i, calls, true))
    {w : UdpNet ι} (hreach : Relation.ReflTransGen (UdpNet.Step addr) (UdpNet.init h) w) :
    (∀ a ∈ w.arrivals, ∃ s ∈ w.sends, Delivers addr s a) ∧
    (∀ s ∈ w.sends, s.returned = true ↔ s.accepted = true ∧ s.dest.isSome ∧ s.msg ≠ []) ∧
    (∀ d, (w.arrivals.map (·.datagram)).count d ≤
      (w.sends.filterMap (·.datagram addr)).count d + w.net.copied.count d) ∧
    (w.net.flying = [] → w.net.copied = [] → w.net.lost = [] →
      (w.arrivals.map (·.datagram)).Perm (w.sends.filterMap (·.datagram addr))) := by
  have hu : ∀ i, IsUdp (h i) := by
    intro i
    obtain ⟨h₀, opt, env, calls, hi⟩ := hinit i
    exact isUdp_init hi
  have inv : UdpInv addr w :=
    Machine.reachable_invariant (fun _ _ inv step => step.inv inv) hreach (udpInv_init addr hu)
  rw [← inv.taken, ← inv.posted]
  exact ⟨fun a ha => inv.delivers ha, fun s hs => (inv.sends s hs).returned,
    inv.balanced.count_taken_le, inv.balanced.taken_perm⟩

def twoAddrs (second : Bool) : SockaddrIn := ⟨afInet, 5000, if second then 2 else 1⟩

def connectedUdp : UdpSt := ((udpStep (UdpSt.init newUdp) (.connect (some 2) 5000 0)).get rfl).1

theorem connectedUdp_sends : ∃ t r, udpStep connectedUdp
    (.send [7] ⟨none, 0, 0⟩ (UdpNet.sendtoReturns [7] true))
      = some (t, [.sendto (connectedUdp.h.slot 0).1 [7] ⟨afInet, 5000, 2⟩], r) := by
  obtain ⟨h', r, hsend⟩ := @commsSendOpt_udp_sends connectedUdp.h [7] ⟨none, 0, 0⟩
    (UdpNet.sendtoReturns [7] true) rfl (by decide +kernel)
  have hdest : ({ udpRemote connectedUdp.h ⟨none, 0, 0⟩ (connectedUdp.h.slot 0).2 with
      sinFamily := afInet } : SockaddrIn) = ⟨afInet, 5000, 2⟩ := by decide +kernel
  rw [hdest] at hsend
  exact ⟨_, r, by rw [udpStep, hsend]⟩

theorem newUdp_read : udpListenerRead newUdp = some (.holding (newUdp.slot 0).1) := by
  have hsock : ¬ (newUdp.slot 0).1 ≤ 0 := by decide +kernel
  rw [udpListenerRead, newUdp.slot?_eq (by decide)]
  exact congrArg some (if_neg hsock)

/-- The first connects to the second and sends it a byte. -/
theorem udp_delivery_two :
    ∃ w : UdpNet Bool, w.arrivals.map (·.delivery) = [some ⟨[7], twoAddrs false, 0⟩] ∧
      ∀ a ∈ w.arrivals, ∃ s ∈ w.sends, Delivers twoAddrs s a := by
  obtain ⟨t, r, hsend⟩ := connectedUdp_sends
  have hconnect := @UdpNet.Step.connect _ _ twoAddrs (UdpNet.init fun _ => newUdp) connectedUdp []
    true false (some 2) 5000 0 rfl
  have hsent := @UdpNet.Step.send _ _ twoAddrs ((UdpNet.init fun _ => newUdp).setEnd false
    connectedUdp) _ _ _ false [7] ⟨none, 0, 0⟩ true hsend
  refine ⟨_, ?_, (udp_delivery twoAddrs
    (fun _ => ⟨.zero, defaultOpt, okEnv, [.socket 3, .create 1], rfl⟩)
    (.tail (.tail (.tail (.tail .refl hconnect) hsent) (.read true rfl rfl newUdp_read))
      (.recvfrom true rfl List.mem_cons_self ⟨rfl, rfl⟩ rfl))).1⟩
  rfl

end DataCommons.Comms
