import DataCommons.Comms.Table
import DataCommons.Comms.Server
import DataCommons.Lib.Machine

/-!
# Where a datagram goes

A UDP handle remembers a remote address in slot 0.  Beside it, each run keeps what the
successful calls have set so far, which is what a send may leave out.

* `commsSendOpt_udp_refuse`, `commsSendOpt_udp_sends`: what one `CommsSend` does;
* `send_addressed_iff`: when it goes where it should, in every state;
* `LogInv.step`: what stands in slot 0, told by the calls so far and what they returned;
* `sends_addressed_iff`: so the calls before a send decide along every run whether it goes
  where it should.
-/

namespace DataCommons.Comms

/-! ## Runs of a UDP handle -/

/-- The ip and the port that successful calls have set last. -/
structure Known where
  ip : Option (BitVec 32)
  port : Option (BitVec 16)
  deriving DecidableEq, Repr

/-- The port of an option, which is left out as 0. -/
def givenPort (port : BitVec 16) : Option (BitVec 16) := if port = 0 then none else some port

namespace Known

/-- A call with these options has returned `r`. -/
def after (k : Known) (ip : Option (BitVec 32)) (port : BitVec 16) (r : Bool) : Known :=
  if r then ⟨ip <|> k.ip, givenPort port <|> k.port⟩ else k

/-- Where a send with these options belongs. -/
def target (k : Known) (opt : CommsSendOpt) : Option (BitVec 32 × BitVec 16) :=
  match opt.ip <|> k.ip, givenPort opt.port <|> k.port with
  | some ip, some port => some (ip, port)
  | _, _ => none

end Known

/-- `CommsConnect` with or without an address; `inet_addr` of a null pointer is
undefined. -/
def commsConnectOpt (h : Commh) (ip : Option (BitVec 32)) (port : BitVec 16) (ret : ℤ) :
    Option (Commh × Bool) :=
  match ip with
  | some ip => commsConnect h ip port ret
  | none => if h.server then some (setError h .connect "CommsConnect" 312, false) else none

structure UdpSt where
  h : Commh
  known : Known

inductive UdpCall where
  | connect (ip : Option (BitVec 32)) (port : BitVec 16) (ret : ℤ)
  | send (msg : List UInt8) (opt : CommsSendOpt) (ret : ℕ → ℤ)

/-- One call: the system calls it makes and what it returns. -/
def udpStep (s : UdpSt) : UdpCall → Option (UdpSt × List OsCall × Bool)
  | .connect ip port ret =>
    match commsConnectOpt s.h ip port ret with
    | none => none
    | some (h, r) => some (⟨h, s.known.after ip port r⟩, [], r)
  | .send msg opt ret =>
    match commsSendOpt s.h msg opt ret with
    | none => none
    | some (h, calls, r) => some (⟨h, s.known.after opt.ip opt.port r⟩, calls, r)

def UdpSt.init (h : Commh) : UdpSt := ⟨h, ⟨none, none⟩⟩

/-- A send sends one datagram, to where it belongs; if that is not known, it says so and
sends nothing. -/
def Addressed (s : UdpSt) : UdpCall → Prop
  | .connect _ _ _ => True
  | .send msg opt ret =>
    match s.known.target opt with
    | some (ip, port) => ∃ h' r, commsSendOpt s.h msg opt ret
        = some (h', [.sendto (s.h.slot 0).1 msg ⟨afInet, port, ip⟩], r)
    | none => ∃ h', commsSendOpt s.h msg opt ret = some (h', [], false) ∧
        h'.errType = .noRemoteProvided

/-- What a send has to find.  While `client_count` is 0, both options, or not even an
earlier call has one that is missing; from then on, the address in slot 0 is the one
where it belongs, but for what the code takes from the options. -/
def AddressKept (s : UdpSt) : UdpCall → Prop
  | .connect _ _ _ => True
  | .send _ opt _ =>
    if s.h.clientCount = 0 then
      opt.ip ≠ none ∧ opt.port ≠ 0 ∨ s.known.target opt = none
    else
      (opt.ip = none ∨ opt.port ≠ 0 → (opt.ip <|> s.known.ip) = some (s.h.slot 0).2.sinAddr) ∧
        (opt.port = 0 → s.known.port = some (s.h.slot 0).2.sinPort)

/-! ## The calls so far -/

def UdpCall.ip : UdpCall → Option (BitVec 32)
  | .connect ip _ _ => ip
  | .send _ opt _ => opt.ip

def UdpCall.port : UdpCall → BitVec 16
  | .connect _ port _ => port
  | .send _ opt _ => opt.port

/-- Calls with the system calls they made and what they returned, the last one first. -/
abbrev UdpLog := List (UdpCall × List OsCall × Bool)

/-- What the successful ones have set. -/
def knownOf : UdpLog → Known
  | [] => ⟨none, none⟩
  | (call, _, r) :: log => (knownOf log).after call.ip call.port r

def connectedIn : UdpLog → Bool
  | [] => false
  | (.connect _ _ _, _) :: _ => true
  | (.send _ _ _, _) :: log => connectedIn log

/-- The ip that the last `CommsConnect`, or a `CommsSend` behind it without a port, was
given. -/
def lastIp : UdpLog → Option (BitVec 32)
  | [] => none
  | (.connect ip _ _, _) :: _ => ip
  | (.send _ opt _, _) :: log => if opt.port = 0 ∧ opt.ip ≠ none then opt.ip else lastIp log

/-- The port that the last `CommsConnect`, or a `CommsSend` with a port behind it, was
given. -/
def lastPort : UdpLog → Option (BitVec 16)
  | [] => none
  | (.connect _ port _, _) :: _ => some port
  | (.send _ opt _, _) :: log => if opt.port ≠ 0 then some opt.port else lastPort log

/-- What the calls before a send have to be.  Before the first `CommsConnect` the send has
both options, or not even an earlier call has set one that is missing.  From then on,
unless it has an ip and no port, the ip where it belongs is the last one that a
`CommsConnect`, or a `CommsSend` without a port, was given; and without a port, the last
port that a successful call has set is the last one that any call was given. -/
def CallsKeep (log : UdpLog) : UdpCall → Prop
  | .connect _ _ _ => True
  | .send _ opt _ =>
    if connectedIn log then
      (opt.ip = none ∨ opt.port ≠ 0 → (opt.ip <|> (knownOf log).ip) = lastIp log) ∧
        (opt.port = 0 → (knownOf log).port = lastPort log)
    else opt.ip ≠ none ∧ opt.port ≠ 0 ∨ (knownOf log).target opt = none

/-! ## One send -/

variable {h : Commh} {msg : List UInt8} {opt : CommsSendOpt} {ret : ℕ → ℤ}

theorem commsSendOpt_udp_refuse (hudp : h.tcp = false) (hcount : h.clientCount = 0)
    (hmissing : opt.port = 0 ∨ opt.ip = none) :
    commsSendOpt h msg opt ret
      = some (setError h .noRemoteProvided "comms_send__opt" 455, [], false) := by
  rw [commsSendOpt, if_neg (by simp [hudp]), if_pos ⟨hmissing, hcount⟩]

theorem commsSendOpt_udp_sends (hudp : h.tcp = false)
    (hremote : ¬ ((opt.port = 0 ∨ opt.ip = none) ∧ h.clientCount = 0)) :
    ∃ h' r, commsSendOpt h msg opt ret = some (h', [.sendto (h.slot 0).1 msg
      { udpRemote h opt (h.slot 0).2 with sinFamily := afInet }], r) := by
  rw [commsSendOpt, if_neg (by simp [hudp]), if_neg hremote, h.slot?_eq (by decide)]
  dsimp only
  split_ifs
  · exact ⟨_, _, rfl⟩
  · exact ⟨_, _, rfl⟩

theorem setAddress_slot (a : SockaddrIn) :
    ({ h with clientAddress := h.clientAddress.setIfInBounds 0 a }.slot 0).2 = a := by
  have hpos : 0 < commsMaxClients := by decide
  simp [Commh.slot, hpos]

/-- What a send leaves of the handle: slot 0 holds where the datagram went. -/
theorem commsSendOpt_udp_slot {h' : Commh} {calls : List OsCall} {r : Bool} (hudp : h.tcp = false)
    (hsend : commsSendOpt h msg opt ret = some (h', calls, r)) :
    h'.tcp = h.tcp ∧ h'.server = h.server ∧ h'.clientCount = h.clientCount ∧
      (h.clientCount ≠ 0 → (h'.slot 0).2
        = { udpRemote h opt (h.slot 0).2 with sinFamily := afInet }) := by
  rw [commsSendOpt, if_neg (by simp [hudp])] at hsend
  split at hsend
  · rename_i hrefuse
    cases hsend
    exact ⟨rfl, rfl, rfl, fun hcount => absurd hrefuse.2 hcount⟩
  · rw [h.slot?_eq (by decide)] at hsend
    dsimp only at hsend
    split at hsend
    · cases hsend
      exact ⟨rfl, rfl, rfl, fun _ => setAddress_slot _⟩
    · cases hsend
      exact ⟨rfl, rfl, rfl, fun _ => setAddress_slot _⟩

theorem commsConnect_udp {h' : Commh} (hudp : h.tcp = false) (hserver : h.server = false)
    {ip : BitVec 32} {port : BitVec 16} {connectRet : ℤ} {r : Bool}
    (hc : commsConnect h ip port connectRet = some (h', r)) :
    r = true ∧ h'.tcp = false ∧ h'.server = false ∧ h'.clientCount ≠ 0 ∧
      (h'.slot 0).2 = { (h.slot 0).2 with sinAddr := ip, sinPort := port } := by
  rw [commsConnect, if_neg (by simp [hserver]), if_neg (by simp [hudp]), connected] at hc
  split at hc
  · cases hc
  · rename_i a ha
    cases hc
    refine ⟨rfl, hudp, hserver, ?_, ?_⟩
    · dsimp only
      split <;> omega
    · rw [show h.clientAddress[0]? = some (h.slot 0).2 by simp [Commh.slot, ha]] at ha
      cases ha
      exact setAddress_slot _

theorem commsConnectOpt_tcp {h' : Commh} {ip : Option (BitVec 32)} {port : BitVec 16} {ret : ℤ}
    {r : Bool} (hc : commsConnectOpt h ip port ret = some (h', r)) : h'.tcp = h.tcp := by
  cases ip with
  | none =>
    rw [commsConnectOpt] at hc
    split at hc
    · cases hc
      rfl
    · cases hc
  | some ip =>
    obtain ⟨line, rfl⟩ | ⟨addresses, count, rfl⟩ := commsConnect_cases hc
    · rfl
    · rfl

theorem target_eq_some {k : Known} {ip : BitVec 32} {port : BitVec 16} :
    k.target opt = some (ip, port) ↔
      (opt.ip <|> k.ip) = some ip ∧ (givenPort opt.port <|> k.port) = some port := by
  rw [Known.target]
  cases (opt.ip <|> k.ip) with
  | none => simp
  | some ip' =>
    cases (givenPort opt.port <|> k.port) with
    | none => simp
    | some port' => simp

theorem givenPort_orElse (port : BitVec 16) (k : Option (BitVec 16)) :
    (givenPort port <|> k) = if port = 0 then k else some port := by
  rw [givenPort]
  split_ifs <;> simp

/-- A datagram that is sent belongs where the options and the earlier calls say. -/
theorem addressed_of_sends {s : UdpSt} {h' : Commh} {r : Bool} {dest : SockaddrIn}
    (hfamily : dest.sinFamily = afInet)
    (hsend : commsSendOpt s.h msg opt ret = some (h', [.sendto (s.h.slot 0).1 msg dest], r)) :
    Addressed s (.send msg opt ret) ↔ s.known.target opt = some (dest.sinAddr, dest.sinPort) := by
  obtain ⟨family, port, ip⟩ := dest
  cases hfamily
  rw [Addressed]
  cases htarget : s.known.target opt with
  | none =>
    refine iff_of_false ?_ (by simp)
    rintro ⟨h'', hno, -⟩
    cases hsend.symm.trans hno
  | some remote =>
    obtain ⟨ip', port'⟩ := remote
    constructor
    · rintro ⟨h'', r', hsend'⟩
      cases hsend.symm.trans hsend'
      rfl
    · intro hremote
      cases hremote
      exact ⟨h', r, hsend⟩

/-- A send that is refused is right if something is missing indeed. -/
theorem addressed_of_refused {s : UdpSt} (hudp : s.h.tcp = false) (hcount : s.h.clientCount = 0)
    (hmissing : opt.port = 0 ∨ opt.ip = none) :
    Addressed s (.send msg opt ret) ↔ s.known.target opt = none := by
  have hsend := @commsSendOpt_udp_refuse s.h msg opt ret hudp hcount hmissing
  rw [Addressed]
  cases htarget : s.known.target opt with
  | none => exact iff_of_true ⟨_, hsend, rfl⟩ rfl
  | some remote =>
    refine iff_of_false ?_ (by simp)
    rintro ⟨h', r, hsent⟩
    cases hsend.symm.trans hsent

/-- With a remote in slot 0 a send takes over an ip without a port. -/
theorem udpRemote_ip (hcount : h.clientCount ≠ 0) (a : SockaddrIn) :
    some (udpRemote h opt a).sinAddr =
      if opt.port = 0 ∧ opt.ip ≠ none then opt.ip else some a.sinAddr := by
  have hpos : h.clientCount > 0 := Nat.pos_of_ne_zero hcount
  rw [udpRemote]
  by_cases hport : opt.port = 0
  · rw [if_neg (fun h => h.1 hport)]
    cases hip : opt.ip with
    | none => simp [hport, hcount]
    | some ip => simp [hport, hpos]
  · rw [if_pos ⟨hport, hpos⟩, if_neg (fun h => hport h.1)]

theorem udpRemote_port (hcount : h.clientCount ≠ 0) (a : SockaddrIn) :
    some (udpRemote h opt a).sinPort = if opt.port ≠ 0 then some opt.port else some a.sinPort := by
  have hpos : h.clientCount > 0 := Nat.pos_of_ne_zero hcount
  rw [udpRemote]
  by_cases hport : opt.port = 0
  · rw [if_neg (fun h => h.1 hport), if_neg (not_not.mpr hport)]
    split_ifs <;> rfl
  · rw [if_pos ⟨hport, hpos⟩, if_pos hport]

/-- The address in slot 0 and what the code puts over it. -/
theorem target_udpRemote {s : UdpSt} (hcount : s.h.clientCount ≠ 0) (a : SockaddrIn) :
    s.known.target opt = some ((udpRemote s.h opt a).sinAddr, (udpRemote s.h opt a).sinPort) ↔
      (opt.ip = none ∨ opt.port ≠ 0 → (opt.ip <|> s.known.ip) = some a.sinAddr) ∧
        (opt.port = 0 → s.known.port = some a.sinPort) := by
  rw [target_eq_some, udpRemote_ip hcount, udpRemote_port hcount, givenPort_orElse]
  by_cases hport : opt.port = 0
  · cases hip : opt.ip with
    | none => simp [hport]
    | some ip => simp [hport]
  · rw [if_neg (fun h => hport h.1), if_neg hport, if_pos hport]
    exact ⟨fun h => ⟨fun _ => h.1, fun hzero => absurd hzero hport⟩,
      fun h => ⟨h.1 (Or.inr hport), rfl⟩⟩

/-- **One send goes where it should exactly if** the handle has kept the address. -/
theorem send_addressed_iff {s : UdpSt} (hudp : s.h.tcp = false) (call : UdpCall) :
    Addressed s call ↔ AddressKept s call := by
  cases call with
  | connect ip port ret => exact Iff.rfl
  | send msg opt ret =>
    rw [AddressKept]
    by_cases hcount : s.h.clientCount = 0
    · rw [if_pos hcount]
      by_cases hmissing : opt.port = 0 ∨ opt.ip = none
      · rw [addressed_of_refused hudp hcount hmissing, or_iff_right]
        rintro ⟨hip, hport⟩
        exact hmissing.elim hport hip
      · obtain ⟨hport, hip⟩ := not_or.mp hmissing
        refine iff_of_true ?_ (Or.inl ⟨hip, hport⟩)
        obtain ⟨ip, hip⟩ := Option.ne_none_iff_exists'.mp hip
        obtain ⟨h', r, hsend⟩ := @commsSendOpt_udp_sends s.h msg opt ret hudp fun h => hmissing h.1
        rw [addressed_of_sends rfl hsend, target_eq_some, givenPort_orElse, if_neg hport, udpRemote]
        simp [hcount, hip]
    · rw [if_neg hcount]
      obtain ⟨h', r, hsend⟩ := @commsSendOpt_udp_sends s.h msg opt ret hudp fun h => hcount h.2
      rw [addressed_of_sends rfl hsend]
      exact target_udpRemote hcount _

/-! ## Runs -/

theorem udpStep_tcp {s t : UdpSt} {call : UdpCall} {o : List OsCall × Bool} (hudp : s.h.tcp = false)
    (hstep : udpStep s call = some (t, o)) : t.h.tcp = false := by
  cases call with
  | connect ip port ret =>
    rw [udpStep] at hstep
    cases hconn : commsConnectOpt s.h ip port ret with
    | none =>
      rw [hconn] at hstep
      cases hstep
    | some res =>
      rw [hconn] at hstep
      cases hstep
      exact (commsConnectOpt_tcp hconn).trans hudp
  | send msg opt ret =>
    rw [udpStep] at hstep
    cases hsend : commsSendOpt s.h msg opt ret with
    | none =>
      rw [hsend] at hstep
      cases hstep
    | some res =>
      rw [hsend] at hstep
      cases hstep
      exact (commsSendOpt_udp_slot hudp hsend).1.trans hudp

theorem startListener_kind {h h' : Commh} {env : InitEnv} {f : String} {line : ℕ}
    {cs calls : List OsCall} {r : Bool} (hstart : startListener h env f line cs = (h', calls, r)) :
    h'.tcp = h.tcp ∧ h'.server = h.server ∧ h'.clientCount = h.clientCount := by
  cases startListener_cases hstart with
  | off hrun => exact ⟨rfl, rfl, rfl⟩
  | noListener hrun => exact ⟨rfl, rfl, rfl⟩
  | thread hrun => exact ⟨rfl, rfl, rfl⟩

theorem commsUdpInitOpt_kind {h₀ h : Commh} {opt : CommsOpt} {env : InitEnv} {calls : List OsCall}
    (hinit : commsUdpInitOpt h₀ opt env = (h, calls, true)) :
    h.tcp = false ∧ h.server = false ∧ h.clientCount = 0 := by
  cases commsUdpInitOpt_cases hinit with
  | starts hsocket hstart => exact startListener_kind hstart

/-- **What slot 0 holds**, as the calls so far tell it. -/
structure LogInv (s : UdpSt) (log : UdpLog) : Prop where
  tcp : s.h.tcp = false
  server : s.h.server = false
  known : s.known = knownOf log
  count : s.h.clientCount = 0 ↔ connectedIn log = false
  ip : connectedIn log = true → lastIp log = some (s.h.slot 0).2.sinAddr
  port : connectedIn log = true → lastPort log = some (s.h.slot 0).2.sinPort

theorem logInv_init {h₀ h : Commh} {opt : CommsOpt} {env : InitEnv} {calls : List OsCall}
    (hinit : commsUdpInitOpt h₀ opt env = (h, calls, true)) : LogInv (UdpSt.init h) [] := by
  obtain ⟨htcp, hserver, hcount⟩ := commsUdpInitOpt_kind hinit
  exact ⟨htcp, hserver, rfl, iff_of_true hcount rfl, fun hc => Bool.noConfusion hc,
    fun hc => Bool.noConfusion hc⟩

theorem LogInv.connect {s t : UdpSt} {log : UdpLog} (inv : LogInv s log)
    {ip : Option (BitVec 32)} {port : BitVec 16} {ret : ℤ} {o : List OsCall × Bool}
    (hstep : udpStep s (.connect ip port ret) = some (t, o)) :
    LogInv t ((.connect ip port ret, o) :: log) := by
  rw [udpStep] at hstep
  cases hconn : commsConnectOpt s.h ip port ret with
  | none =>
    rw [hconn] at hstep
    cases hstep
  | some res =>
    obtain ⟨h', r⟩ := res
    rw [hconn] at hstep
    cases hstep
    obtain ⟨ip, rfl⟩ : ∃ ip', ip = some ip' := by
      cases ip with
      | none => simp [commsConnectOpt, inv.server] at hconn
      | some ip' => exact ⟨ip', rfl⟩
    obtain ⟨-, htcp, hserver, hcount, hslot⟩ := commsConnect_udp inv.tcp inv.server hconn
    refine ⟨htcp, hserver, ?_, iff_of_false hcount (by simp [connectedIn]), fun _ => ?_, fun _ => ?_⟩
    · rw [knownOf, ← inv.known]
      rfl
    · rw [hslot]
      rfl
    · rw [hslot]
      rfl

/-- `CommsSend` puts the port of its options, or else their ip, over it, also when it
fails. -/
theorem LogInv.send {s t : UdpSt} {log : UdpLog} (inv : LogInv s log) {msg : List UInt8}
    {opt : CommsSendOpt} {ret : ℕ → ℤ} {o : List OsCall × Bool}
    (hstep : udpStep s (.send msg opt ret) = some (t, o)) :
    LogInv t ((.send msg opt ret, o) :: log) := by
  rw [udpStep] at hstep
  cases hsend : commsSendOpt s.h msg opt ret with
  | none =>
    rw [hsend] at hstep
    cases hstep
  | some res =>
    obtain ⟨h', calls, r⟩ := res
    rw [hsend] at hstep
    cases hstep
    obtain ⟨htcp, hserver, hcount, hslot⟩ := commsSendOpt_udp_slot inv.tcp hsend
    have hsent : connectedIn log = true → s.h.clientCount ≠ 0 := by
      intro hc hzero
      rw [inv.count.mp hzero] at hc
      cases hc
    refine ⟨htcp.trans inv.tcp, hserver.trans inv.server, ?_, ?_, fun hc => ?_, fun hc => ?_⟩
    · rw [knownOf, ← inv.known]
      rfl
    · rw [hcount]
      exact inv.count
    · rw [lastIp, inv.ip hc, hslot (hsent hc)]
      exact (udpRemote_ip (hsent hc) _).symm
    · rw [lastPort, inv.port hc, hslot (hsent hc)]
      exact (udpRemote_port (hsent hc) _).symm

theorem LogInv.step {s t : UdpSt} {log : UdpLog} (inv : LogInv s log) {call : UdpCall}
    {o : List OsCall × Bool} (hstep : udpStep s call = some (t, o)) :
    LogInv t ((call, o) :: log) := by
  cases call with
  | connect ip port ret => exact inv.connect hstep
  | send msg opt ret => exact inv.send hstep

theorem LogInv.kept_iff {s : UdpSt} {log : UdpLog} (inv : LogInv s log) (call : UdpCall) :
    AddressKept s call ↔ CallsKeep log call := by
  cases call with
  | connect ip port ret => exact Iff.rfl
  | send msg opt ret =>
    rw [AddressKept, CallsKeep, ← inv.known]
    cases hc : connectedIn log with
    | false => rw [if_pos (inv.count.mpr hc), if_neg (by decide)]
    | true =>
      rw [if_neg (fun hzero => by simp [inv.count.mp hzero] at hc), if_pos rfl, inv.ip hc,
        inv.port hc]

/-- **The calls before decide whether a send goes where it should**, along every run. -/
theorem sends_addressed_iff {h₀ h : Commh} {opt : CommsOpt} {env : InitEnv} {calls : List OsCall}
    (hinit : commsUdpInitOpt h₀ opt env = (h, calls, true)) (run : List UdpCall) :
    Machine.Along udpStep Addressed (UdpSt.init h) run ↔
      Machine.Along (Machine.logged udpStep) (fun s call => CallsKeep s.2 call)
        (UdpSt.init h, []) run := by
  rw [← Machine.along_logged (UdpSt.init h) [] run]
  refine Machine.along_congr_of_invariant (I := fun s => LogInv s.1 s.2)
    (fun s call s₁ o inv _ hstep => ?_) (fun s call inv => ?_) (logInv_init hinit) run
  · obtain ⟨hstep, hlog⟩ := Machine.logged_eq_some.mp hstep
    rw [hlog]
    exact inv.step hstep
  · exact (send_addressed_iff inv.tcp call).trans (inv.kept_iff call)

/-- The handle that the `Init` leaves when every system call succeeds. -/
def newUdp : Commh := (commsUdpInitOpt .zero defaultOpt okEnv).1

/-- `CommsConnect`, a send to the remote, one to another port, and one that leaves the port
out again. -/
theorem sends_addressed_two :
    Machine.Along udpStep Addressed (UdpSt.init newUdp)
      [.connect (some 1) 80 0, .send [7] ⟨none, 0, 0⟩ fun _ => 1,
        .send [7] ⟨none, 81, 0⟩ fun _ => 1, .send [7] ⟨some 2, 0, 0⟩ fun _ => 1] := by
  have hinit : commsUdpInitOpt .zero defaultOpt okEnv =
      (newUdp, [.socket 3, .create 1], true) := rfl
  refine (sends_addressed_iff hinit _).mpr ⟨trivial, fun s₁ o₁ h₁ => ?_⟩
  cases h₁
  refine ⟨⟨fun _ => rfl, fun _ => rfl⟩, fun s₂ o₂ h₂ => ?_⟩
  cases h₂
  refine ⟨⟨fun _ => rfl, fun hzero => absurd hzero (by decide)⟩, fun s₃ o₃ h₃ => ?_⟩
  cases h₃
  exact ⟨⟨fun hmiss => absurd hmiss (by decide), fun _ => rfl⟩, fun _ _ _ => trivial⟩

/-- A connected handle is given another remote: the datagram goes to the old ip. -/
theorem given_ip_ignored :
    ¬ Machine.Along udpStep Addressed (UdpSt.init newUdp)
      [.connect (some 1) 80 0, .send [7] ⟨some 2, 81, 0⟩ fun _ => 1] := by
  rintro ⟨-, hsends⟩
  obtain ⟨hsend, -⟩ := hsends _ _ rfl
  have hkept := ((send_addressed_iff rfl _).mp hsend).1 (Or.inr (by decide))
  exact absurd hkept (by decide +kernel)

end DataCommons.Comms
