import DataCommons.Comms.Udp
import DataCommons.Comms.Lifecycle

/-!
# Errors that can be printed

`CommsPrintError` has a case for each code but three.  Which of these a run can leave in
the handle is a matter of every operation's error exits.

* `closeSlots_errType` and its siblings: the code that each operation leaves;
* `prints_after_iff`: when a call leaves a code that can be printed;
* `prints_iff`: the same for every state of every run.
-/

namespace DataCommons.Comms

/-- The name that the `switch` of `CommsPrintError` has for a code. -/
def printedName : CommsError → Option String
  | .noerror => some "COMMS_ERROR_NOERROR"
  | .socket => some "COMMS_ERROR_SOCKET"
  | .bind => some "COMMS_ERROR_BIND"
  | .listen => some "COMMS_ERROR_LISTEN"
  | .accept => some "COMMS_ERROR_ACCEPT"
  | .connect => some "COMMS_ERROR_CONNECT"
  | .noRemoteProvided => some "COMMS_ERROR_NO_REMOTE_PROVIDED"
  | .failedToSend => some "COMMS_ERROR_FAILED_TO_SEND"
  | .failedToCreateListener => some "COMMS_ERROR_FAILED_TO_CREATE_LISTENER"
  | .callbackNotProvided => some "COMMS_ERROR_CALLBACK_NOT_PROVIDED"
  | .closeComms => some "COMMS_ERROR_CLOSE_COMMS"
  | .maxClients => some "COMMS_ERROR_MAX_CLIENTS"
  | _ => none

/-- `CommsPrintError`: the place and the name that it prints, unless it is
`UNREACHABLE`. -/
def commsPrintError (h : Commh) : Option ((String × ℕ) × String) :=
  (printedName h.errType).map fun name => (h.error, name)

/-- `CommsExit`: it prints and exits with -1. -/
def commsExit (h : Commh) : Option (((String × ℕ) × String) × ℤ) :=
  (commsPrintError h).map fun line => (line, -1)

/-- An operation that can leave an error: a call of the API, the listener's
`CommsDisconnect`, or an iteration of the accepter. -/
inductive ApiCall where
  | init (kind : Kind) (opt : CommsOpt) (env : InitEnv)
  | connect (ip : Option (BitVec 32)) (port : BitVec 16) (ret : ℤ)
  | send (msg : List UInt8) (opt : CommsSendOpt) (ret : ℕ → ℤ)
  | disconnect (cid : BitVec 16)
  | close (rcListener rcAccepter : ℤ)
  | accepter (answer : AcceptResult)

/-- The handle behind an operation, and its system calls. -/
def apiStep (h : Commh) : ApiCall → Option (Commh × List OsCall)
  | .init kind opt env => (commsInit kind h opt env).map fun res => (res.1, res.2.1)
  | .connect ip port ret => (commsConnectOpt h ip port ret).map fun res => (res.1, [])
  | .send msg opt ret => (commsSendOpt h msg opt ret).map fun res => (res.1, res.2.1)
  | .disconnect cid => (commsDisconnect h cid).map fun res => (res.1, res.2.1)
  | .close rcListener rcAccepter =>
    (commsClose h rcListener rcAccepter).map fun res => (res.1, res.2.1)
  | .accepter answer => some ((commsAccepter h answer).1, (commsAccepter h answer).2.1)

/-- Neither `CommsPrintError` nor `CommsExit` would be `UNREACHABLE`. -/
def Prints (h : Commh) : Prop := (commsPrintError h).isSome ∧ (commsExit h).isSome

/-- Behind the operation they would not. -/
def PrintsAfter (h : Commh) (call : ApiCall) : Prop :=
  ∀ h' calls, apiStep h call = some (h', calls) → Prints h'

def DisconnectRefused (h : Commh) (cid : BitVec 16) : Prop :=
  h.tcp = false ∨ h.server = false ∨ cid.toNat < 1 ∨ h.clientCount % 2 ^ 16 ≤ cid.toNat ∨
    ∃ x, h.slot? cid.toNat = some x ∧ x.1 ≤ 0

/-- A server's `Init` comes to the creation of its accepter, which fails. -/
def AccepterFails (opt : CommsOpt) (env : InitEnv) : Prop :=
  opt.ipv6 = false ∧ 0 ≤ env.socket ∧ 0 ≤ env.bind ∧ 0 ≤ env.listen ∧ opt.recvcb = true ∧
    env.listenerRc = 0 ∧ env.accepterRc ≠ 0

/-- No refused `CommsDisconnect`, and no server without its accepter. -/
def ErrorKnown (h : Commh) : ApiCall → Prop
  | .disconnect cid => ¬ DisconnectRefused h cid
  | .init .tcpServer opt env => ¬ AccepterFails opt env
  | _ => True

theorem prints_iff_name {h : Commh} : Prints h ↔ (printedName h.errType).isSome := by
  rw [Prints, commsExit, commsPrintError, Option.isSome_map, Option.isSome_map, Option.isSome_map,
    and_self]

/-! ## The code that an operation leaves -/

variable {h h' : Commh} {calls : List OsCall} {r : Bool}

theorem closeSlots_errType {i k : ℕ} (hc : closeSlots h i k = some (h', calls)) :
    h'.errType = h.errType := by
  induction k generalizing h i calls with
  | zero =>
    cases hc
    rfl
  | succ k ih =>
    rw [closeSlots] at hc
    split at hc
    · cases hc
    · split at hc
      · split at hc
        · cases hc
        · rename_i hrest
          cases hc
          exact (ih hrest).trans rfl
      · exact ih hc

theorem commsClose_errType {rcListener rcAccepter : ℤ}
    (hc : commsClose h rcListener rcAccepter = some (h', calls, r)) :
    h'.errType = h.errType ∨ h'.errType = .closeComms := by
  rw [commsClose] at hc
  split at hc
  · cases hc
  · rename_i hslots
    have herr := closeSlots_errType hslots
    dsimp only at hc
    split at hc
    · cases hc
      exact Or.inr rfl
    · split at hc
      · split at hc
        · cases hc
          exact Or.inr rfl
        · cases hc
          exact Or.inl herr
      · cases hc
        exact Or.inl herr

theorem commsDisconnect_errType {cid : BitVec 16}
    (hd : commsDisconnect h cid = some (h', calls, r)) :
    (DisconnectRefused h cid ∧ h'.errType = .disconnect) ∨
      (¬ DisconnectRefused h cid ∧ h'.errType = h.errType) := by
  cases commsDisconnect_cases hd with
  | kind hkind => exact Or.inl ⟨hkind.imp_right Or.inl, rfl⟩
  | outside hcid => exact Or.inl ⟨Or.inr (Or.inr (hcid.imp_right Or.inl)), rfl⟩
  | empty hslot hsock => exact Or.inl ⟨Or.inr (Or.inr (Or.inr (Or.inr ⟨_, hslot, hsock⟩))), rfl⟩
  | removed htcp hserver hcid hslot hsock =>
    refine Or.inr ⟨?_, rfl⟩
    rintro (hno | hno | hlt | hle | ⟨x, hx, hneg⟩)
    · exact Bool.eq_false_iff.mp hno htcp
    · exact Bool.eq_false_iff.mp hno hserver
    · exact hcid (Or.inl hlt)
    · exact hcid (Or.inr hle)
    · cases hslot.symm.trans hx
      exact hsock hneg

theorem commsConnectOpt_errType {ip : Option (BitVec 32)} {port : BitVec 16} {ret : ℤ}
    (hc : commsConnectOpt h ip port ret = some (h', r)) :
    h'.errType = h.errType ∨ h'.errType = .connect := by
  cases ip with
  | none =>
    rw [commsConnectOpt] at hc
    split at hc
    · cases hc
      exact Or.inr rfl
    · cases hc
  | some ip =>
    obtain ⟨line, rfl⟩ | ⟨addresses, count, rfl⟩ := commsConnect_cases hc
    · exact Or.inr rfl
    · exact Or.inl rfl

def SendError (err : CommsError) : Prop := err = .failedToSend ∨ err = .noRemoteProvided

theorem sendAll_errType {msg : List UInt8} {ret : ℕ → ℤ} {i k : ℕ}
    (hs : sendAll h msg ret i k = some (h', calls, r)) :
    h'.errType = h.errType ∨ SendError h'.errType := by
  induction k generalizing i calls with
  | zero =>
    cases hs
    exact Or.inl rfl
  | succ k ih =>
    rw [sendAll] at hs
    split at hs
    · cases hs
    · split at hs
      · cases hs
        exact Or.inr (Or.inl rfl)
      · split at hs
        · cases hs
        · rename_i hrest
          cases hs
          exact ih hrest

theorem sendOne_errType {msg : List UInt8} {ret : ℕ → ℤ} {cid : ℕ}
    (hs : sendOne h msg ret cid = some (h', calls, r)) :
    h'.errType = h.errType ∨ SendError h'.errType := by
  rw [sendOne] at hs
  split at hs
  · cases hs
  · split at hs
    · cases hs
      exact Or.inr (Or.inr rfl)
    · split at hs
      · cases hs
        exact Or.inr (Or.inl rfl)
      · cases hs
        exact Or.inl rfl

theorem commsSendOpt_errType {msg : List UInt8} {opt : CommsSendOpt} {ret : ℕ → ℤ}
    (hs : commsSendOpt h msg opt ret = some (h', calls, r)) :
    h'.errType = h.errType ∨ SendError h'.errType := by
  rw [commsSendOpt] at hs
  split at hs
  · split at hs
    · split at hs
      · cases hs
        exact Or.inr (Or.inl rfl)
      · split at hs
        · exact sendOne_errType hs
        · exact sendAll_errType hs
    · split at hs
      · cases hs
        exact Or.inr (Or.inl rfl)
      · exact sendOne_errType hs
  · split at hs
    · cases hs
      exact Or.inr (Or.inr rfl)
    · split at hs
      · cases hs
      · dsimp only at hs
        split at hs
        · cases hs
          exact Or.inr (Or.inl rfl)
        · cases hs
          exact Or.inl rfl

theorem commsAccepter_errType (h : Commh) (answer : AcceptResult) :
    (commsAccepter h answer).1.errType = h.errType ∨
      (commsAccepter h answer).1.errType = .maxClients := by
  cases answer with
  | fail errno =>
    obtain ⟨loop, hacc⟩ := commsAccepter_fail h errno
    rw [hacc]
    exact Or.inl rfl
  | conn cs cli =>
    rw [commsAccepter]
    split
    · exact Or.inr rfl
    · exact Or.inl rfl

/-! ## The code that an `Init` leaves -/

/-- The codes of the error exits of an `Init`, but for the accepter's. -/
def InitError (err : CommsError) : Prop :=
  err = .socket ∨ err = .bind ∨ err = .listen ∨ err = .failedToCreateListener ∨ err = .closeComms

theorem startListener_errType {env : InitEnv} {f : String} {line : ℕ} {cs : List OsCall}
    (hs : startListener h env f line cs = (h', calls, r)) :
    h'.errType = h.errType ∨ h'.errType = .failedToCreateListener := by
  cases startListener_cases hs with
  | off hrun => exact Or.inl rfl
  | noListener hrun => exact Or.inr rfl
  | thread hrun => exact Or.inl rfl

theorem closeAndFail_errType {env : InitEnv} {cs : List OsCall}
    (hc : closeAndFail h env cs = some (h', calls, r)) :
    h'.errType = h.errType ∨ h'.errType = .closeComms := by
  rw [closeAndFail] at hc
  split at hc
  · cases hc
  · rename_i hclose
    cases hc
    exact commsClose_errType hclose

theorem commsUdpInitOpt_errType {opt : CommsOpt} {env : InitEnv}
    (hinit : commsUdpInitOpt h opt env = (h', calls, r)) :
    h'.errType = h.errType ∨ InitError h'.errType := by
  cases commsUdpInitOpt_cases hinit with
  | noSocket hsocket herr => exact Or.inr (Or.inl herr)
  | noBind hsocket herr => exact Or.inr (Or.inr (Or.inl herr))
  | starts hsocket hstart =>
    rcases startListener_errType hstart with hsame | hfails
    · exact Or.inl hsame
    · exact Or.inr (Or.inr (Or.inr (Or.inr (Or.inl hfails))))

theorem commsTcpclientInitOpt_errType {opt : CommsOpt} {env : InitEnv}
    (hinit : commsTcpclientInitOpt h opt env = some (h', calls, r)) :
    h'.errType = h.errType ∨ InitError h'.errType := by
  cases commsTcpclientInitOpt_cases hinit with
  | noSocket hsocket herr => exact Or.inr (Or.inl herr)
  | closes hsocket herr hclose =>
    rcases closeAndFail_errType hclose with hsame | hfails
    · exact Or.inr (Or.inr (Or.inl (hsame.trans herr)))
    · exact Or.inr (Or.inr (Or.inr (Or.inr (Or.inr hfails))))
  | starts hsocket hstart =>
    rcases startListener_errType hstart with hsame | hfails
    · exact Or.inl hsame
    · exact Or.inr (Or.inr (Or.inr (Or.inr (Or.inl hfails))))

theorem startServer_errType {env : InitEnv} {cs : List OsCall}
    (hs : startServer h env cs = (h', calls, r)) :
    (h.running = true ∧ env.listenerRc = 0 ∧ env.accepterRc ≠ 0 ∧
        h'.errType = .failedToCreateAccepter) ∨
      (¬ (h.running = true ∧ env.listenerRc = 0 ∧ env.accepterRc ≠ 0) ∧
        (h'.errType = h.errType ∨ h'.errType = .failedToCreateListener)) := by
  cases startServer_cases hs with
  | off hrun => exact Or.inr ⟨fun hfails => Bool.eq_false_iff.mp hrun hfails.1, Or.inl rfl⟩
  | noListener hrun hlistener => exact Or.inr ⟨fun hfails => hlistener hfails.2.1, Or.inr rfl⟩
  | noAccepter hrun hlistener haccepter => exact Or.inl ⟨hrun, hlistener, haccepter, rfl⟩
  | threads hrun hlistener haccepter =>
    exact Or.inr ⟨fun hfails => hfails.2.2 haccepter, Or.inl rfl⟩

theorem commsTcpserverInitOpt_errType {opt : CommsOpt} {env : InitEnv}
    (hinit : commsTcpserverInitOpt h opt env = some (h', calls, r)) :
    (AccepterFails opt env ∧ h'.errType = .failedToCreateAccepter) ∨
      (¬ AccepterFails opt env ∧ (h'.errType = h.errType ∨ InitError h'.errType)) := by
  cases commsTcpserverInitOpt_cases hinit with
  | noSocket hsocket herr =>
    exact Or.inr ⟨fun hfails => absurd hfails.2.1 (not_le.mpr hsocket), Or.inr (Or.inl herr)⟩
  | closes hsocket hrefused hclose =>
    rcases hrefused with ⟨hbind, herr⟩ | ⟨hlisten, herr⟩
    · refine Or.inr ⟨fun hfails => absurd hfails.2.2.1 (not_le.mpr hbind), Or.inr ?_⟩
      rcases closeAndFail_errType hclose with hsame | hfails
      · exact Or.inr (Or.inl (hsame.trans herr))
      · exact Or.inr (Or.inr (Or.inr (Or.inr hfails)))
    · refine Or.inr ⟨fun hfails => absurd hfails.2.2.2.1 (not_le.mpr hlisten), Or.inr ?_⟩
      rcases closeAndFail_errType hclose with hsame | hfails
      · exact Or.inr (Or.inr (Or.inl (hsame.trans herr)))
      · exact Or.inr (Or.inr (Or.inr (Or.inr hfails)))
  | starts hipv4 hsocket hbind hlisten hstart =>
    rcases startServer_errType hstart with ⟨hrun, hlistener, haccepter, herr⟩ | ⟨hnot, herr⟩
    · exact Or.inl ⟨⟨hipv4, hsocket, hbind, hlisten, hrun, hlistener, haccepter⟩, herr⟩
    · refine Or.inr ⟨fun hfails => hnot hfails.2.2.2.2, ?_⟩
      rcases herr with hsame | hfails
      · exact Or.inl hsame
      · exact Or.inr (Or.inr (Or.inr (Or.inr (Or.inl hfails))))

theorem commsTcpserverInitOpt_accepter {opt : CommsOpt} {env : InitEnv}
    (hfails : AccepterFails opt env) :
    (commsTcpserverInitOpt h opt env).isSome = true := by
  obtain ⟨hipv4, hsocket, hbind, hlisten, -⟩ := hfails
  rw [commsTcpserverInitOpt, if_neg (by simp [hipv4]), if_neg (not_lt.mpr hsocket),
    if_neg (not_lt.mpr hbind), if_neg (not_lt.mpr hlisten)]
  rfl

theorem commsDisconnect_refused {cid : BitVec 16} (hrefused : DisconnectRefused h cid) :
    (commsDisconnect h cid).isSome = true := by
  rw [commsDisconnect]
  split_ifs with hkind hcid
  · rfl
  · rfl
  · obtain ⟨x, hx, hneg⟩ : ∃ x, h.slot? cid.toNat = some x ∧ x.1 ≤ 0 := by
      rcases hrefused with htcp | hserver | hlt | hle | hslot
      · exact absurd (by simp [htcp]) hkind
      · exact absurd (by simp [hserver]) hkind
      · exact absurd (Or.inl hlt) hcid
      · exact absurd (Or.inr hle) hcid
      · exact hslot
    rw [hx]
    dsimp only
    rw [if_pos hneg]
    rfl

/-! ## Runs -/

/-- A code that was there, or one that has a name. -/
theorem prints_of_errType (hp : Prints h)
    (herr : h'.errType = h.errType ∨ (printedName h'.errType).isSome) : Prints h' := by
  rw [prints_iff_name] at hp ⊢
  rcases herr with hsame | hname
  · rwa [hsame]
  · exact hname

theorem not_prints_of_errType {err : CommsError} (herr : h.errType = err)
    (hname : printedName err = none) : ¬ Prints h := by
  rw [prints_iff_name, herr, hname]
  exact Bool.false_ne_true

theorem InitError.named {err : CommsError} (h : InitError err) : (printedName err).isSome := by
  rcases h with rfl | rfl | rfl | rfl | rfl <;> rfl

theorem SendError.named {err : CommsError} (h : SendError err) : (printedName err).isSome := by
  rcases h with rfl | rfl <;> rfl

theorem named_of_eq {err code : CommsError} (h : err = code) (hname : (printedName code).isSome) :
    (printedName err).isSome := h ▸ hname

/-- An operation that leaves the code that was there, or one with a name. -/
theorem printsAfter_of {α : Type} {f : α → Commh × List OsCall} {res : Option α} {call : ApiCall}
    (hp : Prints h) (hstep : apiStep h call = res.map f)
    (herr : ∀ x, res = some x →
      (f x).1.errType = h.errType ∨ (printedName (f x).1.errType).isSome) :
    PrintsAfter h call := by
  intro h' calls hres
  obtain ⟨x, hx, hf⟩ := Option.map_eq_some_iff.mp (hstep.symm.trans hres)
  have hprints := prints_of_errType hp (herr x hx)
  rwa [hf] at hprints

theorem not_printsAfter {α : Type} {f : α → Commh × List OsCall} {res : Option α} {call : ApiCall}
    (hstep : apiStep h call = res.map f) (hsome : res.isSome = true)
    (hnot : ∀ x, res = some x → ¬ Prints (f x).1) : ¬ PrintsAfter h call := by
  intro hafter
  obtain ⟨x, hx⟩ := Option.isSome_iff_exists.mp hsome
  rw [hx, Option.map_some] at hstep
  exact hnot x hx (hafter _ _ hstep)

/-- **One operation leaves a code that is printed exactly if** it is no `CommsDisconnect`
that refuses, and no server's `Init` without its accepter. -/
theorem prints_after_iff (hp : Prints h) (call : ApiCall) :
    PrintsAfter h call ↔ ErrorKnown h call := by
  cases call with
  | init kind opt env =>
    have hstep : apiStep h (.init kind opt env)
        = (commsInit kind h opt env).map fun res => (res.1, res.2.1) := rfl
    cases kind with
    | udp =>
      refine iff_of_true (printsAfter_of hp hstep fun x hx => ?_) trivial
      exact (commsUdpInitOpt_errType (Option.some.inj hx)).imp_right InitError.named
    | tcpClient =>
      refine iff_of_true (printsAfter_of hp hstep fun x hx => ?_) trivial
      exact (commsTcpclientInitOpt_errType hx).imp_right InitError.named
    | tcpServer =>
      by_cases hfails : AccepterFails opt env
      · refine iff_of_false ?_ (not_not.mpr hfails)
        refine not_printsAfter hstep (commsTcpserverInitOpt_accepter hfails) fun x hx => ?_
        obtain ⟨-, herr⟩ := (commsTcpserverInitOpt_errType hx).resolve_right fun h => h.1 hfails
        exact not_prints_of_errType herr rfl
      · refine iff_of_true (printsAfter_of hp hstep fun x hx => ?_) hfails
        obtain ⟨-, herr⟩ := (commsTcpserverInitOpt_errType hx).resolve_left fun h => hfails h.1
        exact herr.imp_right InitError.named
  | connect ip port ret =>
    refine iff_of_true (printsAfter_of hp rfl fun x hx => ?_) trivial
    exact (commsConnectOpt_errType hx).imp_right fun herr => named_of_eq herr rfl
  | send msg opt ret =>
    refine iff_of_true (printsAfter_of hp rfl fun x hx => ?_) trivial
    exact (commsSendOpt_errType hx).imp_right SendError.named
  | disconnect cid =>
    by_cases hrefused : DisconnectRefused h cid
    · refine iff_of_false ?_ (not_not.mpr hrefused)
      refine not_printsAfter rfl (commsDisconnect_refused hrefused) fun x hx => ?_
      obtain ⟨-, herr⟩ := (commsDisconnect_errType hx).resolve_right fun h => h.1 hrefused
      exact not_prints_of_errType herr rfl
    · refine iff_of_true (printsAfter_of hp rfl fun x hx => ?_) hrefused
      obtain ⟨-, herr⟩ := (commsDisconnect_errType hx).resolve_left fun h => hrefused h.1
      exact Or.inl herr
  | close rcListener rcAccepter =>
    refine iff_of_true (printsAfter_of hp rfl fun x hx => ?_) trivial
    exact (commsClose_errType hx).imp_right fun herr => named_of_eq herr rfl
  | accepter answer =>
    refine iff_of_true (fun h' calls hstep => ?_) trivial
    cases hstep
    exact prints_of_errType hp
      ((commsAccepter_errType h answer).imp_right fun herr => named_of_eq herr rfl)

/-- **Every state of a run can be printed exactly if** its first one can, and no operation of
the run is a `CommsDisconnect` that refuses or a server's `Init` without its accepter. -/
theorem prints_iff (h : Commh) (run : List ApiCall) :
    (Prints h ∧ Machine.Along apiStep PrintsAfter h run) ↔
      (Prints h ∧ Machine.Along apiStep ErrorKnown h run) :=
  and_congr_right fun hp =>
    Machine.along_congr_of_invariant (I := Prints)
      (fun _ _ _ _ _ hafter hstep => hafter _ _ hstep)
      (fun _ call hp => prints_after_iff hp call) hp run

/-- `CommsDisconnect` on a UDP handle is refused, and its code has no case. -/
theorem refused_disconnect_not_printed :
    Prints .zero ∧ ∃ h', Machine.exec apiStep .zero [.init .udp defaultOpt okEnv, .disconnect 1]
        = some (h', [[.socket 3, .create 1], []]) ∧ commsPrintError h' = none :=
  ⟨⟨rfl, rfl⟩, _, rfl, rfl⟩

end DataCommons.Comms
