import Mathlib.Algebra.Ring.Int.Defs
import Mathlib.Algebra.Ring.Nat
import Mathlib.Data.Int.Order.Basic

/-!
# The TCP and UDP handles of `eth_comms.h`

`Commh` is `commh_t`.  A function gives the new handle, the system calls it made
in order and its return value; what a system call answered is an argument.  The
result `none` is an access outside `clients_socks` or `client_address`, or an
`abort`.  IPv4 addresses are the values `inet_addr` gives, ports are in host
order.  Log lines are left out.
-/

namespace DataCommons.Comms

def commsMaxClients : ℕ := 256

def commsSendToAllClients : ℕ := 65535

def commsDefListenPort : BitVec 16 := 5000

/-- `inet_addr(COMMS_DEF_LISTEN_IP)`, the address `0.0.0.0`. -/
def commsDefListenIp : BitVec 32 := 0

def afInet : BitVec 16 := 2

inductive CommsError where
  | noerror | socket | bind | listen | accept | connect | noRemoteProvided | failedToSend
  | failedToCreateListener | failedToCreateAccepter | callbackNotProvided | maxClients
  | closeComms | disconnect | contextNotProvided
  deriving DecidableEq, Repr

structure SockaddrIn where
  sinFamily : BitVec 16
  sinPort : BitVec 16
  sinAddr : BitVec 32
  deriving DecidableEq, Repr

/-- A `memset` to zero. -/
def SockaddrIn.zero : SockaddrIn := ⟨0, 0, 0⟩

/-- `commh_t`.  `error` is the function and line that `_set_error` prints into the
text; `recvcb` says whether the callback is given. -/
structure Commh where
  tcp : Bool
  server : Bool
  clientsSocks : Vector ℤ commsMaxClients
  clientAddress : Vector SockaddrIn commsMaxClients
  clientCount : ℕ
  localAddress : SockaddrIn
  recvcb : Bool
  listener : ℕ
  accepter : ℕ
  running : Bool
  errType : CommsError
  error : String × ℕ

/-- The calls into the operating system, with the descriptor or thread that
`socket` and `pthread_create` gave. -/
inductive OsCall where
  | socket (fd : ℤ)
  | shutdown (fd : ℤ)
  | close (fd : ℤ)
  | send (fd : ℤ) (msg : List UInt8)
  | sendto (fd : ℤ) (msg : List UInt8) (dest : SockaddrIn)
  | create (thread : ℕ)
  | join (thread : ℕ)
  deriving DecidableEq

def setError (h : Commh) (err : CommsError) (f : String) (l : ℕ) : Commh :=
  { h with errType := err, error := (f, l) }

namespace Commh

/-- Read `clients_socks[i]` and `client_address.asv4[i]`. -/
def slot? (h : Commh) (i : ℕ) : Option (ℤ × SockaddrIn) :=
  match h.clientsSocks[i]?, h.clientAddress[i]? with
  | some s, some a => some (s, a)
  | _, _ => none

/-- Write `clients_socks[i]` and `client_address.asv4[i]`. -/
def setSlot (h : Commh) (i : ℕ) (x : ℤ × SockaddrIn) : Commh :=
  { h with clientsSocks := h.clientsSocks.setIfInBounds i x.1,
           clientAddress := h.clientAddress.setIfInBounds i x.2 }

end Commh

/-! ## CommsDisconnect -/

/-- The shift loop of `CommsDisconnect`: `k` rounds from slot `i` on. -/
def shiftDown (h : Commh) (i : ℕ) : ℕ → Option Commh
  | 0 => some h
  | k + 1 =>
    match h.slot? (i + 1) with
    | none => none
    | some x => shiftDown (h.setSlot i x) (i + 1) k

def commsDisconnect (h : Commh) (cid : BitVec 16) : Option (Commh × List OsCall × Bool) :=
  if !h.tcp || !h.server then
    some (setError h .disconnect "CommsDisconnect" 218, [], false)
  else if cid.toNat < 1 ∨ cid.toNat ≥ h.clientCount % 2 ^ 16 then
    some (setError h .disconnect "CommsDisconnect" 226, [], false)
  else
    match h.slot? cid.toNat with
    | none => none
    | some (sock, _) =>
      if sock ≤ 0 then
        some (setError h .disconnect "CommsDisconnect" 233, [], false)
      else
        let h := h.setSlot cid.toNat (0, .zero)
        match shiftDown h cid.toNat (h.clientCount - 1 - cid.toNat) with
        | none => none
        | some h =>
          let h := h.setSlot (h.clientCount - 1) (0, .zero)
          some ({ h with clientCount := h.clientCount - 1 }, [.shutdown sock, .close sock], true)

/-! ## comms_accepter -/

inductive Errno where
  | EAGAIN | EWOULDBLOCK | EINTR | EBADF | EINVAL | other (code : ℕ)
  deriving DecidableEq, Repr

inductive AcceptResult where
  | conn (cs : ℤ) (cli : SockaddrIn)
  | fail (errno : Errno)
  deriving DecidableEq

/-- How an iteration of a thread's loop ends. -/
inductive Loop where
  | next
  | exit
  deriving DecidableEq

/-- One iteration of the loop of `comms_accepter`. -/
def commsAccepter (h : Commh) : AcceptResult → Commh × List OsCall × Loop
  | .fail errno =>
    if errno = .EAGAIN ∨ errno = .EWOULDBLOCK then (h, [], .next)
    else if errno = .EINTR then (h, [], .next)
    else if !h.running ∧ (errno = .EBADF ∨ errno = .EINVAL) then (h, [], .exit)
    else (h, [], .next)
  | .conn cs cli =>
    if h.clientCount ≥ commsMaxClients then
      (setError h .maxClients "comms_accepter" 653,
        if cs > 0 then [.shutdown cs, .close cs] else [], .exit)
    else
      let idx := h.clientCount
      let h := h.setSlot idx (cs, cli)
      ({ h with clientCount := h.clientCount + 1 }, [], .next)

/-! ## comms__listener, the TCP server branch -/

/-- What `recv` answered; no bytes is the end of the stream. -/
inductive RecvResult where
  | data (msg : List UInt8)
  | fail (errno : Errno)
  deriving DecidableEq

/-- Where the listener stands: before `client_count` is read, before slot `i` of
`n` is read, with the descriptor it read there, and before it disconnects `i`. -/
inductive Phase where
  | top
  | scan (i n : ℕ)
  | holding (i n : ℕ) (fd : ℤ) (addr : SockaddrIn)
  | closing (i n : ℕ)
  deriving DecidableEq

/-- A call of `recvcb`. -/
structure Delivery where
  msg : List UInt8
  addr : SockaddrIn
  cid : BitVec 16
  deriving DecidableEq

/-- The first locked section. -/
def listenerCount (h : Commh) : Phase := .scan 1 h.clientCount

/-- The second locked section, for slot `i`. -/
def listenerRead (h : Commh) (i n : ℕ) : Option Phase :=
  if i < n then
    match h.slot? i with
    | none => none
    | some (fd, addr) => some (if fd ≤ 0 then .scan (i + 1) n else .holding i n fd addr)
  else some .top

/-- What the listener does with the answer of `recv`. -/
def listenerRecv (h : Commh) (i n : ℕ) (addr : SockaddrIn) : RecvResult → Phase × Option Delivery
  | .data msg =>
    if msg ≠ [] then
      (.scan (i + 1) n, if h.recvcb then some ⟨msg, addr, BitVec.ofNat 16 i⟩ else none)
    else (.closing i n, none)
  | .fail errno =>
    if errno = .EAGAIN ∨ errno = .EWOULDBLOCK then (.scan (i + 1) n, none)
    else if errno = .EINTR then (.scan (i + 1) n, none)
    else (.closing i n, none)

/-- The listener's `CommsDisconnect`. -/
def listenerDisconnect (h : Commh) (i n : ℕ) : Option (Commh × List OsCall × Phase) :=
  match commsDisconnect h (BitVec.ofNat 16 i) with
  | none => none
  | some (h, calls, _) => some (h, calls, .scan (i + 1) n)

/-! ## CommsClose -/

/-- The loop of `CommsClose`: `k` rounds from slot `i` on. -/
def closeSlots (h : Commh) (i : ℕ) : ℕ → Option (Commh × List OsCall)
  | 0 => some (h, [])
  | k + 1 =>
    match h.slot? i with
    | none => none
    | some (sock, _) =>
      if sock > 0 then
        match closeSlots (h.setSlot i (-1, .zero)) (i + 1) k with
        | none => none
        | some (h, calls) => some (h, .shutdown sock :: .close sock :: calls)
      else closeSlots h (i + 1) k

/-- `CommsClose`; the two numbers are what the `pthread_join`s return. -/
def commsClose (h : Commh) (rcListener rcAccepter : ℤ) : Option (Commh × List OsCall × Bool) :=
  match closeSlots h 0 h.clientCount with
  | none => none
  | some (h, calls) =>
    let h := { h with running := false }
    let calls := calls ++ [.join h.listener]
    if rcListener ≠ 0 then
      some (setError h .closeComms "CommsClose" 291, calls, false)
    else if h.server then
      let calls := calls ++ [.join h.accepter]
      if rcAccepter ≠ 0 then
        some (setError h .closeComms "CommsClose" 298, calls, false)
      else some (h, calls, true)
    else some (h, calls, true)

/-! ## comms_tcpserver_init__opt -/

structure CommsOpt where
  ipv6 : Bool
  localIp : Option (BitVec 32)
  localPort : BitVec 16
  recvcb : Bool

/-- What the system calls of an `Init` answer, the two thread ids and what the
joins of a `CommsClose` on an error path return. -/
structure InitEnv where
  socket : ℤ
  bind : ℤ
  listen : ℤ
  listenerRc : ℤ
  accepterRc : ℤ
  listenerTid : ℕ
  accepterTid : ℕ
  joinListener : ℤ
  joinAccepter : ℤ

/-- The local address from the options or the defaults. -/
def localAddressOf (h : Commh) (opt : CommsOpt) : SockaddrIn :=
  { h.localAddress with
    sinFamily := afInet
    sinPort := if opt.localPort ≠ 0 then opt.localPort else commsDefListenPort
    sinAddr := opt.localIp.getD commsDefListenIp }

/-- An error path of an `Init` that calls `CommsClose` and returns `false`. -/
def closeAndFail (h : Commh) (env : InitEnv) (calls : List OsCall) :
    Option (Commh × List OsCall × Bool) :=
  match commsClose h env.joinListener env.joinAccepter with
  | none => none
  | some (h, closing, _) => some (h, calls ++ closing, false)

/-- The thread creation at the end of `comms_tcpserver_init__opt`. -/
def startServer (h : Commh) (env : InitEnv) (calls : List OsCall) : Commh × List OsCall × Bool :=
  if h.running then
    if env.listenerRc ≠ 0 then
      let h := setError h .failedToCreateListener "comms_tcpserver_init__opt" 828
      ({ h with running := false }, calls, false)
    else
      let h := { h with listener := env.listenerTid }
      let calls := calls ++ [.create env.listenerTid]
      if env.accepterRc ≠ 0 then
        let h := setError h .failedToCreateAccepter "comms_tcpserver_init__opt" 836
        ({ h with running := false }, calls, false)
      else ({ h with accepter := env.accepterTid }, calls ++ [.create env.accepterTid], true)
  else (h, calls, true)

def commsTcpserverInitOpt (h : Commh) (opt : CommsOpt) (env : InitEnv) :
    Option (Commh × List OsCall × Bool) :=
  if opt.ipv6 then none  -- TODO aborts
  else
    let h := { h with localAddress := localAddressOf h opt }
    if env.socket < 0 then
      some (setError h .socket "comms_tcpserver_init__opt" 791, [], false)
    else
      let calls := [OsCall.socket env.socket]
      let h := { h with clientsSocks := h.clientsSocks.setIfInBounds 0 env.socket }
      if env.bind < 0 then
        let h := { h with clientsSocks := h.clientsSocks.setIfInBounds 0 (-1) }
        closeAndFail (setError h .bind "comms_tcpserver_init__opt" 803) env calls
      else if env.listen < 0 then
        closeAndFail (setError h .listen "comms_tcpserver_init__opt" 811) env calls
      else
        let h := { h with recvcb := opt.recvcb, running := opt.recvcb, tcp := true, server := true,
                          clientCount := 1 }
        some (startServer h env calls)

/-! ## comms_udp_init__opt and comms_tcpclient_init__opt -/

/-- The thread creation at the end of both functions; `f` and `line` go into the
error. -/
def startListener (h : Commh) (env : InitEnv) (f : String) (line : ℕ) (calls : List OsCall) :
    Commh × List OsCall × Bool :=
  if h.running then
    if env.listenerRc ≠ 0 then
      ({ setError h .failedToCreateListener f line with running := false }, calls, false)
    else ({ h with listener := env.listenerTid }, calls ++ [.create env.listenerTid], true)
  else (h, calls, true)

def commsUdpInitOpt (h : Commh) (opt : CommsOpt) (env : InitEnv) : Commh × List OsCall × Bool :=
  -- with `ipv6` the local address stays as it is
  let h := if opt.ipv6 then h else { h with localAddress := localAddressOf h opt }
  if env.socket < 0 then (setError h .socket "comms_udp_init__opt" 716, [], false)
  else
    let calls := [OsCall.socket env.socket]
    let h := { h with clientsSocks := h.clientsSocks.setIfInBounds 0 env.socket }
    if env.bind < 0 then
      let h := { h with clientsSocks := h.clientsSocks.setIfInBounds 0 (-1) }
      (setError h .bind "comms_udp_init__opt" 728, calls, false)
    else
      let h := { h with recvcb := opt.recvcb, clientCount := 0, running := opt.recvcb, tcp := false,
                        server := false }
      startListener h env "comms_udp_init__opt" 743 calls

def commsTcpclientInitOpt (h : Commh) (opt : CommsOpt) (env : InitEnv) :
    Option (Commh × List OsCall × Bool) :=
  if opt.ipv6 then none  -- TODO aborts
  else
    let h := { h with localAddress := localAddressOf h opt }
    if env.socket < 0 then
      some (setError h .socket "comms_tcpclient_init__opt" 882, [], false)
    else
      let calls := [OsCall.socket env.socket]
      let h := { h with clientsSocks := h.clientsSocks.setIfInBounds 0 env.socket }
      if env.bind < 0 then
        let h := { h with clientsSocks := h.clientsSocks.setIfInBounds 0 (-1) }
        closeAndFail (setError h .bind "comms_tcpclient_init__opt" 894) env calls
      else
        let h := { h with recvcb := opt.recvcb, clientCount := 0, running := opt.recvcb, tcp := true,
                          server := false }
        some (startListener h env "comms_tcpclient_init__opt" 910 calls)

/-! ## CommsConnect -/

/-- The end of `CommsConnect`: the peer's address goes to slot `i`. -/
def connected (h : Commh) (i : ℕ) (ip : BitVec 32) (port : BitVec 16) : Option (Commh × Bool) :=
  match h.clientAddress[i]? with
  | none => none
  | some a =>
    let a := { a with sinAddr := ip, sinPort := port }
    some ({ h with clientAddress := h.clientAddress.setIfInBounds i a,
                   clientCount := if h.clientCount = 0 then 1 else h.clientCount }, true)

/-- `CommsConnect` with an address given; `ret` is what `connect` returns. -/
def commsConnect (h : Commh) (ip : BitVec 32) (port : BitVec 16) (ret : ℤ) :
    Option (Commh × Bool) :=
  if h.server then some (setError h .connect "CommsConnect" 312, false)
  else if h.tcp then
    if ret < 0 then some (setError h .connect "CommsConnect" 340, false)
    else connected { h with clientCount := h.clientCount + 1 } h.clientCount ip port
  else connected h 0 ip port

/-! ## comms_send__opt -/

structure CommsSendOpt where
  ip : Option (BitVec 32)
  port : BitVec 16
  cid : BitVec 16

/-- The loop over all clients: `k` rounds from slot `i` on, stopping at the first
send that fails.  `ret j` is what the `j`-th `send` of the call returns. -/
def sendAll (h : Commh) (msg : List UInt8) (ret : ℕ → ℤ) (i : ℕ) :
    ℕ → Option (Commh × List OsCall × Bool)
  | 0 => some (h, [], true)
  | k + 1 =>
    match h.slot? i with
    | none => none
    | some (sock, _) =>
      if ret (i - 1) ≤ 0 then
        some (setError h .failedToSend "comms_send__opt" 417, [.send sock msg], false)
      else
        match sendAll h msg ret (i + 1) k with
        | none => none
        | some (h, calls, r) => some (h, .send sock msg :: calls, r)

/-- The single `send` of `comms_send__opt` over TCP. -/
def sendOne (h : Commh) (msg : List UInt8) (ret : ℕ → ℤ) (cid : ℕ) :
    Option (Commh × List OsCall × Bool) :=
  match h.slot? cid with
  | none => none
  | some (sock, _) =>
    if sock < 0 then
      some (setError h .noRemoteProvided "comms_send__opt" 439, [], false)
    else if ret 0 ≤ 0 then
      some (setError h .failedToSend "comms_send__opt" 447, [.send sock msg], false)
    else some (h, [.send sock msg], true)

/-- The remote address of a datagram: what the options give replaces what the
handle remembers. -/
def udpRemote (h : Commh) (opt : CommsSendOpt) (a : SockaddrIn) : SockaddrIn :=
  if opt.port ≠ 0 ∧ h.clientCount > 0 then { a with sinPort := opt.port }
  else if opt.ip ≠ none ∧ h.clientCount > 0 then { a with sinAddr := opt.ip.getD 0 }
  else if h.clientCount = 0 then { a with sinAddr := opt.ip.getD 0, sinPort := opt.port }
  else a

def commsSendOpt (h : Commh) (msg : List UInt8) (opt : CommsSendOpt) (ret : ℕ → ℤ) :
    Option (Commh × List OsCall × Bool) :=
  if h.tcp then
    if h.server then
      if opt.cid.toNat < 1 then
        some (setError h .failedToSend "comms_send__opt" 405, [], false)
      else if opt.cid.toNat ≠ commsSendToAllClients then
        sendOne h msg ret opt.cid.toNat
      else sendAll h msg ret 1 (h.clientCount - 1)
    else if opt.cid.toNat = commsSendToAllClients then
      some (setError h .failedToSend "comms_send__opt" 430, [], false)
    else sendOne h msg ret 0
  else if (opt.port = 0 ∨ opt.ip = none) ∧ h.clientCount = 0 then
    some (setError h .noRemoteProvided "comms_send__opt" 455, [], false)
  else
    match h.slot? 0 with
    | none => none
    | some (sock, a) =>
      let a := { udpRemote h opt a with sinFamily := afInet }
      let h := { h with clientAddress := h.clientAddress.setIfInBounds 0 a }
      if ret 0 ≤ 0 then
        some (setError h .failedToSend "comms_send__opt" 475, [.sendto sock msg a], false)
      else some (h, [.sendto sock msg a], true)

end DataCommons.Comms
