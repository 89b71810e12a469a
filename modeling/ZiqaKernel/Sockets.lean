/-
The socket calls of the Linux ABI (`net/socket.rs`, `abi/linux/net.rs` and the socket
calls of `abi/linux/mod.rs`).  All processes share one table of sockets, by descriptor
number.  What the TCP/IP stack answers and whether a copy from or to the memory of the
caller succeeds are arguments of the calls.
-/
import ZiqaKernel.DescriptorCalls

namespace ZiqaKernel

open Function

/-- The descriptors and capabilities of the processes, and the sockets of them all. -/
structure SocketKernel (P : Type) where
  fds : P → FdTable
  capabilities : P → CapabilitySpace
  sockets : SocketManager P

/-- The result of a call: its reply, the bytes it hands to the caller, and the kernel. -/
structure SocketResult (P : Type) where
  reply : SyscallReply
  kernel : SocketKernel P
  bytes : List UInt8

/-- What the stack knows of a connection from outside: nothing yet, a failure, or the
address of the peer and the handle for the next one. -/
inductive Arrival where
  | nothing
  | failed
  | arrived (remote : SockAddr) (handle : Nat)

namespace SocketKernel

variable {P : Type}

/-! The table -/

/-- An assignment through `get_mut`. -/
def modify (k : SocketKernel P) (n : Nat) (f : SocketEntry P → SocketEntry P) : SocketKernel P :=
  { k with sockets := k.sockets.modify n f }

/-- `SocketManager::create` -/
def create (k : SocketKernel P) (n : Nat) (e : SocketEntry P) : SocketKernel P :=
  { k with sockets := update k.sockets n (some e) }

/-- `SocketManager::remove` -/
def remove (k : SocketKernel P) (n : Nat) : SocketKernel P :=
  { k with sockets := k.sockets.remove n }

def listensOn (k : SocketKernel P) (port : UInt16) (addr : Vector UInt8 4) (n : Nat) : Bool :=
  (k.sockets n).any fun e => e.state = .listening &&
    e.localAddr.any fun a => a.port = port && (a.addr = SockAddr.unspecified || a.addr = addr)

/-- `find_listener`; the numbers of descriptors are below eight. -/
def findListener (k : SocketKernel P) (port : UInt16) (addr : Vector UInt8 4) : Option Nat :=
  (List.range 8).find? (k.listensOn port addr)

/-- `find_any_listener` -/
def findAnyListener (k : SocketKernel P) : Option Nat :=
  (List.range 8).find? fun n => (k.sockets n).any fun e => e.state = .listening

variable [DecidableEq P]

def setFds (k : SocketKernel P) (p : P) (t : FdTable) : SocketKernel P :=
  { k with fds := update k.fds p t }

/-! The calls -/

def answer (n : Nat) (k : SocketKernel P) : SocketResult P := ⟨.ok n, k, []⟩

def errno (n : Nat) (k : SocketKernel P) : SocketResult P := answer (negErrno n) k

def fails (e : AbiError) (k : SocketKernel P) : SocketResult P := ⟨.err e, k, []⟩

/-- `sys_socket` -/
def sysSocket (p : P) (domain socktype : UInt32) (k : SocketKernel P) : SocketResult P :=
  if (k.capabilities p).hasPermission .network true false then
    match (k.fds p).allocFile (asciiBytes "socket:") socktype with
    | none => fails (.other "EMFILE") k
    | some (fd, t) => answer fd ((k.setFds p t).create fd (.new p domain socktype))
  else fails .permissionDenied k

/-- `sys_bind`; the address is missing where the pointer is null. -/
def sysBind (fd : Nat) (addr : Option (Except AbiError SockAddr)) (k : SocketKernel P) :
    SocketResult P :=
  match k.sockets fd with
  | none => errno 9 k
  | some e =>
    if e.state ≠ .created then errno 22 k
    else match addr with
      | none => answer 0 (k.modify fd fun e => { e with state := .bound })
      | some (.error err) => fails err k
      | some (.ok a) => answer 0 (k.modify fd fun e => { e with
          state := .bound
          localAddr := some a })

/-- `sys_listen`; `stack` is the handle that the stack gives a listener, if it does. -/
def sysListen (fd : Nat) (stack : Option Nat) (k : SocketKernel P) : SocketResult P :=
  match k.sockets fd with
  | none => errno 9 k
  | some e =>
    if e.domain = .inet then
      if e.socktype = .stream ∧ e.localAddr.isSome then
        match stack with
        | none => errno 22 k
        | some h => answer 0 (k.modify fd fun e => { e with
            state := .listening
            handle := some h })
      else errno 22 k
    else answer 0 (k.modify fd fun e => { e with state := .listening })

def ask (k : SocketKernel P) (fd listener : Nat) : SocketKernel P :=
  (k.modify listener fun e => { e with pending := e.pending ++ [fd] }).modify fd fun e => { e with
      state := .connected
      asked := some listener }

/-- `sys_connect`; `stack` is the handle of a connection that the stack has made. -/
def sysConnect (fd : Nat) (addr : Option (Except AbiError SockAddr)) (stack : Option Nat)
    (k : SocketKernel P) : SocketResult P :=
  match addr with
  | none => errno 14 k
  | some (.error err) => fails err k
  | some (.ok raw) =>
    match k.sockets.live fd with
    | none => errno 9 k
    | some e =>
      let k := k.modify fd fun e => { e with remoteAddr := some raw }
      if raw.isLocal then
        match (k.findListener raw.port raw.addr).or k.findAnyListener with
        | none => errno 111 k
        | some listener => answer 0 (k.ask fd listener)
      else if e.domain = .inet ∧ e.socktype = .stream then
        if e.state = .connected then errno 111 k
        else match stack with
          | none => errno 111 k
          | some h => answer 0 (k.modify fd fun e => { e with
              state := .connected
              handle := some h
              remoteAddr := some { raw with family := 2 } })
      else answer 0 (k.modify fd fun e => { e with state := .connected })

def join (k : SocketKernel P) (listener client fd : Nat) : SocketKernel P :=
  (k.modify fd fun e => { e with
    state := .connected
    paired := some client
    localAddr := (k.sockets listener).bind (·.localAddr)
    remoteAddr := (k.sockets client).bind (·.localAddr) }).modify client
    fun e => { e with paired := some fd }

def pop (k : SocketKernel P) (listener : Nat) : SocketKernel P :=
  k.modify listener fun e => { e with pending := e.pending.dropLast }

/-- The part of `sys_accept` for a local client.  The kernel panics if the client is
gone. -/
def acceptLocal (p : P) (listener client : Nat) (k : SocketKernel P) : SocketResult P :=
  let k := k.pop listener
  match (k.fds p).allocFile (asciiBytes "socket:") 1 with
  | none => errno 24 k
  | some (fd, t) =>
    let k := (k.setFds p t).create fd (.new p 2 1)
    if (k.sockets client).isSome then answer fd (k.join listener client fd)
    else ⟨.stopped .panicked, k, []⟩

/-- `tcp_accept` moves a connection from the listener to the new socket. -/
def takeOver (k : SocketKernel P) (listener fd h next : Nat) (a remote : SockAddr) :
    SocketKernel P :=
  (k.modify fd fun e => { e with
    handle := some h
    state := .connected
    localAddr := some a
    remoteAddr := some { remote with family := 2 } }).modify listener
    fun e => { e with handle := some next }

/-- The part of `sys_accept` for clients from outside, with `tcp_accept`; `written` tells
whether the address can be handed to the caller. -/
def acceptOutside (p : P) (listener : Nat) (arrival : Arrival) (written : Except AbiError Unit)
    (k : SocketKernel P) : SocketResult P :=
  match (k.fds p).allocFile (asciiBytes "socket:") 1 with
  | none => errno 24 k
  | some (fd, t) =>
    let k := (k.setFds p t).create fd (.new p 2 1)
    match (k.sockets listener).filter (·.state = .listening) with
    | none => errno 11 (k.remove fd)
    | some e =>
      match e.handle, e.localAddr, arrival with
      | some h, some a, .arrived remote next =>
        match written with
        | .ok () => answer fd (k.takeOver listener fd h next a remote)
        | .error err => fails err (k.takeOver listener fd h next a remote)
      | some _, some _, .nothing => errno 11 (k.remove fd)
      | _, _, _ => errno 22 (k.remove fd)

/-- `sys_accept` -/
def sysAccept (p : P) (fd : Nat) (arrival : Arrival) (written : Except AbiError Unit)
    (k : SocketKernel P) : SocketResult P :=
  match k.sockets fd with
  | none => errno 9 k
  | some e =>
    if e.state ≠ .listening then errno 22 k
    else match e.pending.getLast? with
      | some client => acceptLocal p fd client k
      | none =>
        if e.domain = .inet ∧ e.socktype = .stream then
          acceptOutside p fd arrival written k
        else errno 11 k

/-- `sys_sendto`; the buffer is missing where its pointer is null. -/
def sysSendto (p : P) (fd : Nat) (buf : Option (Except AbiError (List UInt8)))
    (k : SocketKernel P) : SocketResult P :=
  let r := k.sockets.sendto ((k.capabilities p).hasPermission .network true false) fd
    (buf.map fun copied => (copied.mapError .err, [])) []
  ⟨r.reply, { k with sockets := r.sockets }, r.memory⟩

/-- `sys_recvfrom`; the buffer is missing where its pointer is null, and `copied` tells
whether it can take the bytes. -/
def sysRecvfrom (p : P) (fd : Nat) (buf : Option Nat) (copied : Except AbiError Unit)
    (k : SocketKernel P) : SocketResult P :=
  let r := k.sockets.recvfrom ((k.capabilities p).hasPermission .network true false) fd buf
    (fun bytes => (copied.mapError .err, if copied.isOk then bytes else [])) []
  ⟨r.reply, { k with sockets := r.sockets }, r.memory⟩

/-- `sys_close`, without what stands behind other descriptors. -/
def sysClose (p : P) (fd : Nat) (k : SocketKernel P) : SocketResult P :=
  if fd < 3 then answer 0 k
  else
    let k := if (k.sockets fd).isSome then k.remove fd else k
    match (k.fds p).close fd with
    | (true, t) => answer 0 (k.setFds p t)
    | (false, _) => errno 9 k

end SocketKernel

inductive SocketCall where
  | socket (domain socktype : UInt32)
  | bind (fd : Nat) (addr : Option (Except AbiError SockAddr))
  | listen (fd : Nat) (stack : Option Nat)
  | connect (fd : Nat) (addr : Option (Except AbiError SockAddr)) (stack : Option Nat)
  | accept (fd : Nat) (arrival : Arrival) (written : Except AbiError Unit)
  | sendto (fd : Nat) (buf : Option (Except AbiError (List UInt8)))
  | recvfrom (fd : Nat) (buf : Option Nat) (copied : Except AbiError Unit)
  | close (fd : Nat)

namespace SocketCall

variable {P : Type} [DecidableEq P]

def run (p : P) : SocketCall → SocketKernel P → SocketResult P
  | .socket domain socktype => SocketKernel.sysSocket p domain socktype
  | .bind fd addr => SocketKernel.sysBind fd addr
  | .listen fd stack => SocketKernel.sysListen fd stack
  | .connect fd addr stack => SocketKernel.sysConnect fd addr stack
  | .accept fd arrival written => SocketKernel.sysAccept p fd arrival written
  | .sendto fd buf => SocketKernel.sysSendto p fd buf
  | .recvfrom fd buf copied => SocketKernel.sysRecvfrom p fd buf copied
  | .close fd => SocketKernel.sysClose p fd

def descriptor : SocketCall → Option Nat
  | .socket _ _ => none
  | .bind fd _ | .listen fd _ | .connect fd _ _ | .accept fd _ _ | .sendto fd _
  | .recvfrom fd _ _ | .close fd => some fd

end SocketCall

end ZiqaKernel
