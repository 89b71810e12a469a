/-
The table of sockets (`net/socket.rs`).  All processes share it, and a socket is found by
the number of its descriptor.
-/
import Mathlib

namespace ZiqaKernel

open Function

inductive SocketState where
  | created
  | bound
  | listening
  | connected
  | closed
deriving DecidableEq

inductive SockDomain where
  | unix
  | inet
  | unknown (v : UInt32)
deriving DecidableEq

def SockDomain.ofNumber (v : UInt32) : SockDomain :=
  if v = 1 then .unix else if v = 2 then .inet else .unknown v

inductive SockType where
  | stream
  | dgram
  | unknown (v : UInt32)
deriving DecidableEq

def SockType.ofNumber (v : UInt32) : SockType :=
  if v = 1 then .stream else if v = 2 then .dgram else .unknown v

/-- `SockAddrInet`; the rest of the structure is zero. -/
structure SockAddr where
  family : UInt16
  port : UInt16
  addr : Vector UInt8 4
deriving DecidableEq

/-- The address `0.0.0.0`. -/
def SockAddr.unspecified : Vector UInt8 4 := #v[0, 0, 0, 0]

/-- The addresses that `sys_connect` takes for local ones. -/
def SockAddr.isLocal (a : SockAddr) : Bool :=
  a.family = 1 || (a.family = 2 && a.addr = #v[127, 0, 0, 1]) || a.addr = unspecified

/-- `SocketEntry` with all fields that are read.  `creator` and `asked` are not in the
code: the process whose call has registered the socket, and the listener that it has
asked for a connection last. -/
structure SocketEntry (P : Type) where
  state : SocketState
  domain : SockDomain
  socktype : SockType
  localAddr : Option SockAddr
  remoteAddr : Option SockAddr
  paired : Option Nat
  pending : List Nat
  txBuf : List UInt8
  rxBuf : List UInt8
  rxPos : Nat
  handle : Option Nat
  creator : P
  asked : Option Nat

variable {P : Type}

namespace SocketEntry

/-- `SocketEntry::new` -/
def new (p : P) (domain socktype : UInt32) : SocketEntry P where
  state := .created
  domain := .ofNumber domain
  socktype := .ofNumber socktype
  localAddr := none
  remoteAddr := none
  paired := none
  pending := []
  txBuf := []
  rxBuf := []
  rxPos := 0
  handle := none
  creator := p
  asked := none

def cutOff (e : SocketEntry P) : SocketEntry P :=
  { e with
    state := .closed
    paired := none }

/-- What is left after `n` bytes have been read. -/
def consume (e : SocketEntry P) (n : Nat) : SocketEntry P :=
  if e.rxPos + n ≥ e.rxBuf.length then
    { e with
      rxBuf := []
      rxPos := 0 }
  else { e with rxPos := e.rxPos + n }

end SocketEntry

abbrev SocketManager (P : Type) : Type := Nat → Option (SocketEntry P)

namespace SocketManager

variable (socks : SocketManager P)

/-- An assignment through `get_mut`. -/
def modify (n : Nat) (f : SocketEntry P → SocketEntry P) : SocketManager P :=
  update socks n ((socks n).map f)

def peer (n : Nat) : Option Nat := (socks n).bind (·.paired)

/-- `SocketManager::remove`: the socket it was paired with is closed, too. -/
def remove (n : Nat) : SocketManager P :=
  let cut := match socks.peer n with
    | none => socks
    | some m => socks.modify m SocketEntry.cutOff
  update cut n none

/-- The socket, unless it is closed. -/
def live (n : Nat) : Option (SocketEntry P) := (socks n).filter (·.state ≠ .closed)

/-- Bytes that are sent go into the buffer of the socket it is paired with. -/
def forward (target : Option Nat) (bytes : List UInt8) : SocketManager P :=
  match target with
  | none => socks
  | some m => socks.modify m fun e => { e with rxBuf := e.rxBuf ++ bytes }

variable {socks} {m n : Nat}

theorem modify_self (f : SocketEntry P → SocketEntry P) : socks.modify n f n = (socks n).map f :=
  update_self ..

theorem modify_of_ne (h : m ≠ n) (f : SocketEntry P → SocketEntry P) :
    socks.modify n f m = socks m := update_of_ne h ..

theorem modify_apply (f : SocketEntry P → SocketEntry P) (m : Nat) :
    socks.modify n f m = (socks m).map fun e => if m = n then f e else e := by
  by_cases h : m = n
  · subst h
    simp only [if_true]
    exact modify_self f
  · simp only [h, if_false, Option.map_id']
    exact modify_of_ne h f

theorem remove_apply (n m : Nat) : socks.remove n m = if m = n then none
      else if socks.peer n = some m then (socks m).map SocketEntry.cutOff else socks m := by
  rw [remove]
  by_cases hm : m = n
  · rw [if_pos hm, hm, update_self]
  · rw [if_neg hm, update_of_ne hm]
    cases socks.peer n with
    | none => rfl
    | some p =>
      dsimp only
      by_cases hp : p = m
      · rw [hp, modify_self, if_pos rfl]
      · rw [modify_of_ne (Ne.symm hp), if_neg fun h => hp (Option.some.inj h)]

end SocketManager

end ZiqaKernel
