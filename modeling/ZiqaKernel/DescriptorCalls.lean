/-
System calls on descriptors (`abi/linux/mod.rs`): `sys_read`, `sys_write`,
`sys_close`, `sys_dup`, `sys_dup2`, and `sys_sendto`, `sys_recvfrom` on sockets.
Files and schemes are trait objects of the source; they are given by their
operations on the state of the devices.
-/
import ZiqaKernel.Capability
import ZiqaKernel.FileDescriptors
import ZiqaKernel.Ipc
import ZiqaKernel.SocketTable
import ZiqaKernel.UserMemory
import ZiqaKernel.Vfs

namespace ZiqaKernel

/-! Loads from user memory -/

section

variable [Mapper] (c : CompressionEngine)

/-- A load of the kernel, when the page-fault handler runs fewer than `fuel` times. -/
def loadByte (proc : ProcessMemory) (kernelRoot v : Nat) :
    Nat → PagedMemory → Except CopyOutcome UInt8 × PagedMemory
  | 0, s => (.error .running, s)
  | fuel + 1, s =>
    match walk s.memory.tables v 4 (proc.pageTableFrame.getD kernelRoot) with
    | some l => (.ok (s.memory.byte l.phys), s)
    | none =>
      match pageFaultHandler c (proc.pageTableFrame.getD kernelRoot) kernelRoot proc v
          ⟨false, false⟩ false s with
      | (.resumed, s') => loadByte proc kernelRoot v fuel s'
      | (_, s') => (.error .halted, s')

/-- `copy_nonoverlapping` from the addresses from `v` on. -/
def loadBytes (proc : ProcessMemory) (kernelRoot fuel : Nat) :
    Nat → Nat → PagedMemory → Except CopyOutcome (List UInt8) × PagedMemory
  | _, 0, s => (.ok [], s)
  | v, n + 1, s =>
    match loadByte c proc kernelRoot v fuel s with
    | (.error outcome, s') => (.error outcome, s')
    | (.ok b, s') =>
      match loadBytes proc kernelRoot fuel (v + 1) n s' with
      | (.error outcome, s'') => (.error outcome, s'')
      | (.ok rest, s'') => (.ok (b :: rest), s'')

/-- `copy_from_user`. -/
def copyFromUser (u : UserSpace) (fuel src len : Nat) :
    Except CopyOutcome (List UInt8) × PagedMemory :=
  if verifyUserRegion u.proc.vmas src len then
    loadBytes c u.proc u.kernelRoot fuel src len u.memory
  else (.error .err, u.memory)

theorem length_loadBytes {proc : ProcessMemory} {kernelRoot fuel v n : Nat}
    {s s' : PagedMemory} {bytes : List UInt8}
    (h : loadBytes c proc kernelRoot fuel v n s = (.ok bytes, s')) : bytes.length = n := by
  induction n generalizing v s bytes with
  | zero =>
    obtain ⟨hbytes, -⟩ := Prod.mk.inj h
    obtain rfl := Except.ok.inj hbytes
    rfl
  | succ n ih =>
    rw [loadBytes] at h
    split at h
    · cases h
    · split at h
      · cases h
      · next rest s'' hrest =>
        obtain ⟨hbytes, rfl⟩ := Prod.mk.inj h
        obtain rfl := Except.ok.inj hbytes
        rw [List.length_cons, ih hrest]

theorem length_copyFromUser {u : UserSpace} {fuel src len : Nat} {bytes : List UInt8}
    {s : PagedMemory} (h : copyFromUser c u fuel src len = (.ok bytes, s)) :
    bytes.length = len := by
  rw [copyFromUser] at h
  split at h
  · exact length_loadBytes c h
  · cases h

end

/-! What stands behind descriptors -/

/-- An implementation of the trait `File`.  A read returns a count and leaves bytes in
the buffer it is given. -/
structure FileOps (σ : Type) where
  read : (count offset : Nat) → σ → Except AbiError (Nat × (Nat → UInt8)) × σ
  write : List UInt8 → (offset : Nat) → σ → Except AbiError Nat × σ

/-- An implementation of the trait `Scheme`. -/
structure SchemeOps (σ : Type) where
  read : (id count : Nat) → σ → Except AbiError (Nat × (Nat → UInt8)) × σ
  write : (id : Nat) → List UInt8 → σ → Except AbiError Nat × σ
  close : (id : Nat) → σ → Except AbiError Unit × σ

/-- The tables of the kernel that all processes share.  `uart` holds the bytes that have
come in and have not been polled, and `closeCalls` records every call of
`Scheme::close`. -/
structure Resources (σ : Type) where
  ipc : ChannelTable
  input : List UInt8
  uart : List UInt8
  serial : List UInt8
  vfs : Vfs (FileOps σ)
  registry : List UInt8 → Option (SchemeOps σ)
  sockets : SocketManager Nat
  devices : σ
  closeCalls : List (List UInt8 × Nat)

structure SyscallContext where
  pid : Nat
  fds : FdTable
  capabilities : CapabilitySpace
  space : UserSpace

/-- What a system call hands back: a value or an error, or the processor does not get
that far. -/
inductive SyscallReply where
  | ok (value : Nat)
  | err (e : AbiError)
  | stopped (outcome : CopyOutcome)
deriving DecidableEq

def negErrno (n : Nat) : Nat := 2 ^ 64 - n

/-- The texts that `abi_error_to_errno` looks for, in order. -/
def errnoTexts : List (String × Nat) :=
  [("EPERM", 1), ("ENOENT", 2), ("ESRCH", 3), ("EINTR", 4), ("EIO", 5), ("ENXIO", 6),
    ("E2BIG", 7), ("ENOMEM", 12), ("EACCES", 13), ("EBADF", 9), ("EBUSY", 16),
    ("EEXIST", 17), ("EXDEV", 18), ("ENODEV", 19), ("ENOTDIR", 20), ("EISDIR", 21),
    ("EINVAL", 22), ("ENFILE", 23), ("EMFILE", 24), ("ENOTTY", 25), ("EFBIG", 27),
    ("ENOSPC", 28), ("ESPIPE", 29), ("EROFS", 30), ("EMLINK", 31), ("EPIPE", 32),
    ("ENOSYS", 38), ("EAGAIN", 11)]

def abiErrorToErrno : AbiError → Nat
  | .other s =>
    ((errnoTexts.find? fun e => e.1.toList <:+: s.toList).map (·.2)).getD 1
  | _ => 38

/-! Sending and receiving -/

/-- The result of a call on the table of sockets, with the memory of the caller. -/
structure SocketReply (P M : Type) where
  reply : SyscallReply
  sockets : SocketManager P
  memory : M

namespace SocketManager

variable {P M : Type} (socks : SocketManager P)

/-- `sys_sendto` on the table.  The buffer is missing where its pointer is null; `copy` is
what the copy from it gives, with the memory after it. -/
def sendto (allowed : Bool) (fd : Nat) (copy : Option (Except SyscallReply (List UInt8) × M))
    (memory : M) : SocketReply P M :=
  if !allowed then ⟨.err .permissionDenied, socks, memory⟩
  else match socks.live fd with
    | none => ⟨.ok (negErrno 9), socks, memory⟩
    | some entry =>
      match copy with
      | none => ⟨.ok 0, socks, memory⟩
      | some (.error reply, memory') => ⟨reply, socks, memory'⟩
      | some (.ok bytes, memory') => ⟨.ok bytes.length,
          (socks.modify fd fun e => { e with txBuf := e.txBuf ++ bytes }).forward entry.paired bytes,
          memory'⟩

/-- `sys_recvfrom` on the table, for a buffer of the given length; `copy` hands the bytes to
the caller. -/
def recvfrom (allowed : Bool) (fd : Nat) (buf : Option Nat)
    (copy : List UInt8 → Except SyscallReply Unit × M) (memory : M) : SocketReply P M :=
  if !allowed then ⟨.err .permissionDenied, socks, memory⟩
  else if buf.getD 0 = 0 then ⟨.ok 0, socks, memory⟩
  else match socks.live fd with
    | none => ⟨.ok (negErrno 9), socks, memory⟩
    | some entry =>
      if entry.rxBuf.length - entry.rxPos = 0 then ⟨.ok (negErrno 11), socks, memory⟩
      else
        let n := min (buf.getD 0) (entry.rxBuf.length - entry.rxPos)
        match copy ((entry.rxBuf.drop entry.rxPos).take n) with
        | (.error reply, memory') => ⟨reply, socks, memory'⟩
        | (.ok (), memory') => ⟨.ok n, socks.modify fd (·.consume n), memory'⟩

variable {socks} {allowed : Bool} {fd : Nat} {memory : M}

theorem sendto_sockets {copy : Option (Except SyscallReply (List UInt8) × M)} :
    (socks.sendto allowed fd copy memory).sockets = socks ∨
      ∃ entry bytes memory', socks fd = some entry ∧ copy = some (.ok bytes, memory') ∧
        (socks.sendto allowed fd copy memory).sockets =
          (socks.modify fd fun e => { e with txBuf := e.txBuf ++ bytes }).forward entry.paired
            bytes := by
  unfold sendto
  split
  · exact .inl rfl
  · split
    · exact .inl rfl
    · next entry hlive =>
      split
      · exact .inl rfl
      · exact .inl rfl
      · exact .inr ⟨entry, _, _, (Option.filter_eq_some_iff.mp hlive).1, rfl, rfl⟩

theorem recvfrom_sockets {buf : Option Nat} {copy : List UInt8 → Except SyscallReply Unit × M} :
    (socks.recvfrom allowed fd buf copy memory).sockets = socks ∨
      ∃ n, (socks.recvfrom allowed fd buf copy memory).sockets = socks.modify fd (·.consume n) := by
  unfold recvfrom
  split
  · exact .inl rfl
  · split
    · exact .inl rfl
    · split
      · exact .inl rfl
      · split
        · exact .inl rfl
        · dsimp only
          split
          · exact .inl rfl
          · exact .inr ⟨_, rfl⟩

/-- The caller sees of the table only its own socket. -/
theorem sendto_congr {socks' : SocketManager P} (h : socks'.live fd = socks.live fd)
    (copy : Option (Except SyscallReply (List UInt8) × M)) :
    (socks'.sendto allowed fd copy memory).reply = (socks.sendto allowed fd copy memory).reply ∧
      (socks'.sendto allowed fd copy memory).memory =
        (socks.sendto allowed fd copy memory).memory := by
  unfold sendto
  rw [h]
  split
  · exact ⟨rfl, rfl⟩
  · split
    · exact ⟨rfl, rfl⟩
    · split <;> exact ⟨rfl, rfl⟩

theorem recvfrom_congr {socks' : SocketManager P} (h : socks'.live fd = socks.live fd)
    (buf : Option Nat) (copy : List UInt8 → Except SyscallReply Unit × M) :
    (socks'.recvfrom allowed fd buf copy memory).reply =
        (socks.recvfrom allowed fd buf copy memory).reply ∧
      (socks'.recvfrom allowed fd buf copy memory).memory =
        (socks.recvfrom allowed fd buf copy memory).memory := by
  unfold recvfrom
  rw [h]
  split
  · exact ⟨rfl, rfl⟩
  · split
    · exact ⟨rfl, rfl⟩
    · split
      · exact ⟨rfl, rfl⟩
      · split
        · exact ⟨rfl, rfl⟩
        · dsimp only
          split <;> exact ⟨rfl, rfl⟩

end SocketManager

/-- The result of a call: its reply, the descriptors of the caller, the tables of the
kernel and the memory. -/
structure Served (σ : Type) where
  reply : SyscallReply
  fds : FdTable
  resources : Resources σ
  memory : PagedMemory

inductive VfsHandle (σ : Type) where
  | file (ops : FileOps σ)
  | scheme (name : List UInt8) (id : Nat)

def colon : UInt8 := 58

/-- `core::str::from_utf8` accepts the bytes. -/
def isUtf8 (bytes : List UInt8) : Bool := (ByteArray.mk bytes.toArray).validateUTF8

section

variable {σ : Type}

/-- `Process::get_vfs_handle`. -/
def getVfsHandle (fds : FdTable) (vfs : Vfs (FileOps σ)) (fd : Nat) : Option (VfsHandle σ) :=
  (fds.get fd).bind fun desc =>
    match desc.target with
    | .file _ =>
      (fds.pathOf fd).bind fun path =>
        if isUtf8 path then
          match vfs.resolveNode path with
          | .error _ => none
          | .ok p =>
            match vfs.node p with
            | some (.file ops) => some (.file ops)
            | _ => none
        else none
    | .scheme _ handle =>
      (fds.pathOf fd).bind fun path =>
        if isUtf8 path && path.contains colon then
          some (.scheme (path.takeWhile (· ≠ colon)) handle.toNat)
        else none
    | _ => none

namespace Resources

/-- `read_handle`. -/
def readHandle (k : Resources σ) (count offset : Nat) :
    VfsHandle σ → Except AbiError (Nat × (Nat → UInt8)) × σ
  | .file ops => ops.read count offset k.devices
  | .scheme name id =>
    match k.registry name with
    | none => (.error (.other "Scheme not found"), k.devices)
    | some ops => ops.read id count k.devices

/-- `write_handle`. -/
def writeHandle (k : Resources σ) (buf : List UInt8) (offset : Nat) :
    VfsHandle σ → Except AbiError Nat × σ
  | .file ops => ops.write buf offset k.devices
  | .scheme name id =>
    match k.registry name with
    | none => (.error (.other "Scheme not found"), k.devices)
    | some ops => ops.write id buf k.devices

/-- `close_handle`, whose result is ignored. -/
def closeHandle (k : Resources σ) : VfsHandle σ → Resources σ
  | .file _ => k
  | .scheme name id =>
    match k.registry name with
    | none => k
    | some ops => { k with
        devices := (ops.close id k.devices).2
        closeCalls := k.closeCalls ++ [(name, id)] }

/-- The polling loops of `read_stdin`; a full ring drops what comes in. -/
def poll (k : Resources σ) : Resources σ :=
  { k with
    input := k.uart.foldl (fun input b =>
      if input.length < 256 then input ++ [b] else input) k.input
    uart := [] }

end Resources

section

variable [Mapper] (c : CompressionEngine) (fuel : Nat)

/-- `UserSliceWo::wo(..).copy_from_slice(..)`, unless there is nothing to copy. -/
def deliver (u : UserSpace) (buf : Nat) (bytes : List UInt8) : SyscallReply × PagedMemory :=
  if bytes = [] then (.ok 0, u.memory)
  else match copyToUser c u fuel buf bytes with
    | (.ok, s) => (.ok bytes.length, s)
    | (.err, s) => (.err (.other "EFAULT: copy failed"), s)
    | (outcome, s) => (.stopped outcome, s)

/-- The branch of `sys_read` for files and schemes. -/
def readVfs (ctx : SyscallContext) (fd buf count : Nat) (k : Resources σ) : Served σ :=
  if !ctx.capabilities.hasPermission .file false false then
    ⟨.err .permissionDenied, ctx.fds, k, ctx.space.memory⟩
  else match getVfsHandle ctx.fds k.vfs fd with
    | none => ⟨.ok (negErrno 9), ctx.fds, k, ctx.space.memory⟩
    | some handle =>
      -- the buffer of `count` bytes does not fit into the address space
      if count ≥ 2 ^ 63 then ⟨.stopped .panicked, ctx.fds, k, ctx.space.memory⟩
      else match k.readHandle count (ctx.fds.offsetOf fd).toNat handle with
        | (.error e, devices) =>
          ⟨.ok (negErrno (abiErrorToErrno e)), ctx.fds, { k with devices := devices },
            ctx.space.memory⟩
        | (.ok (n, tmp), devices) =>
          let fds := ctx.fds.modify fd fun d =>
            { d with offset := d.offset + UInt64.ofNat n }
          -- `tmp[..n]`
          if n > count then
            ⟨.stopped .panicked, fds, { k with devices := devices }, ctx.space.memory⟩
          else
            let (reply, s) := deliver c fuel ctx.space buf ((List.range n).map tmp)
            ⟨reply, fds, { k with devices := devices }, s⟩

/-- `sys_read`. -/
def sysRead (ctx : SyscallContext) (fd buf count : Nat) (k : Resources σ) : Served σ :=
  if count = 0 then ⟨.ok 0, ctx.fds, k, ctx.space.memory⟩
  else
    let target : Option FdTarget := (ctx.fds.get fd).map (·.target)
    if fd = 0 ∧ (target = none ∨ target = some .stdin) then
      let k := k.poll
      let n := min (min count 256) k.input.length
      let (reply, s) := deliver c fuel ctx.space buf (k.input.take n)
      ⟨reply, ctx.fds, { k with input := k.input.drop n }, s⟩
    else match target with
      | some (.pipeRead id) =>
        match k.ipc.recv id.toNat with
        | .error _ => ⟨.ok 0, ctx.fds, k, ctx.space.memory⟩
        | .ok (msg, ipc) =>
          let (reply, s) := deliver c fuel ctx.space buf (msg.data.take count)
          ⟨reply, ctx.fds, { k with ipc := ipc }, s⟩
      | some (.file _) => readVfs c fuel ctx fd buf count k
      | some (.scheme _ _) => readVfs c fuel ctx fd buf count k
      | _ => ⟨.ok (negErrno 9), ctx.fds, k, ctx.space.memory⟩

/-- The branch of `sys_write` for files and schemes. -/
def writeVfs (ctx : SyscallContext) (fd : Nat) (bytes : List UInt8) (s : PagedMemory)
    (k : Resources σ) : Served σ :=
  if !ctx.capabilities.hasPermission .file true false then
    ⟨.err .permissionDenied, ctx.fds, k, s⟩
  else match getVfsHandle ctx.fds k.vfs fd with
    | none => ⟨.ok (negErrno 9), ctx.fds, k, s⟩
    | some handle =>
      match k.writeHandle bytes (ctx.fds.offsetOf fd).toNat handle with
      | (.error e, devices) =>
        ⟨.ok (negErrno (abiErrorToErrno e)), ctx.fds, { k with devices := devices }, s⟩
      | (.ok n, devices) =>
        ⟨.ok n, ctx.fds.modify fd fun d => { d with offset := d.offset + UInt64.ofNat n },
          { k with devices := devices }, s⟩

/-- `sys_write`. -/
def sysWrite (ctx : SyscallContext) (fd buf count : Nat) (k : Resources σ) : Served σ :=
  if count = 0 then ⟨.ok 0, ctx.fds, k, ctx.space.memory⟩
  else if count ≥ 2 ^ 63 then ⟨.stopped .panicked, ctx.fds, k, ctx.space.memory⟩
  else match copyFromUser c ctx.space fuel buf count with
    | (.error .err, s) => ⟨.err (.other "EFAULT: copy failed"), ctx.fds, k, s⟩
    | (.error outcome, s) => ⟨.stopped outcome, ctx.fds, k, s⟩
    | (.ok bytes, s) =>
      let target : Option FdTarget := (ctx.fds.get fd).map (·.target)
      if (fd = 1 ∨ fd = 2) ∧ (target = none ∨ target = some .stdout ∨ target = some .stderr) then
        ⟨.ok count, ctx.fds, { k with serial := k.serial ++ bytes }, s⟩
      else match target with
        | some (.pipeWrite id) =>
          if !ctx.capabilities.hasPermission .ipcChannel true false then
            ⟨.err .permissionDenied, ctx.fds, k, s⟩
          else match k.ipc.send id.toNat ctx.pid bytes with
            | .ok ipc => ⟨.ok count, ctx.fds, { k with ipc := ipc }, s⟩
            | .error _ => ⟨.ok (negErrno 11), ctx.fds, k, s⟩
        | some (.file _) => writeVfs ctx fd bytes s k
        | some (.scheme _ _) => writeVfs ctx fd bytes s k
        | _ => ⟨.ok (negErrno 9), ctx.fds, k, s⟩

/-- `sys_sendto`. -/
def sysSendto (ctx : SyscallContext) (fd buf len : Nat) (k : Resources σ) : Served σ :=
  let copy :=
    if buf = 0 ∨ len = 0 then none
    else if len ≥ 2 ^ 63 then some (.error (.stopped .panicked), ctx.space.memory)
    else match copyFromUser c ctx.space fuel buf len with
      | (.error .err, s) => some (.error (.err (.other "EFAULT")), s)
      | (.error outcome, s) => some (.error (.stopped outcome), s)
      | (.ok bytes, s) => some (.ok bytes, s)
  let r := k.sockets.sendto (ctx.capabilities.hasPermission .network true false) fd copy
    ctx.space.memory
  ⟨r.reply, ctx.fds, { k with sockets := r.sockets }, r.memory⟩

/-- `sys_recvfrom`. -/
def sysRecvfrom (ctx : SyscallContext) (fd buf len : Nat) (k : Resources σ) : Served σ :=
  let copy (bytes : List UInt8) :=
    match copyToUser c ctx.space fuel buf bytes with
    | (.ok, s) => (.ok (), s)
    | (.err, s) => (.error (.err (.other "EFAULT")), s)
    | (outcome, s) => (.error (.stopped outcome), s)
  let r := k.sockets.recvfrom (ctx.capabilities.hasPermission .network true false) fd
    (if buf = 0 then none else some len) copy ctx.space.memory
  ⟨r.reply, ctx.fds, { k with sockets := r.sockets }, r.memory⟩

end

/-- `sys_close`, with the reply, the descriptors and the tables after it. -/
def sysClose (fds : FdTable) (fd : Nat) (k : Resources σ) : Nat × FdTable × Resources σ :=
  if fd < 3 then (0, fds, k)
  else
    let k := if (k.sockets fd).isSome then { k with sockets := k.sockets.remove fd } else k
    let k := match getVfsHandle fds k.vfs fd with
      | none => k
      | some handle => k.closeHandle handle
    match fds.close fd with
    | (true, fds') => (0, fds', k)
    | (false, fds') => (negErrno 9, fds', k)

/-- `sys_dup`. -/
def sysDup (fds : FdTable) (oldfd : Nat) : Nat × FdTable :=
  match fds.dup oldfd none with
  | some (newfd, fds') => (newfd, fds')
  | none => (negErrno 9, fds)

/-- `sys_dup2`. -/
def sysDup2 (fds : FdTable) (oldfd newfd : Nat) : Nat × FdTable :=
  if oldfd = newfd then (if (fds.get oldfd).isSome then newfd else negErrno 9, fds)
  else match fds.dup oldfd (some newfd) with
    | some (fd, fds') => (fd, fds')
    | none => (negErrno 9, fds)

end

end ZiqaKernel
