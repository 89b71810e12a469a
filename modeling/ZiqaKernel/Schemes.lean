/-
The schemes that the VFS forwards to (`scheme/`, `event.rs`).  An operation runs until
it returns, asks for the lock of the scheme registry while it has it, or has to wait for
another process.  The schemes `acpi`, `proc` and the display bridges, which do neither of
the latter, are given by their answers.
-/
import ZiqaKernel.ByteReader
import ZiqaKernel.DescriptorCalls

namespace ZiqaKernel

open Function

inductive SchemeEnd where
  | refused (e : AbiError)
  /-- It asks for the lock of the registry, which it has already. -/
  | reacquires
  /-- It waits for another process, with or without the lock of the registry. -/
  | waits (holding : Bool)
deriving DecidableEq

/-- The lock of the registry is asked for again, or kept during a wait. -/
def SchemeEnd.Offends : SchemeEnd → Prop
  | .refused _ => False
  | .reacquires => True
  | .waits holding => holding = true

/-! What the schemes keep -/

structure HandleTable (α : Type) where
  next : Nat
  entries : Nat → Option α

namespace HandleTable

variable {α : Type}

def insert (t : HandleTable α) (a : α) : HandleTable α where
  next := t.next + 1
  entries := update t.entries t.next (some a)

def set (t : HandleTable α) (id : Nat) (a : Option α) : HandleTable α :=
  { t with entries := update t.entries id a }

end HandleTable

structure TextHandle where
  data : List UInt8
  offset : Nat

namespace TextHandle

def bytes (h : TextHandle) (count : Nat) : List UInt8 := (h.data.drop h.offset).take count

def advance (h : TextHandle) (count : Nat) : TextHandle :=
  { h with offset := h.offset + (h.bytes count).length }

end TextHandle

inductive NamespaceHandle where
  | list (text : TextHandle)
  | serviceInfo (text : TextHandle)
  | servicePath (text : TextHandle)
  | schemeCreation (name : Name) (buf : List UInt8)

inductive MemoryType where
  | allocated (frame : Nat)
  | physical

structure MemoryHandle where
  memType : MemoryType
  offset : Nat

inductive SerioKind where
  | device (index : Nat)
  | schemeRoot

inductive PacketKind where
  | openPath
  | read
  | write
  | close

def PacketKind.number : PacketKind → Nat
  | .openPath => 1
  | .read => 2
  | .write => 3
  | .close => 4

structure Packet where
  id : Nat
  kind : PacketKind
  arg1 : Nat
  arg2 : Nat
  arg3 : Nat

def Packet.toBytes (p : Packet) : List UInt8 :=
  leBytes 8 p.id ++ leBytes 8 p.kind.number ++ leBytes 8 p.arg1 ++ leBytes 8 p.arg2 ++
    leBytes 8 p.arg3

/-- The requests of a scheme that a daemon serves, and its responses by request. -/
structure UserScheme where
  todo : List Packet
  responses : Nat → Option (Option Int)
  nextId : Nat

structure IoEvent where
  id : UInt64
  flags : UInt64
  data : UInt64

def IoEvent.toBytes (e : IoEvent) : List UInt8 :=
  leBytes 8 e.id.toNat ++ leBytes 8 e.flags.toNat ++ leBytes 8 e.data.toNat

structure RegEntry where
  queueId : Nat
  flags : UInt64
  data : UInt64

structure PlainScheme (σ : Type) extends SchemeOps σ where
  openPath : List UInt8 → (flags : Nat) → σ → Except AbiError Nat × σ

inductive Scheme (σ : Type) where
  | debug
  | pipe (pipes : Nat → Option (List UInt8))
  | time
  | irq
  | keyboard
  | dtb (offsets : HandleTable Nat)
  | memory (handles : HandleTable MemoryHandle)
  | event
  | serio
  | user (u : UserScheme)
  | sys (handles : HandleTable TextHandle)
  | rand (state : UInt64)
  | namespaces (handles : HandleTable NamespaceHandle)
  | plain (ops : PlainScheme σ)

/-- What an operation finds and does not change: the capabilities of the caller, the
clock, the table of processes as `sys:context` prints it, the interrupts as a reader of
`irq:` finds them when one has come, and where the buffer of the caller lies. -/
structure SchemeInputs where
  capabilities : CapabilitySpace
  uptimeTicks : Nat
  uptimeMs : Nat
  contexts : List UInt8
  wokenIrqs : UInt8 → Option (List UInt8)
  bufferAt : Nat

/-- The registry with its lock, and the tables of the kernel that schemes use. -/
structure SchemeState (σ : Type) where
  held : Bool
  registry : List (Name × Scheme σ)
  vfs : Vfs (FileOps σ)
  devices : σ
  pipeNextId : Nat
  nextQueueId : Nat
  queues : Nat → Option (List IoEvent)
  interests : Name → UInt64 → List RegEntry
  irqs : UInt8 → Option (List UInt8)
  apps : List (Name × List UInt8)
  serio : HandleTable SerioKind
  serioQueues : Nat → List UInt8
  input : List UInt8
  editorInput : List UInt8
  dtbData : List UInt8
  physical : Nat → UInt8
  inputs : SchemeInputs

abbrev SchemeM (σ α : Type) : Type := Fallible (SchemeState σ) SchemeEnd α

abbrev ReadAnswer : Type := Nat × (Nat → UInt8)

def answered (bytes : List UInt8) : ReadAnswer := (bytes.length, fun i => bytes.getD i 0)

/-- `usize::MAX` -/
def usizeMax : Nat := 2 ^ 64 - 1

namespace SchemeState

variable {σ : Type}

def locked (s : SchemeState σ) : SchemeState σ := { s with held := true }

/-- `SchemeRegistry::get` -/
def scheme (s : SchemeState σ) (name : Name) : Option (Scheme σ) := s.registry.lookup name

def setScheme (name : Name) (scheme : Scheme σ) (s : SchemeState σ) : SchemeState σ :=
  { s with registry := s.registry.map fun e => if e.1 = name then (name, scheme) else e }

/-- `iter_names` -/
def names (s : SchemeState σ) : List Name := s.registry.map (·.1)

/-- The ring of `INPUT_BUF` and `EDITOR_BUF` drops what does not fit. -/
def pushRaw (ring : List UInt8) (b : UInt8) : List UInt8 :=
  if ring.length < 256 then ring ++ [b] else ring

/-- `push_raw_byte` for every byte. -/
def pushRawBytes (bytes : List UInt8) (s : SchemeState σ) : SchemeState σ :=
  { s with
    input := bytes.foldl pushRaw s.input
    editorInput := bytes.foldl pushRaw s.editorInput }

end SchemeState

section

variable {σ α : Type}

def refuse (e : AbiError) : SchemeM σ α := .fail (.refused e)

def refuseText (message : String) : SchemeM σ α := refuse (.other message)

/-- `SCHEME_REGISTRY.lock()` -/
def lockRegistry : SchemeM σ Unit where
  run s := if s.held then (.error .reacquires, s) else (.ok (), s.locked)

def unlockRegistry : SchemeM σ Unit := .modify fun s => { s with held := false }

/-- `WaitCondition::wait`, where another process notifies.  What comes after belongs to
the states that the other processes leave. -/
def waitForProcess : SchemeM σ α where
  run s := (.error (.waits s.held), s)

/-- `WaitCondition::wait`, where an interrupt notifies. -/
def waitForInterrupt : SchemeM σ Unit := .modify fun s => { s with irqs := s.inputs.wokenIrqs }

def onDevices (f : σ → Except AbiError α × σ) : SchemeM σ α where
  run s := ((f s.devices).1.mapError .refused, { s with devices := (f s.devices).2 })

end

/-! Numbers and paths -/

/-- `parse` for an unsigned type whose largest value is `limit`. -/
def parseDecimal (limit : Nat) (text : List UInt8) : Option Nat :=
  let digits := if text.head? = some 43 then text.tail else text
  if digits ≠ [] ∧ digits.all (fun c => 48 ≤ c && c ≤ 57) then
    let value := digits.foldl (fun n c => 10 * n + (c.toNat - 48)) 0
    if value ≤ limit then some value else none
  else none

/-- A number as `{}` prints it, and a newline. -/
def numberLine (n : Nat) : List UInt8 :=
  ((Nat.toDigits 10 n).map fun c => c.val.toUInt8) ++ [10]

def schemeName (path : List UInt8) : Name := path.takeWhile (· ≠ colon)

/-! The schemes, one after the other -/

section

variable {σ : Type}

/-! `debug:`, `time:`, `keyboard:`, `rand:` -/

def timeRead (count : Nat) : SchemeM σ ReadAnswer := do
  let ms ← .gets (·.inputs.uptimeMs)
  pure (answered ((numberLine ms).take count))

def keyboardWrite (buf : List UInt8) : SchemeM σ Nat := do
  .modify (SchemeState.pushRawBytes buf)
  pure buf.length

/-- The step of `RandScheme::next`. -/
def randStep : UInt64 := 0x9E3779B97F4A7C15

/-- The number that `RandScheme::next` makes of the counter and the time. -/
def randMix (counter : UInt64) (ms : Nat) : UInt64 :=
  let t := UInt64.ofNat ms
  let x := counter ^^^ ((t <<< 17) ||| (t >>> 47))
  let x := x ^^^ (x >>> 12)
  let x := x ^^^ (x <<< 25)
  let x := x ^^^ (x >>> 27)
  x * 0x2545F4914F6CDD1D

/-- The bytes of `n` numbers, and the counter after them. -/
def randBytes (ms : Nat) : Nat → UInt64 → List UInt8 × UInt64
  | 0, counter => ([], counter)
  | n + 1, counter =>
    let rest := randBytes ms n (counter + randStep)
    (leBytes 8 (randMix counter ms).toNat ++ rest.1, rest.2)

def randRead (name : Name) (state : UInt64) (count : Nat) : SchemeM σ ReadAnswer := do
  let ms ← .gets (·.inputs.uptimeMs)
  let drawn := randBytes ms ((count + 7) / 8) state
  .modify (SchemeState.setScheme name (.rand drawn.2))
  pure (answered (drawn.1.take count))

/-! `dtb:` -/

def dtbOpen (name : Name) (offsets : HandleTable Nat) : SchemeM σ Nat := do
  .modify (SchemeState.setScheme name (.dtb (offsets.insert 0)))
  pure offsets.next

def dtbRead (name : Name) (offsets : HandleTable Nat) (id count : Nat) : SchemeM σ ReadAnswer :=
  match offsets.entries id with
  | none => refuseText "Invalid descriptor"
  | some offset => do
      let data ← .gets (·.dtbData)
      let text : TextHandle := ⟨data, offset⟩
      .modify (SchemeState.setScheme name
        (.dtb (offsets.set id (some (text.advance count).offset))))
      pure (answered (text.bytes count))

/-! `memory:` -/

def memoryOpen (name : Name) (handles : HandleTable MemoryHandle) (path : List UInt8) :
    SchemeM σ Nat := do
  let capabilities ← .gets (·.inputs.capabilities)
  if capabilities.hasPermission .memory false false then
    if path = asciiBytes "physical" then do
      .modify (SchemeState.setScheme name (.memory (handles.insert ⟨.physical, 0⟩)))
      pure handles.next
    else refuseText "Invalid memory type"
  else refuse .permissionDenied

def memoryRead (name : Name) (handles : HandleTable MemoryHandle) (id count : Nat) :
    SchemeM σ ReadAnswer :=
  match handles.entries id with
  | none => refuseText "Invalid descriptor"
  | some ⟨.allocated _, _⟩ => refuseText "Not supported"
  | some ⟨.physical, offset⟩ => do
      let physical ← .gets (·.physical)
      .modify (SchemeState.setScheme name
        (.memory (handles.set id (some ⟨.physical, offset + count⟩))))
      pure (count, fun i => physical (offset + i))

def memoryWrite (name : Name) (handles : HandleTable MemoryHandle) (id : Nat)
    (buf : List UInt8) : SchemeM σ Nat :=
  match handles.entries id with
  | none => refuseText "Invalid descriptor"
  | some ⟨.allocated _, _⟩ => refuseText "Not supported"
  | some ⟨.physical, offset⟩ => do
      .modify fun s => { s with
        physical := fun a =>
          if offset ≤ a ∧ a < offset + buf.length then buf.getD (a - offset) 0
          else s.physical a }
      .modify (SchemeState.setScheme name
        (.memory (handles.set id (some ⟨.physical, offset + buf.length⟩))))
      pure buf.length

def memoryClose (name : Name) (handles : HandleTable MemoryHandle) (id : Nat) : SchemeM σ Unit :=
  match handles.entries id with
  | none => refuseText "Invalid descriptor"
  | some _ => .modify (SchemeState.setScheme name (.memory (handles.set id none)))

/-! `serio:` -/

/-- The resource that a path of `serio:` names. -/
def serioKind (path : List UInt8) : Option SerioKind :=
  if path = [] ∨ path = [slash] then some .schemeRoot
  else
    match parseDecimal usizeMax path with
    | some index => if index < 2 then some (.device index) else none
    | none => none

def serioOpen (path : List UInt8) : SchemeM σ Nat :=
  match serioKind path with
  | none => refuseText "InvalidPath"
  | some kind => do
      let id ← .gets (·.serio.next)
      .modify fun s => { s with serio := s.serio.insert kind }
      pure id

def serioRead (id count : Nat) : SchemeM σ ReadAnswer := do
  match ← .gets fun s => s.serio.entries id with
  | none => refuseText "BadFileDescriptor"
  | some .schemeRoot => refuseText "InvalidPath"
  | some (.device index) =>
    if count = 0 then pure (answered [])
    else do
      let queue ← .gets fun s => s.serioQueues index
      if queue = [] then refuseText "Again"
      else do
        .modify fun s => { s with
          serioQueues := update s.serioQueues index (queue.drop count) }
        pure (answered (queue.take count))

def serioWrite (id : Nat) (buf : List UInt8) : SchemeM σ Nat := do
  match ← .gets fun s => s.serio.entries id with
  | none => refuseText "BadFileDescriptor"
  | some .schemeRoot => refuseText "InvalidPath"
  | some (.device 0) => do
      .modify (SchemeState.pushRawBytes buf)
      pure buf.length
  | some (.device _) => pure buf.length

def serioClose (id : Nat) : SchemeM σ Unit :=
  .modify fun s => { s with serio := s.serio.set id none }

/-! `pipe:` -/

def pipeOpen (name : Name) (pipes : Nat → Option (List UInt8)) : SchemeM σ Nat := do
  let id ← .gets (·.pipeNextId)
  .modify fun s => { s with pipeNextId := id + 1 }
  .modify (SchemeState.setScheme name (.pipe (update pipes id (some []))))
  pure id

def pipeRead (name : Name) (pipes : Nat → Option (List UInt8)) (id count : Nat) :
    SchemeM σ ReadAnswer :=
  match pipes id with
  | none => refuseText "Invalid pipe ID"
  | some [] => waitForProcess
  | some queue => do
      .modify (SchemeState.setScheme name
        (.pipe (update pipes id (some (queue.drop count)))))
      pure (answered (queue.take count))

def pipeWrite (name : Name) (pipes : Nat → Option (List UInt8)) (id : Nat)
    (buf : List UInt8) : SchemeM σ Nat :=
  match pipes id with
  | none => refuseText "Invalid pipe ID"
  | some queue => do
      .modify (SchemeState.setScheme name (.pipe (update pipes id (some (queue ++ buf)))))
      pure buf.length

/-! `irq:` -/

/-- The vector of an interrupt: the keyboard and the mouse have their own. -/
def irqVector (irq : UInt8) : UInt8 := if irq = 1 then 33 else if irq = 12 then 44 else irq

def irqOpen (path : List UInt8) : SchemeM σ Nat := do
  let capabilities ← .gets (·.inputs.capabilities)
  if capabilities.hasPermission .deviceIo false false then
    if path.contains colon then
      match parseDecimal 255 ((path.dropWhile (· ≠ colon)).tail) with
      | none => refuseText "Invalid argument"
      | some irq => do
          .modify fun s => { s with
            irqs := fun vector =>
              if vector = irqVector (UInt8.ofNat irq) then some ((s.irqs vector).getD [])
              else s.irqs vector }
          pure irq
    else refuseText "Invalid argument"
  else refuse .permissionDenied

def irqRead (id count : Nat) : SchemeM σ ReadAnswer := do
  let vector := irqVector (UInt8.ofNat id)
  match ← .gets fun s => s.irqs vector with
  | none => refuseText "Invalid argument"
  | some _ => do
      waitForInterrupt
      match ← .gets fun s => s.irqs vector with
      | none => refuseText "Invalid argument"
      | some queue => do
          .modify fun s => { s with
            irqs := update s.irqs vector (some (queue.drop count)) }
          pure (answered (queue.take count))

/-! `user:` and the scheme without a name -/

/-- `UserScheme::call`: the daemon has to answer. -/
def userCall {α : Type} (name : Name) (u : UserScheme) (kind : PacketKind)
    (arg1 arg2 arg3 : Nat) : SchemeM σ α := do
  .modify (SchemeState.setScheme name (.user {
    todo := u.todo ++ [⟨u.nextId, kind, arg1, arg2, arg3⟩]
    responses := update u.responses u.nextId (some none)
    nextId := u.nextId + 1 }))
  waitForProcess

def userOpen (name : Name) (u : UserScheme) (path : List UInt8) : SchemeM σ Nat :=
  if path.head? = some colon then pure usizeMax
  else userCall name u .openPath 0 0 0

/-- The daemon reads the next request, everybody else asks the daemon. -/
def userRead (name : Name) (u : UserScheme) (id count : Nat) : SchemeM σ ReadAnswer :=
  if id = usizeMax then
    if count < 40 then refuseText "Buffer too small for packet"
    else
      match u.todo with
      | [] => refuseText "EAGAIN"
      | packet :: rest => do
          .modify (SchemeState.setScheme name (.user { u with todo := rest }))
          pure (answered packet.toBytes)
  else do
    let bufferAt ← .gets (·.inputs.bufferAt)
    userCall name u .read id bufferAt count

def responseStatus (n : Nat) : Int := if n < 2 ^ 63 then n else (n : Int) - 2 ^ 64

def userWrite (name : Name) (u : UserScheme) (id : Nat) (buf : List UInt8) : SchemeM σ Nat :=
  if id = usizeMax then
    if buf.length < 16 then refuseText "Buffer too small for response"
    else do
      let request := leValue (buf.take 8)
      let status := responseStatus (leValue ((buf.drop 8).take 8))
      .modify (SchemeState.setScheme name (.user { u with
        responses := update u.responses request
          ((u.responses request).map fun _ => some status) }))
      pure 16
  else do
    let bufferAt ← .gets (·.inputs.bufferAt)
    userCall name u .write id bufferAt buf.length

def userClose (name : Name) (u : UserScheme) (id : Nat) : SchemeM σ Unit :=
  if id = usizeMax then pure () else userCall name u .close id 0 0

/-! `sys:` -/

/-- The text behind a path of `sys:`. -/
def sysText (path : List UInt8) : SchemeM σ (List UInt8) :=
  if path = asciiBytes "uname" then pure (asciiBytes "ZiqaKernel 1.0\nx86_64\n")
  else if path = asciiBytes "uptime" then do
    let ticks ← .gets (·.inputs.uptimeTicks)
    pure (numberLine ticks)
  else if path = asciiBytes "scheme" then do
    lockRegistry
    let names ← .gets SchemeState.names
    unlockRegistry
    pure (names.flatMap (· ++ [10]))
  else if path = asciiBytes "context" then .gets (·.inputs.contexts)
  else if path = asciiBytes "cpu" then pure (asciiBytes "CPU: Generic x86_64\n")
  else refuseText "No such file or directory"

def sysSchemeOpen (name : Name) (handles : HandleTable TextHandle) (path : List UInt8) :
    SchemeM σ Nat := do
  let data ← sysText (path.dropWhile (· = slash))
  .modify (SchemeState.setScheme name (.sys (handles.insert ⟨data, 0⟩)))
  pure handles.next

def sysSchemeRead (name : Name) (handles : HandleTable TextHandle) (id count : Nat) :
    SchemeM σ ReadAnswer :=
  match handles.entries id with
  | none => refuseText "Bad file descriptor"
  | some text => do
      .modify (SchemeState.setScheme name (.sys (handles.set id (some (text.advance count)))))
      pure (answered (text.bytes count))

def sysSchemeClose (name : Name) (handles : HandleTable TextHandle) (id : Nat) : SchemeM σ Unit :=
  match handles.entries id with
  | none => refuseText "Bad file descriptor"
  | some _ => .modify (SchemeState.setScheme name (.sys (handles.set id none)))

/-! `namespace:` -/

/-- `build_service_list` -/
def buildServiceList : SchemeM σ (List UInt8) := do
  let apps ← .gets (·.apps)
  lockRegistry
  let names ← .gets SchemeState.names
  unlockRegistry
  pure ((names ++ (apps.map (·.1)).filter (· ∉ names)).flatMap (· ++ [10]))

/-- `build_service_info` -/
def serviceInfo (name : Name) (path : List UInt8) : List UInt8 :=
  asciiBytes "path: " ++ path ++ asciiBytes "\nscheme-creation-cap: /scheme/" ++ name ++ [10]

def namespaceResource : List Name → SchemeM σ NamespaceHandle
  | [] => do
      let data ← buildServiceList
      pure (.list ⟨data, 0⟩)
  | [name] => do
      match ← .gets fun s => s.apps.lookup name with
      | none => refuseText "No such file or directory"
      | some path => pure (.serviceInfo ⟨serviceInfo name path, 0⟩)
  | [name, attr] => do
      match ← .gets fun s => s.apps.lookup name with
      | none => refuseText "No such service"
      | some path =>
        if attr = asciiBytes "path" then
          pure (.servicePath ⟨path ++ asciiBytes "\n[not mounted]\n", 0⟩)
        else if attr = asciiBytes "scheme-creation-cap" then pure (.schemeCreation name [])
        else refuseText "No such file or directory"
  | _ => refuseText "No such file or directory"

def namespaceOpen (name : Name) (handles : HandleTable NamespaceHandle)
    (path : List UInt8) : SchemeM σ Nat := do
  .modify (SchemeState.setScheme name (.namespaces { handles with next := handles.next + 1 }))
  let resource ← namespaceResource (components path)
  .modify (SchemeState.setScheme name (.namespaces (handles.insert resource)))
  pure handles.next

def NamespaceHandle.read (count : Nat) : NamespaceHandle → List UInt8 × NamespaceHandle
  | .list text => (text.bytes count, .list (text.advance count))
  | .serviceInfo text => (text.bytes count, .serviceInfo (text.advance count))
  | .servicePath text => (text.bytes count, .servicePath (text.advance count))
  | .schemeCreation name buf => (buf.take count, .schemeCreation name (buf.drop count))

def namespaceRead (name : Name) (handles : HandleTable NamespaceHandle) (id count : Nat) :
    SchemeM σ ReadAnswer :=
  match handles.entries id with
  | none => refuseText "Bad file descriptor"
  | some handle => do
      .modify (SchemeState.setScheme name
        (.namespaces (handles.set id (some (handle.read count).2))))
      pure (answered (handle.read count).1)

/-- A name and a path, with a zero between them, are entered as a service. -/
def namespaceWrite (name : Name) (handles : HandleTable NamespaceHandle) (id : Nat)
    (buf : List UInt8) : SchemeM σ Nat :=
  match handles.entries id with
  | none => refuseText "Bad file descriptor"
  | some (.schemeCreation service storage) => do
      if buf.contains 0 then
        let capName := buf.takeWhile (· ≠ 0)
        let capPath := (buf.dropWhile (· ≠ 0)).tail
        if utf8Valid capName ∧ utf8Valid capPath then
          .modify fun s => { s with
            apps := s.apps.filter (·.1 ≠ capName) ++ [(capName, capPath)] }
        else refuseText "Invalid UTF-8"
      .modify (SchemeState.setScheme name
        (.namespaces (handles.set id (some (.schemeCreation service (storage ++ buf))))))
      pure buf.length
  | some _ => refuseText "Read only"

/-! `event:` -/

def eventOpen : SchemeM σ Nat := do
  let id ← .gets (·.nextQueueId)
  .modify fun s => { s with
    nextQueueId := id + 1
    queues := update s.queues id (some []) }
  pure id

def eventRead (id count : Nat) : SchemeM σ ReadAnswer := do
  match ← .gets fun s => s.queues id with
  | none => refuseText "EBADF"
  | some [] => waitForProcess
  | some (event :: rest) => do
      .modify fun s => { s with queues := update s.queues id (some rest) }
      pure (answered (event.toBytes.take count))

/-- `Scheme::fevent` -/
def Scheme.fevent (id flags : Nat) : Scheme σ → Nat
  | .user u => if id = usizeMax ∧ u.todo ≠ [] then flags &&& 1 else 0
  | _ => 0

/-- `event::trigger` -/
def triggerEvent (scheme : Name) (number flags : UInt64) (s : SchemeState σ) : SchemeState σ :=
  (s.interests scheme number).foldl (fun s entry =>
    let common := flags &&& entry.flags
    if common ≠ 0 then
      { s with
        queues := update s.queues entry.queueId
          ((s.queues entry.queueId).map (· ++ [⟨number, common, entry.data⟩])) }
    else s) s

/-- An entry that is written to a queue: whose events, which, and the cookie. -/
structure Interest where
  scheme : Name
  number : UInt64
  flags : UInt64
  data : UInt64

def splitInterest (buf : List UInt8) : Option (Interest × List UInt8) := do
  let (len, rest) ← readLe 1 buf
  let (scheme, rest) ← splitBytes len rest
  if utf8Valid scheme then
    let (number, rest) ← readLe 8 rest
    let (flags, rest) ← readLe 8 rest
    let (data, rest) ← readLe 8 rest
    pure (⟨scheme, .ofNat number, .ofNat flags, .ofNat data⟩, rest)
  else none

/-- `event::register` -/
def registerInterest (queueId : Nat) (i : Interest) : SchemeM σ Unit := do
  .modify fun s => { s with
    interests := update s.interests i.scheme
      (update (s.interests i.scheme) i.number
        (s.interests i.scheme i.number ++ [⟨queueId, i.flags, i.data⟩])) }
  lockRegistry
  let scheme ← .gets fun s => s.scheme i.scheme
  unlockRegistry
  let ready := (scheme.map fun x => x.fevent i.number.toNat i.flags.toNat).getD 0
  if 0 < ready then .modify (triggerEvent i.scheme i.number (.ofNat ready)) else pure ()

/-- The loop of `EventScheme::write`; an entry has 25 bytes at least, so the number of
bytes bounds the rounds. -/
def registerAll (queueId : Nat) : Nat → List UInt8 → SchemeM σ Unit
  | 0, _ => pure ()
  | _ + 1, [] => pure ()
  | rounds + 1, buf =>
    match splitInterest buf with
    | none => refuseText "EINVAL"
    | some (interest, rest) => do
        registerInterest queueId interest
        registerAll queueId rounds rest

def eventWrite (id : Nat) (buf : List UInt8) : SchemeM σ Nat := do
  match ← .gets fun s => s.queues id with
  | none => refuseText "EBADF"
  | some _ => do
      registerAll id buf.length buf
      pure buf.length

def eventClose (id : Nat) : SchemeM σ Unit :=
  .modify fun s => { s with queues := update s.queues id none }

/-! The trait `Scheme` -/

namespace Scheme

/-- `Scheme::open` of the object that is registered under the name. -/
def openPath (name : Name) (path : List UInt8) (flags : Nat) : Scheme σ → SchemeM σ Nat
  | .debug => pure 0
  | .pipe pipes => pipeOpen name pipes
  | .time => pure 1
  | .irq => irqOpen path
  | .keyboard => pure 0
  | .dtb offsets => dtbOpen name offsets
  | .memory handles => memoryOpen name handles path
  | .event => eventOpen
  | .serio => serioOpen path
  | .user u => userOpen name u path
  | .sys handles => sysSchemeOpen name handles path
  | .rand _ => pure 0
  | .namespaces handles => namespaceOpen name handles path
  | .plain ops => onDevices (ops.openPath path flags)

/-- `Scheme::read` -/
def read (name : Name) (id count : Nat) : Scheme σ → SchemeM σ ReadAnswer
  | .debug => refuse .permissionDenied
  | .pipe pipes => pipeRead name pipes id count
  | .time => timeRead count
  | .irq => irqRead id count
  | .keyboard => refuseText "Not implemented"
  | .dtb offsets => dtbRead name offsets id count
  | .memory handles => memoryRead name handles id count
  | .event => eventRead id count
  | .serio => serioRead id count
  | .user u => userRead name u id count
  | .sys handles => sysSchemeRead name handles id count
  | .rand state => randRead name state count
  | .namespaces handles => namespaceRead name handles id count
  | .plain ops => onDevices (ops.read id count)

/-- `Scheme::write` -/
def write (name : Name) (id : Nat) (buf : List UInt8) : Scheme σ → SchemeM σ Nat
  | .debug => pure buf.length
  | .pipe pipes => pipeWrite name pipes id buf
  | .time => refuseText "Not implemented"
  | .irq => refuseText "Not implemented"
  | .keyboard => keyboardWrite buf
  | .dtb _ => refuse .permissionDenied
  | .memory handles => memoryWrite name handles id buf
  | .event => eventWrite id buf
  | .serio => serioWrite id buf
  | .user u => userWrite name u id buf
  | .sys _ => refuseText "Read only file system"
  | .rand _ => pure buf.length
  | .namespaces handles => namespaceWrite name handles id buf
  | .plain ops => onDevices (ops.write id buf)

/-- `Scheme::close` -/
def close (name : Name) (id : Nat) : Scheme σ → SchemeM σ Unit
  | .debug => pure ()
  | .pipe pipes => .modify (SchemeState.setScheme name (.pipe (update pipes id none)))
  | .time => pure ()
  | .irq => pure ()
  | .keyboard => pure ()
  | .dtb offsets => .modify (SchemeState.setScheme name (.dtb (offsets.set id none)))
  | .memory handles => memoryClose name handles id
  | .event => eventClose id
  | .serio => serioClose id
  | .user u => userClose name u id
  | .sys handles => sysSchemeClose name handles id
  | .rand _ => pure ()
  | .namespaces handles =>
    .modify (SchemeState.setScheme name (.namespaces (handles.set id none)))
  | .plain ops => onDevices (ops.close id)

end Scheme

/-! Registration -/

/-- The registry that `scheme::init` builds. -/
def initSchemes (acpi proc displayV2 display orbital input : PlainScheme σ) :
    List (Name × Scheme σ) :=
  [(asciiBytes "debug", .debug), (asciiBytes "pipe", .pipe fun _ => none),
    (asciiBytes "time", .time),
    (asciiBytes "proc", .plain proc),
    (asciiBytes "irq", .irq),
    (asciiBytes "keyboard", .keyboard),
    (asciiBytes "acpi", .plain acpi),
    (asciiBytes "dtb", .dtb ⟨1, fun _ => none⟩),
    (asciiBytes "memory", .memory ⟨1, fun _ => none⟩),
    (asciiBytes "event", .event),
    (asciiBytes "serio", .serio),
    (asciiBytes "user", .user ⟨[], fun _ => none, 1⟩),
    ([], .user ⟨[], fun _ => none, 1⟩),
    (asciiBytes "sys", .sys ⟨1, fun _ => none⟩),
    (asciiBytes "rand", .rand randStep),
    (asciiBytes "namespace", .namespaces ⟨1, fun _ => none⟩),
    (asciiBytes "display_v2", .plain displayV2),
    (asciiBytes "display", .plain display),
    (asciiBytes "orbital", .plain orbital),
    (asciiBytes "input", .plain input)]

/-- The services that `namespace::init` enters, with their paths. -/
def initApps : List (Name × List UInt8) :=
  [(asciiBytes "orbital", asciiBytes "/bin/orbital"), (asciiBytes "input", []),
    (asciiBytes "terminal", asciiBytes "/bin/terminal"),
    (asciiBytes "orblauncher", asciiBytes "/bin/orblauncher"),
    (asciiBytes "file-manager", asciiBytes "/bin/file-manager")]

/-- The state after `scheme::init`, with the given registry. -/
def SchemeState.boot (registry : List (Name × Scheme σ)) (devices : σ)
    (inputs : SchemeInputs) : SchemeState σ where
  held := false
  registry := registry
  vfs := .empty
  devices := devices
  pipeNextId := 1
  nextQueueId := 1
  queues := fun _ => none
  interests := fun _ _ => []
  irqs := fun _ => none
  apps := initApps
  serio := ⟨1, fun _ => none⟩
  serioQueues := fun _ => []
  input := []
  editorInput := []
  dtbData := []
  physical := fun _ => 0
  inputs := inputs

/-! The VFS -/

/-- What is done while the guard of the registry lives.  The guard is dropped on every
return, but an operation that is stuck does not get there. -/
def withRegistry {α : Type} (body : SchemeM σ α) : SchemeM σ α := do
  lockRegistry
  match ← body.attempt with
  | .ok a => do
      unlockRegistry
      pure a
  | .error (.refused e) => do
      unlockRegistry
      refuse e
  | .error stuck => .fail stuck

/-- `handle_scheme`; `none` where no scheme answers. -/
def handleScheme (path : List UInt8) (flags : Nat) : SchemeM σ (Option Nat) :=
  if path.contains colon then
    withRegistry do
      match ← .gets fun s => s.scheme (schemeName path) with
      | none => pure none
      | some scheme => do
          let id ← scheme.openPath (schemeName path) path flags
          pure (some id)
  else pure none

/-- `Vfs::open` -/
def vfsOpen (path : List UInt8) (flags : Nat) : SchemeM σ (VfsHandle σ) := do
  match ← handleScheme path flags with
  | some id => pure (.scheme (schemeName path) id)
  | none => do
      let vfs ← .gets (·.vfs)
      match vfs.resolveNode path with
      | .error e => refuse e
      | .ok p =>
        match vfs.node p with
        | some (.file ops) => pure (.file ops)
        | _ => refuseText "Is a directory"

def onScheme {α : Type} (name : Name) (op : Scheme σ → SchemeM σ α) : SchemeM σ α :=
  withRegistry do
    match ← .gets fun s => s.scheme name with
    | none => refuseText "Scheme not found"
    | some scheme => op scheme

/-- `read_handle` -/
def vfsRead (count offset : Nat) : VfsHandle σ → SchemeM σ ReadAnswer
  | .file ops => onDevices (ops.read count offset)
  | .scheme name id => onScheme name (Scheme.read name id count)

/-- `write_handle` -/
def vfsWrite (buf : List UInt8) (offset : Nat) : VfsHandle σ → SchemeM σ Nat
  | .file ops => onDevices (ops.write buf offset)
  | .scheme name id => onScheme name (Scheme.write name id buf)

/-- `close_handle` -/
def vfsClose : VfsHandle σ → SchemeM σ Unit
  | .file _ => pure ()
  | .scheme name id => onScheme name (Scheme.close name id)

end

end ZiqaKernel
