/-
A pipe as a byte stream: what `sys_write` reports as written against what
`sys_read` returns, over every history of calls on the two ends of one pipe.
-/
import ZiqaKernel.DescriptorCalls

namespace ZiqaKernel

open ChannelTable

/-- A call on an end of a pipe.  Between two calls the processes may change in any way,
so that every call brings its caller. -/
inductive PipeCall where
  | write (ctx : SyscallContext) (fd buf count : Nat)
  | read (ctx : SyscallContext) (fd buf count : Nat)

def PipeCall.OnPipe (id : UInt32) : PipeCall → Prop
  | .write ctx fd _ _ => (ctx.fds.get fd).map (·.target) = some (.pipeWrite id)
  | .read ctx fd _ _ => (ctx.fds.get fd).map (·.target) = some (.pipeRead id)

/-- The kernel, with all bytes that writes have reported and that reads have returned. -/
structure PipeHistory (σ : Type) where
  resources : Resources σ
  written : List UInt8
  returned : List UInt8

def userBytes (root : Nat) (s : PagedMemory) (v n : Nat) : List UInt8 :=
  (List.range n).map fun i => (userByte root s (v + i)).getD 0

structure Receivable (u : UserSpace) (dst : Nat) (bytes : List UInt8) : Prop where
  region : verifyUserRegion u.proc.vmas dst bytes.length = true
  copy : CopyReady u dst bytes

section

variable {σ : Type} (c : CompressionEngine) (fuel : Nat)

/-- The bytes that a write of `count` bytes reports: larger values are error numbers. -/
def reportedBytes [Mapper] (ctx : SyscallContext) (buf count : Nat) : SyscallReply → List UInt8
  | .ok n =>
    if n ≤ count then
      match (copyFromUser c ctx.space fuel buf count).1 with
      | .ok bytes => bytes.take n
      | .error _ => []
    else []
  | _ => []

/-- The bytes that a read of at most `count` bytes returns. -/
def returnedBytes (ctx : SyscallContext) (buf count : Nat) (r : Served σ) : List UInt8 :=
  match r.reply with
  | .ok n => if n ≤ count then userBytes ctx.space.cr3 r.memory buf n else []
  | _ => []

def PipeCall.step [Mapper] : PipeCall → PipeHistory σ → PipeHistory σ
  | .write ctx fd buf count, h =>
    let r := sysWrite c fuel ctx fd buf count h.resources
    { resources := r.resources
      written := h.written ++ reportedBytes c fuel ctx buf count r.reply
      returned := h.returned }
  | .read ctx fd buf count, h =>
    let r := sysRead c fuel ctx fd buf count h.resources
    { resources := r.resources
      written := h.written
      returned := h.returned ++ returnedBytes ctx buf count r }

/-- What has been returned was written, in this order; it is all of it as soon as
nothing waits. -/
structure PipeHistory.Reliable (id : UInt32) (h : PipeHistory σ) : Prop where
  in_order : h.returned <+: h.written
  complete : h.resources.ipc.pending id.toNat = [] → h.returned = h.written

/-- A write into a pipe with room has at most 256 bytes; a read of a message has room
for all of it in memory that can be written. -/
def PipeCall.Fits (id : UInt32) : PipeCall → PipeHistory σ → Prop
  | .write ctx _ _ count, h =>
    ctx.capabilities.hasPermission .ipcChannel true false = true →
      (∀ chan, h.resources.ipc.get id.toNat = some chan → ¬ chan.IsFull → count ≤ msgMax)
  | .read ctx _ buf count, h =>
    count ≠ 0 → ∀ msg rest, h.resources.ipc.pending id.toNat = msg :: rest →
      msg.data.length ≤ count ∧ (msg.data ≠ [] → Receivable ctx.space buf msg.data)

def PipeHistory.waiting (id : UInt32) (h : PipeHistory σ) : List UInt8 :=
  (h.resources.ipc.pending id.toNat).flatMap Message.data

/-- What has been written is what has been returned and what still waits. -/
def PipeHistory.Conserved (id : UInt32) (h : PipeHistory σ) : Prop :=
  h.written = h.returned ++ h.waiting id

theorem PipeHistory.Conserved.reliable {id : UInt32} {h : PipeHistory σ}
    (hh : h.Conserved id) : h.Reliable id where
  in_order := ⟨h.waiting id, hh.symm⟩
  complete hempty := by
    rw [Conserved, waiting, hempty] at hh
    simpa using hh.symm

/-! The two calls on a pipe -/

variable {c fuel} {ctx : SyscallContext} {fd buf count : Nat} {k : Resources σ} {id : UInt32}

/-- A write changes the pipe only when it reports all its bytes; the channel then had
room. -/
theorem sysWrite_pipe [Mapper] (c : CompressionEngine) (fuel buf count : Nat) (k : Resources σ)
    (hfd : (ctx.fds.get fd).map (·.target) = some (.pipeWrite id)) :
    ((sysWrite c fuel ctx fd buf count k).resources = k ∧
      reportedBytes c fuel ctx buf count (sysWrite c fuel ctx fd buf count k).reply = []) ∨
    ∃ bytes s ipc, copyFromUser c ctx.space fuel buf count = (.ok bytes, s) ∧
      ctx.capabilities.hasPermission .ipcChannel true false = true ∧
      k.ipc.send id.toNat ctx.pid bytes = .ok ipc ∧
      sysWrite c fuel ctx fd buf count k = ⟨.ok count, ctx.fds, { k with ipc := ipc }, s⟩ := by
  have hconsole : ¬((fd = 1 ∨ fd = 2) ∧ ((ctx.fds.get fd).map (·.target) = none ∨
      (ctx.fds.get fd).map (·.target) = some .stdout ∨
      (ctx.fds.get fd).map (·.target) = some .stderr)) := by
    rw [hfd]
    simp
  rw [sysWrite]
  split
  · next hzero =>
    subst hzero
    refine .inl ⟨rfl, ?_⟩
    rw [reportedBytes, if_pos (Nat.le_refl 0)]
    split <;> simp
  · split
    · exact .inl ⟨rfl, rfl⟩
    · next hcount =>
      split
      · exact .inl ⟨rfl, rfl⟩
      · exact .inl ⟨rfl, rfl⟩
      · next bytes s hload =>
        dsimp only
        rw [if_neg hconsole, hfd]
        dsimp only
        split
        · exact .inl ⟨rfl, rfl⟩
        · next hperm =>
          split
          · next ipc hsend =>
            exact .inr ⟨bytes, s, ipc, hload, by simpa using hperm, hsend, rfl⟩
          · refine .inl ⟨rfl, ?_⟩
            rw [reportedBytes, if_neg]
            unfold negErrno
            omega

theorem sysRead_pipe [Mapper] (hfd : (ctx.fds.get fd).map (·.target) = some (.pipeRead id))
    (hcount : count ≠ 0) :
    sysRead c fuel ctx fd buf count k =
      match k.ipc.recv id.toNat with
      | .error _ => ⟨.ok 0, ctx.fds, k, ctx.space.memory⟩
      | .ok (msg, ipc) =>
        ⟨(deliver c fuel ctx.space buf (msg.data.take count)).1, ctx.fds,
          { k with ipc := ipc }, (deliver c fuel ctx.space buf (msg.data.take count)).2⟩ := by
  have hinput : ¬(fd = 0 ∧ ((ctx.fds.get fd).map (·.target) = none ∨
      (ctx.fds.get fd).map (·.target) = some .stdin)) := by
    rw [hfd]
    simp
  rw [sysRead, if_neg hcount]
  dsimp only
  rewrite [if_neg hinput, hfd]
  rfl

theorem deliver_receivable [Mapper] {u : UserSpace} {bytes : List UInt8} (hfuel : fuel ≠ 0)
    (h : bytes ≠ [] → Receivable u buf bytes) :
    (deliver c fuel u buf bytes).1 = .ok bytes.length ∧
      userBytes u.cr3 (deliver c fuel u buf bytes).2 buf bytes.length = bytes := by
  by_cases hnil : bytes = []
  · subst hnil
    exact ⟨rfl, rfl⟩
  · obtain ⟨hregion, hcopy⟩ := h hnil
    have hcheck := checkPages_eq_ok_iff.mpr fun page hpage =>
      checkPage_eq_ok_iff.mpr (hcopy.touched page hpage)
    have hok : copyToUser c u fuel buf bytes = (.ok, (u.stored buf bytes).memory) :=
      copyToUser_of_writable hregion hcheck (fun _ => hfuel) hcopy.writable
    rw [deliver, if_neg hnil, hok]
    refine ⟨rfl, List.ext_getElem (by simp [userBytes]) fun i hi hi' => ?_⟩
    have hread := userByte_stored_of_unaliased hcopy.writable hcopy.unaliased hi'
    simp only [userBytes, List.getElem_map, List.getElem_range, hread,
      List.getElem?_eq_getElem hi', Option.getD_some]

/-! One call -/

theorem PipeCall.step_conserved [Mapper] {call : PipeCall} {h : PipeHistory σ} (hfuel : fuel ≠ 0)
    (hpipe : call.OnPipe id) (hfits : call.Fits id h) (hh : h.Conserved id) :
    (call.step c fuel h).Conserved id := by
  rw [PipeHistory.Conserved, PipeHistory.waiting] at hh
  cases call with
  | write ctx fd buf count =>
    rw [PipeHistory.Conserved, PipeHistory.waiting, step]
    rcases sysWrite_pipe c fuel buf count h.resources hpipe with
      ⟨hk, hnone⟩ | ⟨bytes, s, ipc, hload, hperm, hsend, hr⟩
    · dsimp only
      rw [hk, hnone, List.append_nil]
      exact hh
    · have hlen := length_copyFromUser c hload
      have hfit : bytes.length ≤ msgMax := by
        rw [hlen]
        obtain ⟨chan, hchan, hroom⟩ := send_room hsend
        exact hfits hperm chan hchan hroom
      dsimp only
      rw [hr]
      dsimp only
      rw [(send_ok hsend).1, reportedBytes, if_pos (Nat.le_refl count), hload]
      dsimp only
      rw [List.take_of_length_le (Nat.le_of_eq hlen), hh, List.flatMap_append, List.append_assoc]
      simp [Message.new, List.take_of_length_le hfit]
  | read ctx fd buf count =>
    rw [PipeHistory.Conserved, PipeHistory.waiting, step]
    by_cases hcount : count = 0
    · subst hcount
      rw [sysRead, if_pos rfl]
      simpa [returnedBytes, userBytes] using hh
    · rw [sysRead_pipe hpipe hcount]
      cases hrecv : h.resources.ipc.recv id.toNat with
      | error e => simpa [returnedBytes, userBytes] using hh
      | ok received =>
        obtain ⟨msg, ipc⟩ := received
        have hpending := (recv_ok hrecv).1
        obtain ⟨hlen, hroom⟩ := hfits hcount msg _ hpending
        obtain ⟨hreply, hbytes⟩ := deliver_receivable (c := c) hfuel hroom
        dsimp only
        rw [List.take_of_length_le hlen, returnedBytes]
        dsimp only
        rw [hreply]
        dsimp only
        rw [if_pos hlen, hbytes, hh, hpending, List.flatMap_cons, List.append_assoc]

/-! All calls -/

/-- A pipe is a reliable stream along every history in which the writes fit into
messages and the reads take whole messages. -/
theorem pipe_reliable [Mapper] (c : CompressionEngine) (fuel : Nat) (hfuel : fuel ≠ 0) (id : UInt32)
    (k : Resources σ) (hempty : k.ipc.pending id.toNat = []) (calls : List PipeCall)
    (hpipe : ∀ call ∈ calls, call.OnPipe id)
    (hfits : EachStep (PipeCall.step c fuel) (PipeCall.Fits id) calls ⟨k, [], []⟩) :
    AlongRun (PipeCall.step c fuel) (PipeHistory.Reliable id) calls ⟨k, [], []⟩ := by
  have hstart : (⟨k, [], []⟩ : PipeHistory σ).Conserved id := by
    rw [PipeHistory.Conserved, PipeHistory.waiting, hempty]
    rfl
  generalize (⟨k, [], []⟩ : PipeHistory σ) = h at hstart hfits
  induction calls generalizing h with
  | nil => exact hstart.reliable
  | cons call rest ih =>
    have hnext := PipeCall.step_conserved (c := c) hfuel
      (hpipe call List.mem_cons_self) hfits.1 hstart
    exact ⟨hstart.reliable, ih (fun other hmem => hpipe other (List.mem_cons_of_mem _ hmem))
      _ hnext hfits.2⟩

end

/-- Both ends of the first pipe, for a process that may use pipes. -/
def pipeContext : SyscallContext where
  pid := 1
  fds := (FdTable.new.setEntry 3 (some ⟨.pipeRead 1, 0, 0⟩)).setEntry 4 (some ⟨.pipeWrite 1, 0, 0⟩)
  capabilities := [⟨1, none, .ipcChannel, .readWrite, 0⟩]
  space := exampleSpace true

def pipeKernel : Resources Unit where
  ipc := ⟨fun i => if i = 0 then some .new else none⟩
  input := []
  uart := []
  serial := []
  vfs := .empty
  registry _ := none
  sockets _ := none
  devices := ()
  closeCalls := []

attribute [local instance] levelMapper

def shortRead : List PipeCall :=
  [.write pipeContext 4 0x40000ff0 2, .read pipeContext 3 0x40000ff0 1]

theorem shortRead_onPipe : ∀ call ∈ shortRead, call.OnPipe 1 := by
  intro call hcall
  simp only [shortRead, List.mem_cons, List.not_mem_nil, or_false] at hcall
  rcases hcall with rfl | rfl <;> rfl

/-- The second byte is lost: nothing waits, and only one byte has been returned. -/
theorem pipe_loses_rest : (∀ call ∈ shortRead, call.OnPipe 1) ∧
    pipeKernel.ipc.pending 1 = [] ∧ ∀ c : CompressionEngine,
      ¬ AlongRun (PipeCall.step c 1) (PipeHistory.Reliable 1) shortRead ⟨pipeKernel, [], []⟩ := by
  refine ⟨shortRead_onPipe, rfl, fun c hrun => ?_⟩
  have hlast := hrun.last.complete rfl
  have hreturned : (shortRead.foldl (fun h call => call.step c 1 h)
      (⟨pipeKernel, [], []⟩ : PipeHistory Unit)).returned.length = 1 := rfl
  have hwritten : (shortRead.foldl (fun h call => call.step c 1 h)
      (⟨pipeKernel, [], []⟩ : PipeHistory Unit)).written.length = 2 := rfl
  rw [hlast, hwritten] at hreturned
  cases hreturned

def wholeRead : List PipeCall :=
  [.write pipeContext 4 0x40000ff0 2, .read pipeContext 3 0x40000ff0 2]

theorem wholeRead_fits (c : CompressionEngine) :
    EachStep (PipeCall.step c 1) (PipeCall.Fits 1) wholeRead
      (⟨pipeKernel, [], []⟩ : PipeHistory Unit) := by
  refine ⟨fun _ _ _ _ => by decide, fun _ msg rest hpending => ?_, trivial⟩
  have hlens : (((PipeCall.write pipeContext 4 0x40000ff0 2).step c 1
      (⟨pipeKernel, [], []⟩ : PipeHistory Unit)).resources.ipc.pending
      (1 : UInt32).toNat).map (·.data.length) = [2] := rfl
  rw [hpending, List.map_cons] at hlens
  have hlen : msg.data.length = 2 := (List.cons.inj hlens).1
  refine ⟨Nat.le_of_eq hlen, fun _ => ⟨?_, exampleSpace_copyReady hlen⟩⟩
  rw [hlen]
  decide

theorem wholeRead_onPipe : ∀ call ∈ wholeRead, call.OnPipe 1 := by
  intro call hcall
  simp only [wholeRead, List.mem_cons, List.not_mem_nil, or_false] at hcall
  rcases hcall with rfl | rfl <;> rfl

/-- Messages that are read whole arrive. -/
theorem pipe_reliable_whole : (∀ call ∈ wholeRead, call.OnPipe 1) ∧
    ∀ c : CompressionEngine, AlongRun (PipeCall.step c 1) (PipeHistory.Reliable 1) wholeRead
      (⟨pipeKernel, [], []⟩ : PipeHistory Unit) :=
  ⟨wholeRead_onPipe, fun c => pipe_reliable c 1 one_ne_zero 1 pipeKernel rfl wholeRead
    wholeRead_onPipe (wholeRead_fits c)⟩

end ZiqaKernel
