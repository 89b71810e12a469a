/-
What a failed `sys_read` has taken from its descriptor.  The bytes are taken
before the destination is checked.
-/
import ZiqaKernel.DescriptorCalls

namespace ZiqaKernel

def SyscallReply.IsError : SyscallReply → Prop
  | .ok value => value ≥ negErrno 4095
  | .err _ => True
  | .stopped _ => False

section

variable {σ : Type}

def Resources.pendingInput (k : Resources σ) : List UInt8 := k.poll.input

/-- Offsets, waiting messages and waiting input are what they were. -/
structure Unconsumed (ctx : SyscallContext) (k : Resources σ) (r : Served σ) : Prop where
  offsets : ∀ fd, r.fds.offsetOf fd = ctx.fds.offsetOf fd
  messages : ∀ id, r.resources.ipc.pending id = k.ipc.pending id
  input : r.resources.pendingInput = k.pendingInput

def offeredByVfs (ctx : SyscallContext) (fd count : Nat) (k : Resources σ) : List UInt8 :=
  if ctx.capabilities.hasPermission .file false false then
    match getVfsHandle ctx.fds k.vfs fd with
    | none => []
    | some handle =>
      if count ≥ 2 ^ 63 then []
      else match (k.readHandle count (ctx.fds.offsetOf fd).toNat handle).1 with
        | .error _ => []
        | .ok (n, tmp) => if n > count then [] else (List.range n).map tmp
  else []

/-- The bytes that a descriptor has for a read of at most `count` bytes. -/
def offered (ctx : SyscallContext) (fd count : Nat) (k : Resources σ) : List UInt8 :=
  let target : Option FdTarget := (ctx.fds.get fd).map (·.target)
  if fd = 0 ∧ (target = none ∨ target = some .stdin) then
    k.pendingInput.take (min count 256)
  else match target with
    | some (.pipeRead id) =>
      match k.ipc.pending id.toNat with
      | [] => []
      | msg :: _ => msg.data.take count
    | some (.file _) => offeredByVfs ctx fd count k
    | some (.scheme _ _) => offeredByVfs ctx fd count k
    | _ => []

/-- `copy_to_user` refuses the destination: it is not inside one region of the process,
or a page of it is not there or not writable. -/
def Refuses (u : UserSpace) (dst len : Nat) : Prop :=
  verifyUserRegion u.proc.vmas dst len = true →
    checkPages u.memory.memory.tables u.cr3 (pagesOf dst len) = .err

def HasPlace (ctx : SyscallContext) (fd buf count : Nat) (k : Resources σ) : Prop :=
  offered ctx fd count k ≠ [] → ¬ Refuses ctx.space buf (offered ctx fd count k).length

variable {c : CompressionEngine} {fuel : Nat}

theorem deliver_isError_iff [Mapper] {u : UserSpace} {buf : Nat} {bytes : List UInt8}
    (hlen : bytes.length < 2 ^ 63) : (deliver c fuel u buf bytes).1.IsError ↔
      bytes ≠ [] ∧ Refuses u buf bytes.length := by
  rw [deliver]
  have hsmall : ¬(bytes.length ≥ negErrno 4095) := by
    unfold negErrno
    omega
  have hzero : ¬(0 ≥ negErrno 4095) := by
    unfold negErrno
    omega
  by_cases hnil : bytes = []
  · rw [if_pos hnil]
    exact iff_of_false hzero (fun h => h.1 hnil)
  · rw [if_neg hnil]
    have herr : (copyToUser c u fuel buf bytes).1 = .err ↔ Refuses u buf bytes.length :=
      copyToUser_eq_err_iff
    rw [← herr]
    split
    · next hcopy =>
      rw [hcopy]
      exact iff_of_false hsmall (fun h => nomatch h.2)
    · next hcopy =>
      rw [hcopy]
      exact iff_of_true trivial ⟨hnil, rfl⟩
    · next hne hcopy =>
      rw [hcopy]
      exact iff_of_false id (fun h => hne h.2)

variable {ctx : SyscallContext} {fd buf count : Nat} {k : Resources σ}

theorem Unconsumed.refl (reply : SyscallReply) (s : PagedMemory) :
    Unconsumed ctx k ⟨reply, ctx.fds, k, s⟩ :=
  ⟨fun _ => rfl, fun _ => rfl, rfl⟩

theorem Unconsumed.devices (reply : SyscallReply) (s : PagedMemory) (devices : σ) :
    Unconsumed ctx k ⟨reply, ctx.fds, { k with devices := devices }, s⟩ :=
  ⟨fun _ => rfl, fun _ => rfl, rfl⟩

/-- The read takes the offered bytes and hands them to the process. -/
structure TakesOffered [Mapper] (c : CompressionEngine) (fuel : Nat) (ctx : SyscallContext)
    (buf : Nat) (k : Resources σ) (bytes : List UInt8) (r : Served σ) : Prop where
  reply : r.reply = (deliver c fuel ctx.space buf bytes).1
  small : bytes.length < 2 ^ 63
  consumed : bytes ≠ [] → ¬ Unconsumed ctx k r

/-- The read has nothing to offer; if it fails, it has changed nothing. -/
def TakesNothing (ctx : SyscallContext) (k : Resources σ) (bytes : List UInt8)
    (r : Served σ) : Prop :=
  bytes = [] ∧ (r.reply.IsError → Unconsumed ctx k r)

theorem readVfs_takes [Mapper] {desc : FileDesc} (hfd : ctx.fds.get fd = some desc) :
    TakesNothing ctx k (offeredByVfs ctx fd count k) (readVfs c fuel ctx fd buf count k) ∨
      TakesOffered c fuel ctx buf k (offeredByVfs ctx fd count k)
        (readVfs c fuel ctx fd buf count k) := by
  rw [readVfs, offeredByVfs]
  by_cases hperm : ctx.capabilities.hasPermission .file false false = true
  · simp only [hperm, Bool.not_true, Bool.false_eq_true, ↓reduceIte]
    cases getVfsHandle ctx.fds k.vfs fd with
    | none => exact .inl ⟨rfl, fun _ => .refl _ _⟩
    | some handle =>
      dsimp only
      by_cases hcount : count ≥ 2 ^ 63
      · rw [if_pos hcount, if_pos hcount]
        exact .inl ⟨rfl, fun h => h.elim⟩
      · rw [if_neg hcount, if_neg hcount]
        obtain ⟨result, devices⟩ :=
          k.readHandle count (ctx.fds.offsetOf fd).toNat handle
        cases result with
        | error e => exact .inl ⟨rfl, fun _ => .devices _ _ _⟩
        | ok read =>
          obtain ⟨n, tmp⟩ := read
          dsimp only
          by_cases hn : n > count
          · rw [if_pos hn, if_pos hn]
            exact .inl ⟨rfl, fun h => h.elim⟩
          · rw [if_neg hn, if_neg hn]
            refine .inr ⟨rfl, ?_, fun hne hkept => ?_⟩
            · rw [List.length_map, List.length_range]
              omega
            · -- the offset has moved by the number of bytes
              have hoffset := hkept.offsets fd
              dsimp only at hoffset
              rw [FdTable.offsetOf_modify hfd, FdTable.offsetOf, hfd] at hoffset
              have hzero : UInt64.ofNat n = 0 := by simpa using hoffset
              have hnat := congrArg UInt64.toNat hzero
              rw [UInt64.toNat_ofNat', UInt64.toNat_zero, Nat.mod_eq_of_lt (by omega)] at hnat
              subst hnat
              exact hne rfl
  · rw [if_neg hperm]
    rw [Bool.not_eq_true] at hperm
    rw [hperm]
    exact .inl ⟨rfl, fun _ => .refl _ _⟩

theorem offered_zero : offered ctx fd 0 k = [] := by
  have hvfs : offeredByVfs ctx fd 0 k = [] := by
    rw [offeredByVfs]
    split
    · split
      · rfl
      · split
        · rfl
        · split
          · rfl
          · next n tmp _ =>
            cases n with
            | zero => rfl
            | succ n => rfl
    · rfl
  rw [offered]
  split
  · simp
  · split
    · split
      · rfl
      · rfl
    · exact hvfs
    · exact hvfs
    · rfl

theorem readStdin_takes [Mapper] : TakesOffered c fuel ctx buf k (k.pendingInput.take (min count 256))
      ⟨(deliver c fuel ctx.space buf (k.poll.input.take
          (min (min count 256) k.poll.input.length))).1, ctx.fds,
        { k.poll with input := k.poll.input.drop (min (min count 256) k.poll.input.length) },
        (deliver c fuel ctx.space buf (k.poll.input.take
          (min (min count 256) k.poll.input.length))).2⟩ := by
  have htake : k.poll.input.take (min (min count 256) k.poll.input.length) =
      k.pendingInput.take (min count 256) := by
    rw [Resources.pendingInput, ← List.take_take, List.take_length]
  refine ⟨by rw [htake], ?_, fun hne hkept => ?_⟩
  · have := List.length_take_le (min count 256) k.pendingInput
    omega
  · have hinput := congrArg List.length hkept.input
    have hpos := List.length_pos_of_ne_nil hne
    rw [List.length_take, Resources.pendingInput] at hpos
    simp only [Resources.pendingInput, Resources.poll, List.foldl_nil, List.length_drop]
      at hinput hpos
    omega

theorem sysRead_takes [Mapper] (c : CompressionEngine) (fuel : Nat) (ctx : SyscallContext)
    (fd buf count : Nat) (k : Resources σ) :
    TakesNothing ctx k (offered ctx fd count k) (sysRead c fuel ctx fd buf count k) ∨
      TakesOffered c fuel ctx buf k (offered ctx fd count k)
        (sysRead c fuel ctx fd buf count k) := by
  by_cases hcount : count = 0
  · subst hcount
    rw [sysRead, if_pos rfl]
    exact .inl ⟨offered_zero, fun _ => .refl _ _⟩
  rw [sysRead, if_neg hcount, offered]
  dsimp only
  split
  · exact .inr readStdin_takes
  · cases hfd : ctx.fds.get fd with
    | none => exact .inl ⟨rfl, fun _ => .refl _ _⟩
    | some desc =>
      simp only [Option.map_some]
      cases htarget : desc.target with
      | pipeRead id =>
        dsimp only
        cases hrecv : k.ipc.recv id.toNat with
        | error e =>
          rw [ChannelTable.recv_error_iff.mp ⟨e, hrecv⟩]
          exact .inl ⟨rfl, fun _ => .refl _ _⟩
        | ok received =>
          obtain ⟨msg, ipc⟩ := received
          have hpending := (ChannelTable.recv_ok hrecv).1
          rw [hpending]
          refine .inr ⟨rfl, ?_, fun _ hkept => ?_⟩
          · dsimp only
            have hlen := msg.len_le
            have htake := List.length_take_le' count msg.data
            unfold msgMax at hlen
            omega
          · have hsame := congrArg List.length (hkept.messages id.toNat)
            dsimp only at hsame
            rw [hpending, List.length_cons] at hsame
            omega
      | file idx => exact readVfs_takes hfd
      | scheme idx handle => exact readVfs_takes hfd
      | stdin => exact .inl ⟨rfl, fun _ => .refl _ _⟩
      | stdout => exact .inl ⟨rfl, fun _ => .refl _ _⟩
      | stderr => exact .inl ⟨rfl, fun _ => .refl _ _⟩
      | pipeWrite id => exact .inl ⟨rfl, fun _ => .refl _ _⟩

/-- A failed read consumes nothing exactly when the bytes that the descriptor offers
have a place to go to. -/
theorem failed_read_unconsumed_iff [Mapper] (c : CompressionEngine) (fuel : Nat)
    (ctx : SyscallContext) (fd buf count : Nat) (k : Resources σ) :
    ((sysRead c fuel ctx fd buf count k).reply.IsError →
      Unconsumed ctx k (sysRead c fuel ctx fd buf count k)) ↔
    HasPlace ctx fd buf count k := by
  rcases sysRead_takes c fuel ctx fd buf count k with ⟨hnone, hkept⟩ | htakes
  · exact iff_of_true hkept fun hne => absurd hnone hne
  · rw [htakes.reply, deliver_isError_iff htakes.small, HasPlace]
    constructor
    · intro h hne hrefuses
      exact htakes.consumed hne (h ⟨hne, hrefuses⟩)
    · rintro h ⟨hne, hrefuses⟩
      exact absurd hrefuses (h hne)

end

/-- A process that reads from the console into memory that it has not touched. -/
def readerContext : SyscallContext where
  pid := 1
  fds := .new
  capabilities := []
  space := exampleSpace false

def typedKernel : Resources Unit where
  ipc := ⟨fun _ => none⟩
  input := [104, 105]
  uart := []
  serial := []
  vfs := .empty
  registry _ := none
  sockets _ := none
  devices := ()
  closeCalls := []

attribute [local instance] levelMapper

/-- The read fails, and the input is gone. -/
theorem failed_read_takes_input : typedKernel.pendingInput = [104, 105] ∧ ∀ c fuel,
    (sysRead c fuel readerContext 0 0x40000ff0 2 typedKernel).reply =
      .err (.other "EFAULT: copy failed") ∧
    (sysRead c fuel readerContext 0 0x40000ff0 2 typedKernel).resources.pendingInput = [] :=
  ⟨rfl, fun _ _ => ⟨rfl, rfl⟩⟩

end ZiqaKernel
