/-
The system calls with which a process asks for and gives up capabilities
(`ziqa_cap_request` and `ziqa_cap_revoke` in `abi/syscall.rs`), and the runs of
system calls that leave a process without write permission on files.
-/
import ZiqaKernel.Capability

namespace ZiqaKernel

inductive PathArgument where
  | fault
  | invalidUtf8
  | text (path : String)
  deriving DecidableEq, Repr

/-- The calling process among all others: its file descriptor slots (`true` when taken)
and what opening a path with given flags comes to, an error being an error number. -/
structure Caller where
  pid : Nat
  system : CapabilitySystem
  fds : List Bool
  openPath : String → Nat → Except Nat Unit

namespace Caller

def einval : Nat := 22

def emfile : Nat := 24

def maxFds : Nat := 8

def freeFd (fds : List Bool) : Option Nat :=
  ((List.range maxFds).drop 3).find? fun fd => fds[fd]? = some false

def capabilities (c : Caller) : CapabilitySpace := c.system.capabilities c.pid

/-- Grant the caller a file capability without a parent, and return its id. -/
def grantFile (c : Caller) (permissions : Permissions) (target : Nat) :
    Except String Int × Caller :=
  (.ok c.system.nextId, { c with system := c.system.grant c.pid .file permissions target none })

/-- `ziqa_cap_request`.  The result of its permission check is not used. -/
def ziqaCapRequest (c : Caller) (kind : Nat) (path : PathArgument) (flags : Nat) :
    Except String Int × Caller :=
  if kind ≠ 1 then (.ok (-einval), c)
  else
    match path with
    | .fault => (.error "EFAULT: cap_request path", c)
    | .invalidUtf8 => (.error "Invalid UTF-8", c)
    | .text path =>
      if path = "stdin" then c.grantFile .readOnly 0
      else if path = "stdout" then c.grantFile .readWrite 1
      else if path = "stderr" then c.grantFile .readWrite 2
      else
        match c.openPath path flags with
        | .error errno => (.ok (-errno), c)
        | .ok () =>
          match freeFd c.fds with
          | some fd => grantFile { c with fds := c.fds.set fd true } .readWrite fd
          | none => (.ok (-emfile), c)

/-- `ziqa_cap_revoke`: the caller must hold what it revokes. -/
def ziqaCapRevoke (c : Caller) (id : Nat) : Except String Int × Caller :=
  match c.capabilities.lookup id with
  | some _ =>
    (.ok 0, { c with
        system := (c.system.revokeGlobal (c.system.nextId + 1) id).getD c.system })
  | none => (.ok (-1), c)

/-- The system calls of a process.  All but the first two leave capability spaces alone;
they may take and free descriptors and change which paths open. -/
inductive SystemCall where
  | capRequest (kind : Nat) (path : PathArgument) (flags : Nat)
  | capRevoke (id : Nat)
  | other (fds : List Bool) (openPath : String → Nat → Except Nat Unit)

def call : SystemCall → Caller → Caller
  | .capRequest kind path flags, c => (c.ziqaCapRequest kind path flags).2
  | .capRevoke id, c => (c.ziqaCapRevoke id).2
  | .other fds openPath, c => { c with fds := fds, openPath := openPath }

/-- The check that the system calls make before they write to a file. -/
def MayWriteFiles (c : Caller) : Prop := c.capabilities.hasPermission .file true false

instance (c : Caller) : Decidable c.MayWriteFiles :=
  inferInstanceAs (Decidable (_ = true))

def GrantsWrite (c : Caller) (path : String) (flags : Nat) : Prop :=
  path = "stdout" ∨ path = "stderr" ∨
    path ≠ "stdin" ∧ c.openPath path flags = .ok () ∧ (freeFd c.fds).isSome

/-- The call is no request for a file that the kernel can open or for an output stream. -/
def NoGrant : SystemCall → Caller → Prop
  | .capRequest kind (.text path) flags, c => kind = 1 → ¬ c.GrantsWrite path flags
  | _, _ => True

variable {c : Caller}

theorem mayWriteFiles_iff :
    c.MayWriteFiles ↔ ∃ cap ∈ c.capabilities, cap.resource = .file ∧ cap.permissions.write := by
  simp [MayWriteFiles, CapabilitySpace.hasPermission, CapabilityToken.allows]

theorem capabilities_grantFile (permissions : Permissions) (target : Nat) :
    (c.grantFile permissions target).2.capabilities =
      c.capabilities ++ [⟨c.system.nextId, none, .file, permissions, target⟩] := by
  simp [grantFile, capabilities, CapabilitySystem.grant]

theorem mayWriteFiles_grantFile_iff (permissions : Permissions) (target : Nat) :
    (c.grantFile permissions target).2.MayWriteFiles ↔
      c.MayWriteFiles ∨ permissions.write = true := by
  simp only [mayWriteFiles_iff, capabilities_grantFile, List.mem_append,
    List.mem_singleton, or_and_right, exists_or, exists_eq_left, true_and]

/-- A request gives write permission exactly when it succeeds for something other than
the standard input. -/
theorem mayWriteFiles_request_iff (h : ¬ c.MayWriteFiles) (kind : Nat)
    (path : PathArgument) (flags : Nat) :
    ¬ (c.ziqaCapRequest kind path flags).2.MayWriteFiles ↔
      NoGrant (.capRequest kind path flags) c := by
  unfold ziqaCapRequest
  split_ifs with hkind
  · refine iff_of_true h ?_
    cases path with
    | text path => exact fun heq => absurd heq hkind
    | fault => trivial
    | invalidUtf8 => trivial
  · cases path with
    | fault => exact iff_of_true h trivial
    | invalidUtf8 => exact iff_of_true h trivial
    | text path =>
      have hone : kind = 1 := not_not.mp hkind
      simp only [NoGrant, hone, true_imp_iff, GrantsWrite]
      refine not_congr ?_
      split_ifs with hin hout herr
      · rw [mayWriteFiles_grantFile_iff]
        simp [h, hin, Permissions.readOnly]
      · rw [mayWriteFiles_grantFile_iff]
        simp [hout, Permissions.readWrite]
      · rw [mayWriteFiles_grantFile_iff]
        simp [herr, Permissions.readWrite]
      · cases hopen : c.openPath path flags with
        | error errno => simp [h, hout, herr]
        | ok =>
          cases hfd : freeFd c.fds with
          | none => simp [h, hout, herr]
          | some fd =>
            refine iff_of_true ?_ (by simp [hin])
            exact (mayWriteFiles_grantFile_iff _ _).mpr (.inr rfl)

theorem sublist_revokeGlobal {s t : CapabilitySystem} {depth id : Nat}
    (h : s.revokeGlobal depth id = some t) (pid : Nat) :
    (t.capabilities pid).Sublist (s.capabilities pid) := by
  obtain ⟨descendants, -, rfl⟩ := Option.map_eq_some_iff.mp h
  exact CapabilitySystem.sublist_removeAll s _ pid

theorem mayWriteFiles_revoke {id : Nat} (h : (c.ziqaCapRevoke id).2.MayWriteFiles) :
    c.MayWriteFiles := by
  rw [ziqaCapRevoke] at h
  split at h
  · cases hrevoke : c.system.revokeGlobal (c.system.nextId + 1) id with
    | none => simpa [hrevoke] using h
    | some t =>
      obtain ⟨cap, hcap, hfile⟩ := mayWriteFiles_iff.mp h
      rw [hrevoke] at hcap
      exact mayWriteFiles_iff.mpr ⟨cap, (sublist_revokeGlobal hrevoke c.pid).subset hcap, hfile⟩
  · exact h

theorem mayWriteFiles_call_iff (h : ¬ c.MayWriteFiles) (syscall : SystemCall) :
    ¬ (call syscall c).MayWriteFiles ↔ NoGrant syscall c := by
  cases syscall with
  | capRequest kind path flags => exact mayWriteFiles_request_iff h kind path flags
  | capRevoke id => exact iff_of_true (mt mayWriteFiles_revoke h) trivial
  | other fds openPath => exact iff_of_true h trivial

/-- A process without write permission on files stays without it through a run of its
system calls exactly when none of them is a request that the kernel can serve for an
output stream or an existing file. -/
theorem never_mayWriteFiles_iff (h : ¬ c.MayWriteFiles) (calls : List SystemCall) :
    AlongRun call (fun c => ¬ c.MayWriteFiles) calls c ↔ EachStep call NoGrant calls c := by
  refine alongRun_iff (B := fun _ => True) (P := fun c => ¬ c.MayWriteFiles)
    (fun _ _ _ _ => trivial) (fun syscall c _ _ hc => ?_) trivial h (eachStep_true calls c)
  exact mayWriteFiles_call_iff hc syscall

/-- A process with no capability at all, in a system in which no path opens. -/
def unprivileged : Caller where
  pid := 1
  system :=
    { pids := [1], capabilities := fun _ => [], nextId := 1, children := fun _ => [] }
  fds := [true, true, true, false, false, false, false, false]
  openPath _ _ := .error 2

theorem unprivileged_stays : ¬ unprivileged.MayWriteFiles ∧
      AlongRun call (fun c => ¬ c.MayWriteFiles)
        [.capRequest 1 (.text "stdin") 0, .capRequest 1 (.text "/etc/passwd") 0,
          .capRevoke 1] unprivileged := by
  refine ⟨by decide, (never_mayWriteFiles_iff (by decide) _).mpr ?_⟩
  refine ⟨fun _ => ?_, fun _ => ?_, trivial, trivial⟩
  · simp [GrantsWrite]
  · simp [GrantsWrite, call, ziqaCapRequest, grantFile, unprivileged]

/-- One request for the standard output gives write permission on all files. -/
theorem unprivileged_stdout : ¬ unprivileged.MayWriteFiles ∧
      (call (.capRequest 1 (.text "stdout") 0) unprivileged).MayWriteFiles := by
  decide

end Caller

end ZiqaKernel
