/-
Descriptors that were duplicated by `dup`, `dup2` or `fork`, and what closing
one of them does to the others.  No count is kept of the copies: the handle of a
scheme is closed with any copy, and the sockets of all processes are found by
descriptor number.
-/
import ZiqaKernel.DescriptorCalls

namespace ZiqaKernel

open Served Function SocketManager Resources

structure FdRef where
  pid : Nat
  fd : Nat
deriving DecidableEq

/-- The descriptor tables of all processes over the shared tables of the kernel. -/
structure DescriptorSystem (σ : Type) where
  fds : Nat → FdTable
  resources : Resources σ

/-! Sockets -/

namespace SocketManager

variable {P : Type} {fd n : Nat}

/-- The sockets after `sys_close` of a descriptor number. -/
def afterClose (socks : SocketManager P) (fd : Nat) : SocketManager P :=
  if 3 ≤ fd ∧ (socks fd).isSome then socks.remove fd else socks

theorem live_afterClose (socks : SocketManager P) (fd n : Nat) : (socks.afterClose fd).live n =
      if 3 ≤ fd ∧ (n = fd ∨ socks.peer fd = some n) then none else socks.live n := by
  rw [afterClose]
  cases hentry : socks fd with
  | none =>
    have hpeer : socks.peer fd = none := by rw [peer, hentry]; rfl
    rw [if_neg (fun h => nomatch h.2)]
    split
    · next h =>
      rcases h.2 with rfl | h
      · rw [live, hentry]
        rfl
      · rw [hpeer] at h
        cases h
    · rfl
  | some entry =>
    by_cases hfd : 3 ≤ fd
    · rw [if_pos ⟨hfd, rfl⟩, live, remove_apply]
      by_cases hn : n = fd
      · rw [if_pos hn, if_pos ⟨hfd, .inl hn⟩]
        rfl
      · rw [if_neg hn]
        by_cases hpeer : socks.peer fd = some n
        · rw [if_pos hpeer, if_pos ⟨hfd, .inr hpeer⟩]
          cases socks n with
          | none => rfl
          | some p => rfl
        · rw [if_neg hpeer, if_neg fun h => h.2.elim hn hpeer]
          rfl
    · rw [if_neg fun h => hfd h.1, if_neg fun h => hfd h.1]

theorem peer_afterClose {socks : SocketManager P} {p : Nat}
    (h : (socks.afterClose fd).peer n = some p) : socks.peer n = some p := by
  rw [afterClose] at h
  split at h
  · rw [peer, remove_apply] at h
    split at h
    · cases h
    · split at h
      · rw [Option.bind_map] at h
        obtain ⟨entry, -, hpaired⟩ := Option.bind_eq_some_iff.mp h
        cases hpaired
      · exact h
  · exact h

end SocketManager

section

variable {σ : Type}

/-! Calls through a descriptor -/

/-- Reading and writing through a descriptor, by the calls for files and for sockets. -/
inductive DescriptorCall where
  | read (buf count : Nat)
  | write (buf count : Nat)
  | sendto (buf len : Nat)
  | recvfrom (buf len : Nat)

def DescriptorCall.serve [Mapper] (c : CompressionEngine) (fuel : Nat) (ctx : SyscallContext)
    (fd : Nat) (k : Resources σ) : DescriptorCall → Served σ
  | .read buf count => sysRead c fuel ctx fd buf count k
  | .write buf count => sysWrite c fuel ctx fd buf count k
  | .sendto buf len => sysSendto c fuel ctx fd buf len k
  | .recvfrom buf len => sysRecvfrom c fuel ctx fd buf len k

/-- What the caller sees: the reply, its memory and the offset of its descriptor. -/
def Served.seen (r : Served σ) (fd : Nat) : SyscallReply × PagedMemory × UInt64 :=
  (r.reply, r.memory, r.fds.offsetOf fd)

variable {x : FileDesc}

namespace DescriptorSystem

def observe [Mapper] (s : DescriptorSystem σ) (c : CompressionEngine) (fuel : Nat)
    (ctx : SyscallContext) (call : DescriptorCall) (e : FdRef) :
    SyscallReply × PagedMemory × UInt64 :=
  (call.serve c fuel { ctx with fds := s.fds e.pid } e.fd s.resources).seen e.fd

/-- `sys_close` by one of the processes. -/
def close (s : DescriptorSystem σ) (d : FdRef) : DescriptorSystem σ where
  fds := update s.fds d.pid (sysClose (s.fds d.pid) d.fd s.resources).2.1
  resources := (sysClose (s.fds d.pid) d.fd s.resources).2.2

def closeAll (s : DescriptorSystem σ) (ds : List FdRef) : DescriptorSystem σ :=
  ds.foldl close s

/-- `sys_dup` by one of the processes. -/
def dup (s : DescriptorSystem σ) (d : FdRef) : DescriptorSystem σ :=
  { s with fds := update s.fds d.pid (sysDup (s.fds d.pid) d.fd).2 }

/-- `sys_dup2` by one of the processes. -/
def dup2 (s : DescriptorSystem σ) (d : FdRef) (newfd : Nat) : DescriptorSystem σ :=
  { s with fds := update s.fds d.pid (sysDup2 (s.fds d.pid) d.fd newfd).2 }

/-- The descriptor tables after a `fork`. -/
def fork (s : DescriptorSystem σ) (parent child : Nat) : DescriptorSystem σ :=
  { s with fds := update s.fds child (.cloneFrom (s.fds parent)) }

def IsCopy (s : DescriptorSystem σ) (d e : FdRef) : Prop :=
  ∃ x y, (s.fds d.pid).get d.fd = some x ∧ (s.fds e.pid).get e.fd = some y ∧
    y.target = x.target ∧ (s.fds e.pid).pathBytes e.fd = (s.fds d.pid).pathBytes d.fd

def IsScheme (s : DescriptorSystem σ) (d : FdRef) : Prop :=
  ∃ x idx handle, (s.fds d.pid).get d.fd = some x ∧ x.target = .scheme idx handle

def socketPath : List UInt8 := [115, 111, 99, 107, 101, 116, 58]

/-- A descriptor as `sys_socket` creates it. -/
def IsSocket (s : DescriptorSystem σ) (d : FdRef) : Prop :=
  (∃ x idx, (s.fds d.pid).get d.fd = some x ∧ x.target = .file idx) ∧
    (s.fds d.pid).pathBytes d.fd = socketPath

variable {s : DescriptorSystem σ} {d : FdRef}

theorem isCopy_copySlot {dst : Nat}
    (hget : (s.fds d.pid).get d.fd = some x) (hdst : dst < 8) (hne : d.fd ≠ dst) :
    IsCopy ⟨update s.fds d.pid ((s.fds d.pid).copySlot d.fd dst x), s.resources⟩ d
      ⟨d.pid, dst⟩ := by
  have hold : (s.fds d.pid).SameSlot ((s.fds d.pid).copySlot d.fd dst x) d.fd :=
    FdTable.sameSlot_copySlot hne
  refine ⟨x, { x with offset := 0 }, ?_, ?_, rfl, ?_⟩
  · dsimp only
    rw [update_self, hold.get, hget]
  · dsimp only
    rw [update_self, FdTable.get_copySlot hdst]
  · dsimp only
    rw [update_self, hold.path, FdTable.pathBytes_copySlot (FdTable.get_lt hget) hdst]

theorem isCopy_dup {newfd : Nat} {t : FdTable}
    (h : (s.fds d.pid).dup d.fd none = some (newfd, t)) :
    (s.dup d).IsCopy d ⟨d.pid, newfd⟩ := by
  rw [dup, sysDup, h]
  rw [FdTable.dup] at h
  obtain ⟨x, hget, h⟩ := Option.bind_eq_some_iff.mp h
  obtain ⟨i, hfree, h⟩ := Option.map_eq_some_iff.mp h
  obtain ⟨rfl, rfl⟩ := Prod.mk.inj h
  have hi := List.find?_some hfree
  have hlt := List.mem_range.mp (List.mem_of_find?_eq_some hfree)
  rw [Bool.and_eq_true, Option.isNone_iff_eq_none] at hi
  apply isCopy_copySlot hget hlt
  rintro rfl
  rw [hi.2] at hget
  cases hget

theorem isCopy_dup2 {newfd : Nat}
    (hget : (s.fds d.pid).get d.fd = some x) (hnew : newfd < 8) (hne : d.fd ≠ newfd) :
    (s.dup2 d newfd).IsCopy d ⟨d.pid, newfd⟩ := by
  rw [dup2, sysDup2, if_neg hne, FdTable.dup, hget, Option.bind_some]
  dsimp only
  rw [if_pos hnew]
  exact isCopy_copySlot hget hnew hne

theorem isCopy_fork {child : Nat}
    (hget : (s.fds d.pid).get d.fd = some x) (hne : d.pid ≠ child) :
    (s.fork d.pid child).IsCopy d ⟨child, d.fd⟩ := by
  refine ⟨x, x, ?_, ?_, rfl, ?_⟩
  · rw [fork]
    dsimp only
    rw [update_of_ne hne, hget]
  · rw [fork]
    dsimp only
    rw [update_self, FdTable.cloneFrom_eq, hget]
  · rw [fork]
    dsimp only
    rw [update_self, FdTable.cloneFrom_eq, update_of_ne hne]

structure Duplicates (s : DescriptorSystem σ) (copies : List FdRef) : Prop where
  distinct : copies.Nodup
  several : 2 ≤ copies.length
  same : ∀ d ∈ copies, ∀ e ∈ copies, s.IsCopy d e
  kind : (∀ d ∈ copies, s.IsScheme d) ∨ ∀ d ∈ copies, s.IsSocket d

/-- However the copies are closed one after the other, the remaining ones can be used
as before, and the handle of a scheme is closed just with the last one. -/
structure Independent [Mapper] (c : CompressionEngine) (fuel : Nat) (s : DescriptorSystem σ)
    (copies : List FdRef) : Prop where
  usable : ∀ done rest, (done ++ rest).Perm copies → ∀ e ∈ rest, ∀ ctx call,
    (s.closeAll done).observe c fuel ctx call e = s.observe c fuel ctx call e
  released : (∃ d ∈ copies, s.IsScheme d) → ∀ done rest, (done ++ rest).Perm copies →
    done ≠ [] → ((s.closeAll done).resources.closeCalls ≠ s.resources.closeCalls ↔ rest = [])

/-- Closing `d` does not take down the socket that is found under the number of `e`. -/
def SocketApart (s : DescriptorSystem σ) (d e : FdRef) : Prop :=
  3 ≤ d.fd → (s.resources.sockets.live e.fd).isSome →
    e.fd ≠ d.fd ∧ s.resources.sockets.peer d.fd ≠ some e.fd

end DescriptorSystem

/-! One close -/

theorem getVfsHandle_congr {t t' : FdTable} {fd : Nat} (h : t.SameSlot t' fd)
    (vfs : Vfs (FileOps σ)) : getVfsHandle t' vfs fd = getVfsHandle t vfs fd := by
  rw [getVfsHandle, h.get, h.pathOf, getVfsHandle]

theorem sysClose_fds (fds : FdTable) (fd : Nat) (k : Resources σ) :
    (sysClose fds fd k).2.1 = (fds.close fd).2 := by
  rw [sysClose]
  split
  · next h => rw [FdTable.close, if_pos h]
  · dsimp only
    split
    · next h => rw [h]
    · next h => rw [h]

/-- The handle that `sys_close` hands to its scheme. -/
def schemeHandle (fds : FdTable) (fd : Nat) (k : Resources σ) :
    Option (List UInt8 × Nat × SchemeOps σ) :=
  if fd < 3 then none
  else match getVfsHandle fds k.vfs fd with
    | some (.scheme name id) => (k.registry name).map fun ops => (name, id, ops)
    | _ => none

theorem sysClose_resources (fds : FdTable) (fd : Nat) (k : Resources σ) : (sysClose fds fd k).2.2 =
      match schemeHandle fds fd k with
      | none => { k with sockets := k.sockets.afterClose fd }
      | some (name, id, ops) =>
        { k with
          sockets := k.sockets.afterClose fd
          devices := (ops.close id k.devices).2
          closeCalls := k.closeCalls ++ [(name, id)] } := by
  by_cases hfd : fd < 3
  · have hsame : k.sockets.afterClose fd = k.sockets := by
      rw [afterClose, if_neg (by omega)]
    rw [sysClose, if_pos hfd, schemeHandle, if_pos hfd, hsame]
  · have hsocks : (if (k.sockets fd).isSome then { k with sockets := k.sockets.remove fd }
        else k) = { k with sockets := k.sockets.afterClose fd } := by
      rw [afterClose]
      by_cases hsome : (k.sockets fd).isSome
      · rw [if_pos hsome, if_pos ⟨by omega, hsome⟩]
      · rw [if_neg hsome, if_neg fun h => hsome h.2]
    have hlast : (sysClose fds fd k).2.2 = (getVfsHandle fds k.vfs fd).elim
        { k with sockets := k.sockets.afterClose fd }
        (closeHandle { k with sockets := k.sockets.afterClose fd }) := by
      rw [sysClose, if_neg hfd, hsocks]
      dsimp only
      cases getVfsHandle fds k.vfs fd <;> rcases fds.close fd with ⟨_ | _, _⟩ <;> rfl
    rw [hlast, schemeHandle, if_neg hfd]
    cases getVfsHandle fds k.vfs fd with
    | none => rfl
    | some handle =>
      cases handle with
      | file ops => rfl
      | scheme name id =>
        dsimp only [Option.elim_some, closeHandle]
        cases k.registry name with
        | none => rfl
        | some ops => rfl

theorem getVfsHandle_file {t : FdTable} {fd : Nat} {idx : UInt8}
    (hget : t.get fd = some x) (htarget : x.target = .file idx) (vfs : Vfs (FileOps σ))
    (name : List UInt8) (id : Nat) : getVfsHandle t vfs fd ≠ some (.scheme name id) := by
  rw [getVfsHandle, hget, Option.bind_some, htarget]
  dsimp only
  cases t.pathOf fd with
  | none => exact fun h => nomatch h
  | some path =>
    rw [Option.bind_some]
    split
    · split
      · exact fun h => nomatch h
      · split
        · exact fun h => nomatch h
        · exact fun h => nomatch h
    · exact fun h => nomatch h

/-! What a caller sees -/

section

variable {c : CompressionEngine} {fuel : Nat} {ctx : SyscallContext} {t t' : FdTable}
  {fd : Nat} {k : Resources σ} {socks : SocketManager Nat}

theorem readVfs_seen_congr [Mapper] (hslot : t.SameSlot t' fd) (buf count : Nat) :
    (readVfs c fuel { ctx with fds := t' } fd buf count { k with sockets := socks }).seen fd =
      (readVfs c fuel { ctx with fds := t } fd buf count k).seen fd := by
  have hread : ∀ handle offset, readHandle { k with sockets := socks } count offset
      handle = k.readHandle count offset handle := by
    intro handle offset
    cases handle <;> rfl
  rw [readVfs, readVfs]
  dsimp only
  rw [getVfsHandle_congr hslot, hslot.offsetOf]
  split
  · rw [seen, hslot.offsetOf, seen]
  · split
    · rw [seen, hslot.offsetOf, seen]
    · split
      · rw [seen, hslot.offsetOf, seen]
      · rw [hread]
        split
        · rw [seen, hslot.offsetOf, seen]
        · split
          · rw [seen, hslot.offsetOf_modify, seen]
          · rw [seen, hslot.offsetOf_modify, seen]

theorem writeVfs_seen_congr (hslot : t.SameSlot t' fd) (bytes : List UInt8) (m : PagedMemory) :
    (writeVfs { ctx with fds := t' } fd bytes m { k with sockets := socks }).seen fd =
      (writeVfs { ctx with fds := t } fd bytes m k).seen fd := by
  have hwrite : ∀ handle offset, writeHandle { k with sockets := socks } bytes
      offset handle = k.writeHandle bytes offset handle := by
    intro handle offset
    cases handle <;> rfl
  rw [writeVfs, writeVfs]
  dsimp only
  rw [getVfsHandle_congr hslot, hslot.offsetOf]
  split
  · rw [seen, hslot.offsetOf, seen]
  · split
    · rw [seen, hslot.offsetOf, seen]
    · rw [hwrite]
      split
      · rw [seen, hslot.offsetOf, seen]
      · rw [seen, hslot.offsetOf_modify, seen]

/-- A call through a descriptor of a file or socket depends on its slot, and on the
socket that is open under its number. -/
theorem serve_seen_congr [Mapper] {idx : UInt8} (hslot : t.SameSlot t' fd)
    (hget : t.get fd = some x) (htarget : x.target = .file idx)
    (hlive : socks.live fd = k.sockets.live fd) (call : DescriptorCall) :
    (call.serve c fuel { ctx with fds := t' } fd { k with sockets := socks }).seen fd =
      (call.serve c fuel { ctx with fds := t } fd k).seen fd := by
  have hget' := hslot.get.trans hget
  cases call with
  | read buf count =>
    simp only [DescriptorCall.serve, sysRead, hget, hget', Option.map_some, htarget]
    split
    · rw [seen, hslot.offsetOf, seen]
    · rw [if_neg (by simp), if_neg (by simp)]
      exact readVfs_seen_congr hslot buf count
  | write buf count =>
    simp only [DescriptorCall.serve, sysWrite, hget, hget', Option.map_some, htarget]
    split
    · rw [seen, hslot.offsetOf, seen]
    · split
      · rw [seen, hslot.offsetOf, seen]
      · split
        · rw [seen, hslot.offsetOf, seen]
        · rw [seen, hslot.offsetOf, seen]
        · rw [if_neg (by simp), if_neg (by simp)]
          exact writeVfs_seen_congr hslot _ _
  | sendto buf len =>
    rw [seen, seen, DescriptorCall.serve, DescriptorCall.serve, sysSendto, sysSendto]
    obtain ⟨hreply, hmemory⟩ := sendto_congr hlive _
    rw [hslot.offsetOf, hreply, hmemory]
  | recvfrom buf len =>
    rw [seen, seen, DescriptorCall.serve, DescriptorCall.serve, sysRecvfrom, sysRecvfrom]
    obtain ⟨hreply, hmemory⟩ := recvfrom_congr hlive _ _
    rw [hslot.offsetOf, hreply, hmemory]

end

variable {s : DescriptorSystem σ} {d e : FdRef}

namespace DescriptorSystem

theorem sameSlot_close (hne : e ≠ d) : (s.fds e.pid).SameSlot ((s.close d).fds e.pid) e.fd := by
  rw [close]
  dsimp only
  by_cases hpid : e.pid = d.pid
  · rw [hpid, update_self, sysClose_fds]
    apply FdTable.sameSlot_close
    intro hfd
    apply hne
    cases e
    cases d
    cases hpid
    cases hfd
    rfl
  · rw [update_of_ne hpid]
    exact .refl _ _

variable {done : List FdRef}

theorem sameSlot_closeAll (hmem : e ∉ done) :
    (s.fds e.pid).SameSlot ((s.closeAll done).fds e.pid) e.fd := by
  induction done generalizing s with
  | nil => exact .refl _ _
  | cons d rest ih =>
    rw [List.mem_cons, not_or] at hmem
    exact (sameSlot_close hmem.1).trans (ih hmem.2)

/-! The handle of a scheme -/

def Closes (s : DescriptorSystem σ) (d : FdRef) : Prop :=
  schemeHandle (s.fds d.pid) d.fd s.resources ≠ none

theorem closeCalls_close (s : DescriptorSystem σ) (d : FdRef) :
    (s.close d).resources.closeCalls = s.resources.closeCalls ↔ ¬ s.Closes d := by
  rw [close, Closes]
  dsimp only
  rw [sysClose_resources]
  cases schemeHandle (s.fds d.pid) d.fd s.resources with
  | none => exact iff_of_true rfl (fun h => h rfl)
  | some handle => simp

theorem not_closes_close (h : ¬ s.Closes e) : ¬ (s.close d).Closes e := by
  rw [Closes, not_not] at h ⊢
  have hshared : (s.close d).resources.vfs = s.resources.vfs ∧
      (s.close d).resources.registry = s.resources.registry := by
    rw [close]
    dsimp only
    rw [sysClose_resources]
    split <;> exact ⟨rfl, rfl⟩
  by_cases hne : e = d
  · subst hne
    rw [schemeHandle] at h ⊢
    split
    · rfl
    · next hfd =>
      have hget : ((s.close e).fds e.pid).get e.fd = none := by
        rw [close]
        dsimp only
        rw [update_self, sysClose_fds, FdTable.get_close, if_pos ⟨rfl, by omega⟩]
      rw [getVfsHandle, hget]
      rfl
  · rw [schemeHandle, getVfsHandle_congr (sameSlot_close hne), hshared.1, hshared.2]
    exact h

theorem closeCalls_closeAll (h : ∀ d ∈ done, ¬ s.Closes d) :
    (s.closeAll done).resources.closeCalls = s.resources.closeCalls := by
  induction done generalizing s with
  | nil => rfl
  | cons d rest ih =>
    have hfirst := (closeCalls_close s d).mpr (h d List.mem_cons_self)
    rw [← hfirst]
    exact ih fun e he => not_closes_close (h e (List.mem_cons_of_mem d he))

variable {copies : List FdRef}

theorem not_released (htwo : 2 ≤ copies.length) :
    ¬ ∀ done rest, (done ++ rest).Perm copies → done ≠ [] →
      ((s.closeAll done).resources.closeCalls ≠ s.resources.closeCalls ↔ rest = []) := by
  intro h
  by_cases hcloses : ∃ d ∈ copies, s.Closes d
  · obtain ⟨d, hd, hcloses⟩ := hcloses
    have hfirst := (h [d] (copies.erase d) (List.perm_cons_erase hd).symm
      (List.cons_ne_nil d [])).mp fun hsame => (closeCalls_close s d).mp hsame hcloses
    have hlen := List.length_erase_of_mem hd
    rw [hfirst, List.length_nil] at hlen
    omega
  · have hnone : ∀ d ∈ copies, ¬ s.Closes d := fun d hd hc => hcloses ⟨d, hd, hc⟩
    have hne : copies ≠ [] := by
      rintro rfl
      cases htwo
    have hall := h copies [] (by rw [List.append_nil]) hne
    exact hall.mpr rfl (closeCalls_closeAll hnone)

/-! Sockets -/

theorem close_file {idx : UInt8} (hget : (s.fds d.pid).get d.fd = some x)
    (htarget : x.target = .file idx) :
    (s.close d).resources =
      { s.resources with sockets := s.resources.sockets.afterClose d.fd } := by
  have hnone : schemeHandle (s.fds d.pid) d.fd s.resources = none := by
    rw [schemeHandle]
    split
    · rfl
    · split
      · next name id hhandle =>
        exact absurd hhandle (getVfsHandle_file hget htarget _ name id)
      · rfl
  rw [close]
  dsimp only
  rw [sysClose_resources, hnone]

theorem SocketApart.live_close (h : s.SocketApart d e) :
    (s.resources.sockets.afterClose d.fd).live e.fd = s.resources.sockets.live e.fd := by
  rw [live_afterClose]
  split
  · next hhit =>
    cases hlive : s.resources.sockets.live e.fd with
    | none => rfl
    | some entry =>
      obtain ⟨hfd, hpeer⟩ := h hhit.1 (by rw [hlive]; rfl)
      exact (hhit.2.elim hfd hpeer).elim
  · rfl

/-- Closing copies of socket descriptors changes nothing but the sockets, and none that
stands apart from all of them. -/
theorem closeAll_sockets (hnodup : done.Nodup)
    (hfile : ∀ d ∈ done, ∃ x idx, (s.fds d.pid).get d.fd = some x ∧ x.target = .file idx) :
    ∃ socks, (s.closeAll done).resources = { s.resources with sockets := socks } ∧
      ∀ e, (∀ d ∈ done, s.SocketApart d e) → socks.live e.fd = s.resources.sockets.live e.fd := by
  induction done generalizing s with
  | nil => exact ⟨s.resources.sockets, rfl, fun _ _ => rfl⟩
  | cons d rest ih =>
    obtain ⟨hd, hrest⟩ := List.nodup_cons.mp hnodup
    obtain ⟨x, idx, hget, htarget⟩ := hfile d List.mem_cons_self
    have hclose := close_file hget htarget
    have hfile' : ∀ d' ∈ rest, ∃ x idx, ((s.close d).fds d'.pid).get d'.fd = some x ∧
        x.target = .file idx := by
      intro d' hd'
      obtain ⟨y, idx', hy, htarget'⟩ := hfile d' (List.mem_cons_of_mem d hd')
      have hne : d' ≠ d := fun heq => hd (heq ▸ hd')
      exact ⟨y, idx', (sameSlot_close hne).get.trans hy, htarget'⟩
    obtain ⟨socks, hres, hlive⟩ := ih hrest hfile'
    refine ⟨socks, ?_, fun e hapart => ?_⟩
    · change ((s.close d).closeAll rest).resources = _
      rw [hres, hclose]
    · have hfirst := (hapart d List.mem_cons_self).live_close
      have hsocks : (s.close d).resources.sockets =
          s.resources.sockets.afterClose d.fd := by rw [hclose]
      rw [← hfirst, ← hsocks]
      -- the later closes still stand apart: no socket is paired anew
      apply hlive e
      intro d' hd' hthree hsome
      rw [hsocks, hfirst] at hsome
      obtain ⟨hfd, hpeer⟩ := hapart d' (List.mem_cons_of_mem d hd') hthree hsome
      refine ⟨hfd, fun hp => hpeer ?_⟩
      rw [hsocks] at hp
      exact peer_afterClose hp

theorem usable_of_apart [Mapper] (hnodup : copies.Nodup)
    (hsocket : ∀ d ∈ copies, s.IsSocket d)
    (hapart : ∀ d ∈ copies, ∀ e ∈ copies, d ≠ e → s.SocketApart d e)
    (c : CompressionEngine) (fuel : Nat) {rest : List FdRef}
    (hperm : (done ++ rest).Perm copies) (he : e ∈ rest) (ctx : SyscallContext)
    (call : DescriptorCall) :
    (s.closeAll done).observe c fuel ctx call e = s.observe c fuel ctx call e := by
  have hall := hperm.nodup_iff.mpr hnodup
  have hdone : ∀ d ∈ done, d ∈ copies := fun d hd =>
    hperm.mem_iff.mp (List.mem_append_left rest hd)
  have hmem : e ∈ copies := hperm.mem_iff.mp (List.mem_append_right done he)
  have hnot : e ∉ done := fun hd => (List.nodup_append.mp hall).2.2 e hd e he rfl
  obtain ⟨socks, hres, hlive⟩ := closeAll_sockets (List.nodup_append.mp hall).1
    fun d hd => (hsocket d (hdone d hd)).1
  obtain ⟨x, idx, hget, htarget⟩ := (hsocket e hmem).1
  rw [observe, hres, observe]
  refine serve_seen_congr (sameSlot_closeAll hnot) hget htarget (hlive e fun d hd => ?_) call
  exact hapart d (hdone d hd) e hmem fun heq => hnot (heq ▸ hd)

/-- A process that may use the network, for a call on a socket without a buffer. -/
def networkContext : SyscallContext where
  pid := 0
  fds := .new
  capabilities := [⟨1, none, .network, .readWrite, 0⟩]
  space := exampleSpace false

theorem observe_sendto [Mapper] (c : CompressionEngine) (fuel : Nat) (s : DescriptorSystem σ)
    (e : FdRef) : (s.observe c fuel networkContext (.sendto 0 0) e).1 =
      if (s.resources.sockets.live e.fd).isSome then .ok 0 else .ok (negErrno 9) := by
  have hperm : networkContext.capabilities.hasPermission .network true false = true := rfl
  simp only [observe, DescriptorCall.serve, sysSendto, sendto, seen, hperm, Bool.not_true,
    Bool.false_eq_true, true_or, ↓reduceIte]
  cases s.resources.sockets.live e.fd with
  | none => rfl
  | some entry => rfl

theorem apart_of_usable [Mapper] (hsocket : ∀ d ∈ copies, s.IsSocket d)
    {c : CompressionEngine} {fuel : Nat}
    (husable : ∀ done rest, (done ++ rest).Perm copies → ∀ e ∈ rest, ∀ ctx call,
      (s.closeAll done).observe c fuel ctx call e = s.observe c fuel ctx call e)
    (hd : d ∈ copies) (he : e ∈ copies) (hne : d ≠ e) : s.SocketApart d e := by
  intro hthree hsome
  obtain ⟨x, idx, hget, htarget⟩ := (hsocket d hd).1
  have hsame := congrArg Prod.fst (husable [d] (copies.erase d)
    (List.perm_cons_erase hd).symm e ((List.mem_erase_of_ne (Ne.symm hne)).mpr he)
    networkContext (.sendto 0 0))
  rw [observe_sendto, observe_sendto, if_pos hsome] at hsame
  have hgone : (s.closeAll [d]).resources.sockets.live e.fd =
      if 3 ≤ d.fd ∧ (e.fd = d.fd ∨ s.resources.sockets.peer d.fd = some e.fd) then none
      else s.resources.sockets.live e.fd := by
    change (s.close d).resources.sockets.live e.fd = _
    rw [close_file hget htarget]
    exact live_afterClose ..
  have hkept : ¬(3 ≤ d.fd ∧ (e.fd = d.fd ∨ s.resources.sockets.peer d.fd = some e.fd)) := by
    intro hhit
    rw [hgone, if_pos hhit] at hsame
    simp [negErrno] at hsame
  exact ⟨fun hfd => hkept ⟨hthree, .inl hfd⟩, fun hpeer => hkept ⟨hthree, .inr hpeer⟩⟩

/-- Copies of a descriptor are independent exactly when they are copies of a socket
whose numbers keep out of each other's way; copies of a scheme descriptor never are. -/
theorem independent_iff [Mapper] (c : CompressionEngine) (fuel : Nat) (s : DescriptorSystem σ)
    (copies : List FdRef) (hdup : s.Duplicates copies) :
    Independent c fuel s copies ↔ (∀ d ∈ copies, s.IsSocket d) ∧
      ∀ d ∈ copies, ∀ e ∈ copies, d ≠ e → s.SocketApart d e := by
  obtain ⟨hnodup, htwo, -, hkind⟩ := hdup
  have hfirst : ∃ d, d ∈ copies := List.exists_mem_of_length_pos (by omega)
  constructor
  · rintro ⟨husable, hreleased⟩
    rcases hkind with hscheme | hsocket
    · obtain ⟨d, hd⟩ := hfirst
      exact absurd (hreleased ⟨d, hd, hscheme d hd⟩) (not_released htwo)
    · exact ⟨hsocket, fun d hd e he hne => apart_of_usable hsocket husable hd he hne⟩
  · rintro ⟨hsocket, hapart⟩
    refine ⟨fun done rest hperm e he ctx call =>
      usable_of_apart hnodup hsocket hapart c fuel hperm he ctx call, ?_⟩
    rintro ⟨d, hd, x, idx, handle, hget, htarget⟩
    obtain ⟨y, idx', hget', htarget'⟩ := (hsocket d hd).1
    obtain rfl := Option.some.inj (hget.symm.trans hget')
    rw [htarget] at htarget'
    cases htarget'

end DescriptorSystem

end

section

open DescriptorSystem

/-- A scheme with one handle, which can be read as long as it is open. -/
def onceScheme : SchemeOps Bool where
  read _ _ isOpen := (if isOpen then .ok (1, fun _ => 7) else .error (.other "EBADF"), isOpen)
  write _ _ isOpen := (.error (.other "EBADF"), isOpen)
  close _ _ := (.ok (), false)

/-- A kernel with that scheme under the name `a`, and one open socket under number 3. -/
def copiesKernel : Resources Bool where
  ipc := ⟨fun _ => none⟩
  input := []
  uart := []
  serial := []
  vfs := .empty
  registry name := if name = [97] then some onceScheme else none
  sockets n := if n = 3 then some { SocketEntry.new 1 2 1 with state := .connected } else none
  devices := true
  closeCalls := []

/-- Process 1 has opened `a:` as descriptor 3, and has duplicated it. -/
def schemeCopies : DescriptorSystem Bool :=
  DescriptorSystem.dup
    { fds _ := ((FdTable.new.allocScheme [97, 58] 0 5).elim .new (·.2))
      resources := copiesKernel }
    ⟨1, 3⟩

/-- Process 1 has created a socket as descriptor 3, and has duplicated it. -/
def socketCopies : DescriptorSystem Bool :=
  DescriptorSystem.dup
    { fds _ := ((FdTable.new.allocFile socketPath 1).elim .new (·.2))
      resources := copiesKernel }
    ⟨1, 3⟩

def fileReader : SyscallContext where
  pid := 1
  fds := .new
  capabilities := [⟨1, none, .file, .readWrite, 0⟩]
  space := exampleSpace true

attribute [local instance] levelMapper

theorem schemeCopies_duplicates : schemeCopies.Duplicates [⟨1, 3⟩, ⟨1, 4⟩] where
  distinct := by decide
  several := by decide
  same d hd e he := by
    simp only [List.mem_cons, List.not_mem_nil, or_false] at hd he
    rcases hd with rfl | rfl <;> rcases he with rfl | rfl <;>
      exact ⟨_, _, rfl, rfl, rfl, by decide +kernel⟩
  kind := .inl fun d hd => by
    simp only [List.mem_cons, List.not_mem_nil, or_false] at hd
    rcases hd with rfl | rfl <;> exact ⟨_, _, _, rfl, rfl⟩

/-- After one copy has been closed the other one is open and cannot be read any more. -/
theorem schemeCopies_closed : schemeCopies.Duplicates [⟨1, 3⟩, ⟨1, 4⟩] ∧
    (schemeCopies.observe literalEngine 1 fileReader (.read 0x40000ff0 1) ⟨1, 4⟩).1 = .ok 1 ∧
    ((schemeCopies.close ⟨1, 3⟩).observe literalEngine 1 fileReader (.read 0x40000ff0 1)
      ⟨1, 4⟩).1 = .ok (negErrno 9) ∧
    (schemeCopies.close ⟨1, 3⟩).resources.closeCalls = [([97], 5)] :=
  ⟨schemeCopies_duplicates, by decide +kernel, by decide +kernel, by decide +kernel⟩

theorem socketCopies_duplicates : socketCopies.Duplicates [⟨1, 3⟩, ⟨1, 4⟩] where
  distinct := by decide
  several := by decide
  same d hd e he := by
    simp only [List.mem_cons, List.not_mem_nil, or_false] at hd he
    rcases hd with rfl | rfl <;> rcases he with rfl | rfl <;>
      exact ⟨_, _, rfl, rfl, rfl, by decide +kernel⟩
  kind := .inr fun d hd => by
    simp only [List.mem_cons, List.not_mem_nil, or_false] at hd
    rcases hd with rfl | rfl <;> exact ⟨⟨_, _, rfl, rfl⟩, by decide +kernel⟩

/-- The copies of the socket have different numbers, and only one of them is open. -/
theorem socketCopies_independent : socketCopies.Duplicates [⟨1, 3⟩, ⟨1, 4⟩] ∧
    ∀ c fuel, Independent c fuel socketCopies [⟨1, 3⟩, ⟨1, 4⟩] := by
  refine ⟨socketCopies_duplicates, fun c fuel =>
    (independent_iff c fuel socketCopies _ socketCopies_duplicates).mpr ⟨?_, ?_⟩⟩
  · exact socketCopies_duplicates.kind.resolve_left fun hscheme => by
      obtain ⟨x, idx, handle, hget, htarget⟩ := hscheme ⟨1, 3⟩ List.mem_cons_self
      have hx := Option.some.inj hget
      rw [← hx] at htarget
      cases htarget
  · intro d hd e he hne
    simp only [List.mem_cons, List.not_mem_nil, or_false] at hd he
    rcases hd with rfl | rfl <;> rcases he with rfl | rfl
    · exact absurd rfl hne
    · exact fun _ hlive => nomatch hlive
    · exact fun _ _ => ⟨by decide, fun hpeer => nomatch hpeer⟩
    · exact absurd rfl hne

end

end ZiqaKernel
