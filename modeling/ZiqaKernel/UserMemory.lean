/-
The regions of a process and the kernel's stores into them: `sys_mmap`
(`abi/linux/mod.rs`, `process/vma.rs`), `verify_user_region` and `copy_to_user`
(`memory/mod.rs`).  Pages of a region are mapped when they are first touched; a
store that faults runs the page-fault handler in a kernel frame.
-/
import ZiqaKernel.PageFault
import ZiqaKernel.UpdateSequences

namespace ZiqaKernel

open Function

/-! Addresses -/

/-- `VirtAddr::new` of the crate `x86_64`.  When bit 47 is the highest one set, it is copied to the bits
above it; other data in these bits panics. -/
def virtAddrNew (addr : Nat) : Option Nat :=
  if addr / 2 ^ 47 = 0 ∨ addr / 2 ^ 47 = 0x1ffff then some addr
  else if addr / 2 ^ 47 = 1 then some (addr + 0xffff000000000000)
  else none

/-- `USER_ADDR_MAX`. -/
def userAddrMax : Nat := 0x800000000000

/-- The sum of an address and a `u64`, as `VirtAddr` computes it. -/
def virtAddrAdd (addr n : Nat) : Option Nat := virtAddrNew ((addr + n) % 2 ^ 64)

/-- `align_up` to a page; the end of the address space panics. -/
def virtAddrAlignUp (addr : Nat) : Option Nat :=
  if addr % 4096 = 0 then some addr
  else if pageStart addr + 4096 < 2 ^ 64 then virtAddrNew (pageStart addr + 4096)
  else none

/-! Regions -/

/-- `is_range_free`. -/
def isRangeFree (vmas : List Vma) (start size : Nat) : Bool :=
  !vmas.any fun vma => start < vma.stop && (start + size) % 2 ^ 64 > vma.start

/-- The loop of `find_free_range`. -/
def firstGap (size : Nat) : List Vma → Nat → Option Nat
  | [], current => some current
  | vma :: rest, current =>
    if vma.stop ≤ current then firstGap size rest current
    else (virtAddrAdd current size).bind fun stop =>
      if stop ≤ vma.start then some current else firstGap size rest vma.stop

/-- `find_free_range`; it always finds a range, or it panics. -/
def findFreeRange (vmas : List Vma) (size hint : Nat) : Option Nat :=
  if hint ≠ 0 ∧ hint % 4096 = 0 ∧ isRangeFree vmas hint size then some hint
  else (if hint ≠ 0 then virtAddrAlignUp hint else some 0x40000000).bind (firstGap size vmas)

/-- `prot_to_region_flags`. -/
def protToRegionFlags (prot : Nat) : MemoryRegionFlags where
  writable := prot.testBit 1
  executable := prot.testBit 2
  userAccessible := true
  copyOnWrite := false

/-- The arguments of `sys_mmap` that matter; `flags` only tells a file from anonymous
memory, and both are mapped alike. -/
structure MmapArgs where
  hint : Nat
  length : Nat
  prot : Nat

/-- The region that `sys_mmap` adds for a length that is not zero. -/
def mmapRegion (vmas : List Vma) (args : MmapArgs) : Option Vma :=
  (virtAddrNew args.hint).bind fun hint =>
    (findFreeRange vmas args.length hint).bind fun base =>
      (virtAddrAdd base args.length).map fun stop => {
        start := base
        stop := stop
        flags := protToRegionFlags args.prot
        fileOffset := 0
        fileSize := 0 }

/-- `add_region`: the regions are sorted by their start. -/
def addRegion (vmas : List Vma) (vma : Vma) : List Vma :=
  vmas.takeWhile (·.start < vma.start) ++ vma :: vmas.dropWhile (·.start < vma.start)

theorem mem_addRegion (vmas : List Vma) (vma x : Vma) :
    x ∈ addRegion vmas vma ↔ x = vma ∨ x ∈ vmas := by
  have hsplit : x ∈ vmas ↔ x ∈ vmas.takeWhile (·.start < vma.start) ∨
      x ∈ vmas.dropWhile (·.start < vma.start) := by
    rw [← List.mem_append, List.takeWhile_append_dropWhile]
  rw [addRegion, List.mem_append, List.mem_cons, hsplit]
  exact or_left_comm

/-- What `sys_mmap` returns to the process. -/
inductive MmapReply where
  | permissionDenied
  | einval
  | mapped (base : Nat)

/-- `sys_mmap`, when `permitted` is the answer of the capability check. -/
def sysMmap (permitted : Bool) (args : MmapArgs) (vmas : List Vma) :
    Option (MmapReply × List Vma) :=
  if !permitted then some (.permissionDenied, vmas)
  else if args.length = 0 then some (.einval, vmas)
  else (mmapRegion vmas args).map fun vma => (.mapped vma.start, addRegion vmas vma)

/-- `verify_user_region`. -/
def verifyUserRegion (vmas : List Vma) (addr len : Nat) : Bool :=
  if len = 0 then true
  else if addr + len ≥ 2 ^ 64 then false
  else if addr + len > userAddrMax then false
  else vmas.any fun vma => addr ≥ vma.start && addr + len ≤ vma.stop

theorem verifyUserRegion_of_mem {vmas : List Vma} {vma : Vma} (hvma : vma ∈ vmas)
    {addr len : Nat} (hstart : vma.start ≤ addr) (hstop : addr + len ≤ vma.stop) :
    verifyUserRegion vmas addr len = true ↔ (len ≠ 0 → addr + len ≤ userAddrMax) := by
  have hany : (vmas.any fun vma => addr ≥ vma.start && addr + len ≤ vma.stop) = true :=
    List.any_eq_true.mpr ⟨vma, hvma, by simp [hstart, hstop]⟩
  unfold verifyUserRegion userAddrMax
  by_cases hlen : len = 0
  · simp [hlen]
  · by_cases hmax : addr + len ≤ 0x800000000000
    · have h64 : ¬ addr + len ≥ 2 ^ 64 := by omega
      have hmax' : ¬ addr + len > 0x800000000000 := by omega
      simp only [hlen, h64, hmax', hany, ↓reduceIte, hmax, implies_true]
    · simp [hlen, hmax]

/-! Bytes of physical memory -/

namespace PhysMemory

def byte (m : PhysMemory) (a : Nat) : UInt8 := (m.pages (a / 4096)).get (a % 4096)

def setByte (m : PhysMemory) (a : Nat) (b : UInt8) : PhysMemory where
  tables := m.tables
  pages := update m.pages (a / 4096) ((m.pages (a / 4096)).splice (a % 4096) 1 fun _ => b)
  free := m.free

theorem byte_setByte (m : PhysMemory) (a : Nat) (b : UInt8) :
    (m.setByte a b).byte = update m.byte a b := by
  funext a'
  by_cases heq : a' = a
  · subst heq
    rw [update_self, byte, setByte]
    dsimp only
    rw [update_self, Image.get_splice, if_pos (by omega)]
  · rw [update_of_ne heq, byte, setByte]
    dsimp only
    by_cases hpage : a' / 4096 = a / 4096
    · rw [hpage, update_self, Image.get_splice, if_neg (by omega), byte, hpage]
    · rw [update_of_ne hpage, byte]

end PhysMemory

/-- The byte at an address, as the tables at `root` map it. -/
def userByte (root : Nat) (s : PagedMemory) (v : Nat) : Option UInt8 :=
  (walk s.memory.tables v 4 root).map fun l => s.memory.byte l.phys

/-! The running process -/

/-- A process in service, with the kernel's own tables for processes that have none.
Frames that the allocator will hand out are not used as tables, and a page that has
been compressed is not present. -/
structure UserSpace where
  proc : ProcessMemory
  kernelRoot : Nat
  memory : PagedMemory
  fresh : ∀ v, ∀ q ∈ path memory.memory.tables v 4 (proc.pageTableFrame.getD kernelRoot),
    q.1 ∉ memory.memory.free
  plain : ∀ v q, leafEntry memory.memory.tables v 4 (proc.pageTableFrame.getD kernelRoot) = some q →
      (memory.memory.tables q.1 q.2).flags.compressed = false

namespace UserSpace

/-- The table in `Cr3`. -/
def cr3 (u : UserSpace) : Nat := u.proc.pageTableFrame.getD u.kernelRoot

def leafAt (u : UserSpace) (v : Nat) : Option Leaf :=
  walk u.memory.memory.tables v 4 u.cr3

def withByte (u : UserSpace) (a : Nat) (b : UInt8) : UserSpace where
  proc := u.proc
  kernelRoot := u.kernelRoot
  memory := { u.memory with memory := u.memory.memory.setByte a b }
  fresh := u.fresh
  plain := u.plain

end UserSpace

/-- How `copy_to_user` ends: with `Ok` or `Err`, with a panic, with the machine
halted by the page-fault handler, or not yet. -/
inductive CopyOutcome where
  | ok
  | err
  | panicked
  | halted
  | running
deriving DecidableEq

section

variable [Mapper] (c : CompressionEngine)

/-- A store of the kernel, when the page-fault handler runs fewer than `fuel` times.
The hardware refuses it on a page that is not writable. -/
def storeByte (proc : ProcessMemory) (kernelRoot v : Nat) (b : UInt8) :
    Nat → PagedMemory → CopyOutcome × PagedMemory
  | 0, s => (.running, s)
  | fuel + 1, s =>
    match (walk s.memory.tables v 4 (proc.pageTableFrame.getD kernelRoot)).filter (·.writable) with
    | some l => (.ok, { s with memory := s.memory.setByte l.phys b })
    | none =>
      match pageFaultHandler c (proc.pageTableFrame.getD kernelRoot) kernelRoot proc v
          ⟨true, false⟩ false s with
      | (.resumed, s') => storeByte proc kernelRoot v b fuel s'
      | (_, s') => (.halted, s')

/-- `copy_nonoverlapping` to the addresses from `v` on. -/
def storeBytes (proc : ProcessMemory) (kernelRoot fuel : Nat) :
    Nat → List UInt8 → PagedMemory → CopyOutcome × PagedMemory
  | _, [], s => (.ok, s)
  | v, b :: rest, s =>
    match storeByte c proc kernelRoot v b fuel s with
    | (.ok, s') => storeBytes proc kernelRoot fuel (v + 1) rest s'
    | (outcome, s') => (outcome, s')

/-- The check of one page in the loop of `copy_to_user`. -/
def checkPage (t : Tables) (root page : Nat) : CopyOutcome :=
  match virtAddrNew page with
  | none => .panicked
  | some v =>
    match leafEntry t v 4 root with
    | some q => if (t q.1 q.2).flags.writable then .ok else .err
    | none => .err

/-- The loop of `copy_to_user` over the pages. -/
def checkPages (t : Tables) (root : Nat) : List Nat → CopyOutcome
  | [] => .ok
  | page :: rest =>
    match checkPage t root page with
    | .ok => checkPages t root rest
    | outcome => outcome

/-- The pages that the loop visits: from the one that holds `dst` up to the end. -/
def pagesOf (dst len : Nat) : List Nat :=
  (List.range ((dst + len - pageStart dst + 4095) / 4096)).map (pageStart dst + 4096 * ·)

/-- `copy_to_user`. -/
def copyToUser (u : UserSpace) (fuel dst : Nat) (src : List UInt8) : CopyOutcome × PagedMemory :=
  if verifyUserRegion u.proc.vmas dst src.length then
    match checkPages u.memory.memory.tables u.cr3 (pagesOf dst src.length) with
    | .ok => storeBytes c u.proc u.kernelRoot fuel dst src u.memory
    | outcome => (outcome, u.memory)
  else (.err, u.memory)

end

section

variable {c : CompressionEngine}

/-! The pages of a range -/

theorem mem_pagesOf {dst len page : Nat} : page ∈ pagesOf dst len ↔
    page % 4096 = 0 ∧ pageStart dst ≤ page ∧ page < dst + len := by
  unfold pagesOf pageStart
  rw [List.mem_map]
  constructor
  · rintro ⟨k, hk, rfl⟩
    rw [List.mem_range] at hk
    omega
  · rintro ⟨hpage, hle, hlt⟩
    refine ⟨(page - dst / 4096 * 4096) / 4096, ?_, ?_⟩
    · rw [List.mem_range]
      omega
    · omega

theorem pageStart_mem_pagesOf {dst len i : Nat} (hi : i < len) :
    pageStart (dst + i) ∈ pagesOf dst len := by
  rw [mem_pagesOf]
  unfold pageStart
  omega

theorem leafEntry_pageStart (t : Tables) (v n f : Nat) :
    leafEntry t (pageStart v) n f = leafEntry t v n f := by
  have hindex : ∀ level, pageIndex level (pageStart v) = pageIndex level v := by
    intro level
    have hpage : pageStart v / 4096 = v / 4096 := by
      unfold pageStart
      omega
    rw [pageIndex, pageIndex, hpage]
  induction n generalizing f with
  | zero => rfl
  | succ n ih =>
    cases n with
    | zero => rw [leafEntry, leafEntry, hindex]
    | succ n =>
      rw [leafEntry, leafEntry, hindex]
      congr 1
      funext g
      exact ih g

theorem checkPage_eq_ok_iff {t : Tables} {root page : Nat} :
    checkPage t root page = .ok ↔ ∃ v q, virtAddrNew page = some v ∧
      leafEntry t v 4 root = some q ∧ (t q.1 q.2).flags.writable = true := by
  unfold checkPage
  cases hnew : virtAddrNew page with
  | none => simp
  | some v =>
    cases hleaf : leafEntry t v 4 root with
    | none => simp [hleaf]
    | some q =>
      constructor
      · intro h
        refine ⟨v, q, rfl, hleaf, ?_⟩
        by_contra hw
        simp [hleaf, hw] at h
      · rintro ⟨w, p, hw, hp, hwritable⟩
        obtain rfl := Option.some.inj hw
        obtain rfl := Option.some.inj (hleaf.symm.trans hp)
        simp [hleaf, hwritable]

theorem checkPages_eq_ok_iff {t : Tables} {root : Nat} {pages : List Nat} :
    checkPages t root pages = .ok ↔ ∀ page ∈ pages, checkPage t root page = .ok := by
  induction pages with
  | nil => simp [checkPages]
  | cons page rest ih =>
    rw [checkPages, List.forall_mem_cons, ← ih]
    cases checkPage t root page <;> simp

theorem virtAddrNew_of_lt {addr : Nat} (h : addr < userAddrMax) : virtAddrNew addr = some addr := by
  unfold userAddrMax at h
  rw [virtAddrNew, if_pos (Or.inl (by omega))]

/-! Stores -/

namespace UserSpace

variable {u : UserSpace} {v dst : Nat} {b : UInt8} {fuel : Nat} {s' : PagedMemory}

/-- A store to a page that is present and cannot be written halts the machine: the
page is not compressed, and demand paging does not map it again. -/
theorem pageFaultHandler_halted [Mapper] [Mapper.RefusesMapped] {q : Nat × Nat}
    (hq : leafEntry u.memory.memory.tables v 4 u.cr3 = some q) :
    (pageFaultHandler c u.cr3 u.kernelRoot u.proc v ⟨true, false⟩ false u.memory).1 =
      .halted := by
  obtain ⟨-, l, hwalk, -⟩ := leafEntry_spec hq
  have hcompressed : handleCompressedFault c u.cr3 v u.memory = (false, u.memory) := by
    rw [handleCompressedFault, hq]
    dsimp only
    rw [u.plain v q hq]
    rfl
  have hmapped : (handleFaultFor u.proc u.kernelRoot v ⟨true, false⟩ u.memory.memory).1 =
      false :=
    handleFaultFor_of_mapped rfl (u.fresh v) (by rw [← cr3, hwalk]; rfl) _
  rw [pageFaultHandler, hcompressed]
  dsimp only
  split
  · next hhandled =>
    rw [hhandled] at hmapped
    cases hmapped
  · rfl

theorem storeByte_of_writable [Mapper] {l : Leaf} (hfuel : fuel ≠ 0) (hl : u.leafAt v = some l)
    (hw : l.writable = true) :
    storeByte c u.proc u.kernelRoot v b fuel u.memory = (.ok, (u.withByte l.phys b).memory) := by
  obtain ⟨fuel, rfl⟩ := Nat.exists_eq_succ_of_ne_zero hfuel
  rw [leafAt, cr3] at hl
  rw [storeByte, hl]
  simp only [Option.filter, hw, ↓reduceIte]
  rfl

theorem storeByte_eq_ok_iff [Mapper] [Mapper.RefusesMapped] {q : Nat × Nat}
    (hq : leafEntry u.memory.memory.tables v 4 u.cr3 = some q) :
    storeByte c u.proc u.kernelRoot v b fuel u.memory = (.ok, s') ↔
      fuel ≠ 0 ∧ ∃ l, u.leafAt v = some l ∧ l.writable = true ∧
        s' = (u.withByte l.phys b).memory := by
  constructor
  · intro h
    cases fuel with
    | zero => cases (Prod.mk.inj h).1
    | succ fuel =>
      have hhalted := pageFaultHandler_halted (c := c) hq
      obtain ⟨-, l, hleaf, -⟩ := leafEntry_spec hq
      have hwalk := hleaf
      rw [cr3] at hwalk hhalted
      refine ⟨Nat.succ_ne_zero fuel, l, hleaf, ?_⟩
      rw [storeByte, hwalk] at h
      by_cases hw : l.writable = true
      · simp only [Option.filter, hw, ↓reduceIte, Prod.mk.injEq, true_and] at h
        exact ⟨hw, h.symm⟩
      · simp only [Option.filter, hw, Bool.false_eq_true, ↓reduceIte] at h
        split at h
        · next hresumed =>
          rw [hresumed] at hhalted
          cases hhalted
        · cases (Prod.mk.inj h).1
  · rintro ⟨hfuel, l, hl, hw, rfl⟩
    exact storeByte_of_writable hfuel hl hw

/-- The physical address behind `v`. -/
def physAt (u : UserSpace) (v : Nat) : Nat := (u.leafAt v).elim 0 (·.phys)

/-- The process after the bytes have been stored from `v` on. -/
def stored (u : UserSpace) : Nat → List UInt8 → UserSpace
  | _, [] => u
  | v, b :: rest => (u.withByte (u.physAt v) b).stored (v + 1) rest

def writes (u : UserSpace) (v : Nat) (bytes : List UInt8) : List (Nat × UInt8) :=
  bytes.mapIdx fun i b => (u.physAt (v + i), b)

variable (bytes : List UInt8)

@[simp]
theorem leafAt_stored (w : Nat) :
    (u.stored v bytes).leafAt w = u.leafAt w := by
  induction bytes generalizing u v with
  | nil => rfl
  | cons b rest ih => exact ih

@[simp]
theorem cr3_stored : (u.stored v bytes).cr3 = u.cr3 := by
  induction bytes generalizing u v with
  | nil => rfl
  | cons b rest ih => exact ih

theorem byte_stored : (u.stored v bytes).memory.memory.byte =
      applyUpdates (u.writes v bytes) u.memory.memory.byte := by
  induction bytes generalizing u v with
  | nil => rfl
  | cons b rest ih =>
    have hshift : u.writes v (b :: rest) =
        (u.physAt v, b) :: (u.withByte (u.physAt v) b).writes (v + 1) rest := by
      simp only [writes, List.mapIdx_cons, Nat.add_zero, Nat.add_assoc, Nat.add_comm 1]
      rfl
    rw [stored, ih, hshift, applyUpdates_cons, ← PhysMemory.byte_setByte]
    rfl

theorem storeBytes_of_writable [Mapper] {bytes : List UInt8} (hfuel : bytes ≠ [] → fuel ≠ 0)
    (hwritable : ∀ i < bytes.length, ∃ l, u.leafAt (v + i) = some l ∧ l.writable = true) :
    storeBytes c u.proc u.kernelRoot fuel v bytes u.memory = (.ok, (u.stored v bytes).memory) := by
  induction bytes generalizing u v with
  | nil => rfl
  | cons b rest ih =>
    have hfuel' := hfuel (List.cons_ne_nil b rest)
    obtain ⟨l, hl, hw⟩ := hwritable 0 (Nat.succ_pos _)
    rw [Nat.add_zero] at hl
    rw [storeBytes, storeByte_of_writable hfuel' hl hw, stored, physAt, hl]
    refine ih (u := u.withByte l.phys b) (fun _ => hfuel') fun i hi => ?_
    rw [Nat.add_assoc, Nat.add_comm 1]
    exact hwritable (i + 1) (Nat.succ_lt_succ hi)

theorem storeBytes_eq_ok_iff [Mapper] [Mapper.RefusesMapped] {bytes : List UInt8}
    (hmapped : ∀ i < bytes.length, ∃ q,
      leafEntry u.memory.memory.tables (v + i) 4 u.cr3 = some q) :
    storeBytes c u.proc u.kernelRoot fuel v bytes u.memory = (.ok, s') ↔ (bytes ≠ [] → fuel ≠ 0) ∧
      (∀ i < bytes.length, ∃ l, u.leafAt (v + i) = some l ∧ l.writable = true) ∧
      s' = (u.stored v bytes).memory := by
  constructor
  · intro h
    induction bytes generalizing u v with
    | nil =>
      rw [storeBytes, Prod.mk.injEq] at h
      exact ⟨fun h => absurd rfl h, fun i hi => absurd hi (Nat.not_lt_zero i), h.2.symm⟩
    | cons b rest ih =>
      obtain ⟨q, hq⟩ := hmapped 0 (Nat.succ_pos _)
      rw [Nat.add_zero] at hq
      have hrest : ∀ i < rest.length, ∃ q,
          leafEntry u.memory.memory.tables (v + 1 + i) 4 u.cr3 = some q := by
        intro i hi
        rw [Nat.add_assoc, Nat.add_comm 1]
        exact hmapped (i + 1) (Nat.succ_lt_succ hi)
      rw [storeBytes] at h
      split at h
      · next s₁ hstore =>
        obtain ⟨hfuel, l, hl, hw, rfl⟩ := (storeByte_eq_ok_iff hq).mp hstore
        obtain ⟨-, hwritable, rfl⟩ := ih (u := u.withByte l.phys b) hrest h
        refine ⟨fun _ => hfuel, fun i hi => ?_, ?_⟩
        · cases i with
          | zero => exact ⟨l, hl, hw⟩
          | succ i =>
            rw [← Nat.add_assoc, Nat.add_right_comm]
            exact hwritable i (Nat.lt_of_succ_lt_succ hi)
        · rw [stored, physAt, hl]
          rfl
      · next outcome s₁ hne hstore =>
        exact (hne (Prod.mk.inj h).1).elim
  · rintro ⟨hfuel, hwritable, rfl⟩
    exact storeBytes_of_writable hfuel hwritable

end UserSpace

/-! Copies into a region -/

/-- The range lies in one writable region that `sys_mmap` has created. -/
structure InMmapRegion (vmas : List Vma) (dst len : Nat) : Prop where
  exists_region : ∃ vma ∈ vmas, vma.flags.writable = true ∧
    (∃ others args, mmapRegion others args = some vma) ∧
    vma.start ≤ dst ∧ dst + len ≤ vma.stop

/-- What a copy needs: the range ends in user space, the entries of all its pages are
there and writable, so are the tables above the pages, and no two addresses of the
range stand for one physical byte that is to hold two values. -/
structure CopyReady (u : UserSpace) (dst : Nat) (src : List UInt8) : Prop where
  user : src ≠ [] → dst + src.length ≤ userAddrMax
  touched : ∀ page ∈ pagesOf dst src.length, ∃ v q, virtAddrNew page = some v ∧
    leafEntry u.memory.memory.tables v 4 u.cr3 = some q ∧
    (u.memory.memory.tables q.1 q.2).flags.writable = true
  writable : ∀ i < src.length, ∃ l, u.leafAt (dst + i) = some l ∧ l.writable = true
  unaliased : ∀ i < src.length, ∀ j < src.length,
    u.physAt (dst + i) = u.physAt (dst + j) → src[i]? = src[j]?

variable {u : UserSpace} {dst fuel : Nat} {src : List UInt8} {s' : PagedMemory}

theorem CopyReady.mapped_of_touched (huser : src ≠ [] → dst + src.length ≤ userAddrMax)
    (htouched : checkPages u.memory.memory.tables u.cr3 (pagesOf dst src.length) = .ok) :
    ∀ i < src.length, ∃ q, leafEntry u.memory.memory.tables (dst + i) 4 u.cr3 = some q := by
  intro i hi
  have hpage := checkPages_eq_ok_iff.mp htouched _ (pageStart_mem_pagesOf hi)
  obtain ⟨v, q, hnew, hleaf, -⟩ := checkPage_eq_ok_iff.mp hpage
  have hend := huser (List.ne_nil_of_length_pos (Nat.zero_lt_of_lt hi))
  have hlt : pageStart (dst + i) < userAddrMax := by
    unfold pageStart
    omega
  rw [virtAddrNew_of_lt hlt, Option.some.injEq] at hnew
  rw [← hnew, leafEntry_pageStart] at hleaf
  exact ⟨q, hleaf⟩

theorem verifyUserRegion_le {vmas : List Vma} {addr len : Nat}
    (h : verifyUserRegion vmas addr len = true) (hlen : len ≠ 0) :
    addr + len ≤ userAddrMax := by
  rw [verifyUserRegion, if_neg hlen] at h
  split at h
  · cases h
  · split at h
    · cases h
    · omega

/-- A copy to pages that pass the check and can be written needs no fault. -/
theorem copyToUser_of_writable [Mapper]
    (hverify : verifyUserRegion u.proc.vmas dst src.length = true)
    (hcheck : checkPages u.memory.memory.tables u.cr3 (pagesOf dst src.length) = .ok)
    (hfuel : src ≠ [] → fuel ≠ 0)
    (hwritable : ∀ i < src.length, ∃ l, u.leafAt (dst + i) = some l ∧ l.writable = true) :
    copyToUser c u fuel dst src = (.ok, (u.stored dst src).memory) := by
  rw [copyToUser, if_pos hverify, hcheck]
  exact UserSpace.storeBytes_of_writable hfuel hwritable

theorem copyToUser_ok_iff [Mapper] [Mapper.RefusesMapped] :
    copyToUser c u fuel dst src = (.ok, s') ↔
      verifyUserRegion u.proc.vmas dst src.length = true ∧
      checkPages u.memory.memory.tables u.cr3 (pagesOf dst src.length) = .ok ∧
      (src ≠ [] → fuel ≠ 0) ∧
      (∀ i < src.length, ∃ l, u.leafAt (dst + i) = some l ∧ l.writable = true) ∧
      s' = (u.stored dst src).memory := by
  unfold copyToUser
  by_cases hverify : verifyUserRegion u.proc.vmas dst src.length = true
  · rw [if_pos hverify]
    have huser : src ≠ [] → dst + src.length ≤ userAddrMax := fun hne =>
      verifyUserRegion_le hverify (by simpa using hne)
    split
    · next hcheck =>
      rw [UserSpace.storeBytes_eq_ok_iff (CopyReady.mapped_of_touched huser hcheck)]
      exact ⟨fun h => ⟨hverify, hcheck, h⟩, fun h => h.2.2⟩
    · next hcheck =>
      constructor
      · intro h
        exact absurd (Prod.mk.inj h).1 hcheck
      · rintro ⟨-, hok, -⟩
        exact absurd hok hcheck
  · rw [if_neg hverify]
    constructor
    · intro h
      cases h
    · rintro ⟨h, -⟩
      exact absurd h hverify

theorem copyToUser_eq_ok_iff [Mapper] [Mapper.RefusesMapped]
    (hregion : InMmapRegion u.proc.vmas dst src.length) :
    copyToUser c u fuel dst src = (.ok, s') ↔ (src ≠ [] → dst + src.length ≤ userAddrMax) ∧
      checkPages u.memory.memory.tables u.cr3 (pagesOf dst src.length) = .ok ∧
      (src ≠ [] → fuel ≠ 0) ∧
      (∀ i < src.length, ∃ l, u.leafAt (dst + i) = some l ∧ l.writable = true) ∧
      s' = (u.stored dst src).memory := by
  obtain ⟨vma, hvma, -, -, hstart, hstop⟩ := hregion.exists_region
  have hlen : src.length ≠ 0 ↔ src ≠ [] := by simp
  rw [copyToUser_ok_iff, verifyUserRegion_of_mem hvma hstart hstop, hlen]

theorem storeBytes_ne_err [Mapper] (proc : ProcessMemory) (kernelRoot v : Nat) (s : PagedMemory) :
    (storeBytes c proc kernelRoot fuel v src s).1 ≠ .err := by
  have hbyte : ∀ fuel b v s, (storeByte c proc kernelRoot v b fuel s).1 ≠ .err := by
    intro fuel b v
    induction fuel with
    | zero => exact fun s h => nomatch h
    | succ fuel ih =>
      intro s
      rw [storeByte]
      split
      · exact fun h => nomatch h
      · split
        · exact ih _
        · exact fun h => nomatch h
  induction src generalizing v s with
  | nil => exact fun h => nomatch h
  | cons b rest ih =>
    rw [storeBytes]
    have hfirst := hbyte fuel b v s
    split
    · exact ih _ _
    · next hstore =>
      rw [hstore] at hfirst
      exact hfirst

theorem copyToUser_eq_err_iff [Mapper] : (copyToUser c u fuel dst src).1 = .err ↔
    (verifyUserRegion u.proc.vmas dst src.length = true →
      checkPages u.memory.memory.tables u.cr3 (pagesOf dst src.length) = .err) := by
  unfold copyToUser
  by_cases hverify : verifyUserRegion u.proc.vmas dst src.length = true
  · rw [if_pos hverify, forall_prop_of_true hverify]
    split
    · next hcheck =>
      rw [hcheck]
      exact iff_of_false (storeBytes_ne_err _ _ _ _) (fun h => nomatch h)
    · rfl
  · rw [if_neg hverify]
    exact iff_of_true rfl (fun h => absurd h hverify)

theorem userByte_stored (u : UserSpace) (dst : Nat) (src : List UInt8) (v : Nat) :
    userByte u.cr3 (u.stored dst src).memory v = (u.leafAt v).map fun l =>
      applyUpdates (u.writes dst src) u.memory.memory.byte l.phys := by
  rw [← UserSpace.byte_stored, ← UserSpace.leafAt_stored (v := dst) src v,
    ← UserSpace.cr3_stored (v := dst) src]
  rfl

theorem mem_writes {w : Nat × UInt8} : w ∈ u.writes dst src ↔
    ∃ i < src.length, src[i]? = some w.2 ∧ w.1 = u.physAt (dst + i) := by
  rw [UserSpace.writes, List.mem_mapIdx]
  constructor
  · rintro ⟨i, hi, rfl⟩
    exact ⟨i, hi, List.getElem?_eq_getElem hi, rfl⟩
  · rintro ⟨i, hi, hget, hphys⟩
    refine ⟨i, hi, ?_⟩
    rw [List.getElem?_eq_getElem hi, Option.some.injEq] at hget
    rw [hget, ← hphys]

theorem physAt_eq {l : Leaf} {v : Nat} (h : u.leafAt v = some l) : u.physAt v = l.phys := by
  rw [UserSpace.physAt, h]
  rfl

theorem userByte_stored_of_unaliased
    (hmapped : ∀ i < src.length, ∃ l, u.leafAt (dst + i) = some l ∧ l.writable = true)
    (hunaliased : ∀ i < src.length, ∀ j < src.length,
      u.physAt (dst + i) = u.physAt (dst + j) → src[i]? = src[j]?)
    {i : Nat} (hi : i < src.length) :
    userByte u.cr3 (u.stored dst src).memory (dst + i) = src[i]? := by
  obtain ⟨l, hl, -⟩ := hmapped i hi
  have hmem : (l.phys, src[i]) ∈ u.writes dst src :=
    mem_writes.mpr ⟨i, hi, List.getElem?_eq_getElem hi, (physAt_eq hl).symm⟩
  have hagree : ∀ x ∈ u.writes dst src, ∀ y ∈ u.writes dst src, x.1 = y.1 → x.2 = y.2 := by
    intro x hx y hy heq
    obtain ⟨j, hj, hxj, hxphys⟩ := mem_writes.mp hx
    obtain ⟨k, hk, hyk, hyphys⟩ := mem_writes.mp hy
    have hsame := hunaliased j hj k hk (by rw [← hxphys, ← hyphys, heq])
    rw [hxj, hyk] at hsame
    exact Option.some.inj hsame
  rw [userByte_stored, hl, Option.map_some, applyUpdates_of_mem hmem hagree,
    List.getElem?_eq_getElem hi]

/-- A copy into a writable region of `sys_mmap` succeeds and stores its bytes exactly
when its pages have been touched and can be written. -/
theorem copyToUser_stores_iff [Mapper] [Mapper.RefusesMapped] (c : CompressionEngine)
    (u : UserSpace) (dst : Nat) (src : List UInt8) (hregion : InMmapRegion u.proc.vmas dst src.length) :
    (∃ fuel s', copyToUser c u fuel dst src = (.ok, s') ∧
      ∀ i < src.length, userByte u.cr3 s' (dst + i) = src[i]?) ↔
    CopyReady u dst src := by
  constructor
  · rintro ⟨fuel, s', hcopy, hread⟩
    obtain ⟨huser, hcheck, -, hwritable, rfl⟩ := (copyToUser_eq_ok_iff hregion).mp hcopy
    refine ⟨huser, fun page hpage =>
      checkPage_eq_ok_iff.mp (checkPages_eq_ok_iff.mp hcheck page hpage), hwritable, ?_⟩
    intro i hi j hj hphys
    obtain ⟨l, hl, -⟩ := hwritable i hi
    obtain ⟨k, hk, -⟩ := hwritable j hj
    rw [← hread i hi, ← hread j hj, userByte_stored, userByte_stored, hl, hk,
      Option.map_some, Option.map_some, ← physAt_eq hl, ← physAt_eq hk, hphys]
  · intro hready
    have hcheck := checkPages_eq_ok_iff.mpr fun page hpage =>
      checkPage_eq_ok_iff.mpr (hready.touched page hpage)
    exact ⟨1, _, (copyToUser_eq_ok_iff hregion).mpr ⟨hready.user, hcheck,
      fun _ => one_ne_zero, hready.writable, rfl⟩, fun i hi =>
      userByte_stored_of_unaliased hready.writable hready.unaliased hi⟩

end

/-- The region of `mmap(0, 4096, PROT_READ | PROT_WRITE, ..)` in an empty process. -/
def freshRegion : Vma where
  start := 0x40000000
  stop := 0x40001000
  flags := protToRegionFlags 3
  fileOffset := 0
  fileSize := 0

theorem freshRegion_created : ∃ others args, mmapRegion others args = some freshRegion :=
  ⟨[], ⟨0, 4096, 3⟩, rfl⟩

def freshProcess : ProcessMemory where
  exited := false
  pageTableFrame := none
  vmas := [freshRegion]
  binaryData := []

theorem freshProcess_region : InMmapRegion freshProcess.vmas 0x40000ff0 2 :=
  ⟨freshRegion, List.mem_cons_self, rfl, freshRegion_created, by decide, by decide⟩

/-- Tables through which the page of the region is mapped to frame 4, or in which
nothing is mapped. -/
def exampleTables (touched : Bool) : Tables := fun f i =>
  if touched && ((f, i) = (0, 0) || (f, i) = (1, 1) || (f, i) = (2, 0) || (f, i) = (3, 0))
  then ⟨f + 1, true, true, true, false, false, false⟩
  else .unused

theorem exampleTables_frame {touched : Bool} {f i g : Nat}
    (h : (exampleTables touched f i).frame = some g) : g < 5 := by
  obtain ⟨hp, -, rfl⟩ := PageTableEntry.frame_eq_some h
  unfold exampleTables at hp ⊢
  split
  · next hcond =>
    simp at hcond
    dsimp only
    omega
  · exact Nat.zero_lt_succ 4

def exampleSpace (touched : Bool) : UserSpace where
  proc := freshProcess
  kernelRoot := 0
  memory := {
    memory := ⟨exampleTables touched, fun _ => Image.zero, [5]⟩
    store := .new }
  fresh v q hq := by
    have hlt := path_frames (P := (· < 5)) (by decide)
      (fun _ _ _ _ hframe => exampleTables_frame hframe) q hq
    simp only [List.mem_singleton]
    omega
  plain v q _ := by
    change (exampleTables touched q.1 q.2).flags.compressed = false
    unfold exampleTables
    split <;> rfl

theorem exampleSpace_leafAt {i : Nat} (hi : i < 2) :
    (exampleSpace true).leafAt (0x40000ff0 + i) = some ⟨0x4ff0 + i, true, true⟩ := by
  match i, hi with
  | 0, _ => rfl
  | 1, _ => rfl

theorem exampleSpace_copyReady {bytes : List UInt8} (hlen : bytes.length = 2) :
    CopyReady (exampleSpace true) 0x40000ff0 bytes where
  user _ := by
    rw [hlen]
    decide
  touched page hpage := by
    have hpages : pagesOf 0x40000ff0 2 = [0x40000000] := by decide
    rw [hlen, hpages] at hpage
    obtain rfl := List.mem_singleton.mp hpage
    exact ⟨0x40000000, (3, 0), rfl, rfl, rfl⟩
  writable i hi := ⟨_, exampleSpace_leafAt (hlen ▸ hi), rfl⟩
  unaliased i hi j hj hphys := by
    rw [physAt_eq (exampleSpace_leafAt (hlen ▸ hi)),
      physAt_eq (exampleSpace_leafAt (hlen ▸ hj))] at hphys
    rw [Nat.add_left_cancel hphys]

attribute [local instance] levelMapper

/-- On a page that has been touched a copy arrives. -/
theorem copyToUser_touched : InMmapRegion freshProcess.vmas 0x40000ff0 2 ∧
    ∀ c, ∃ fuel s', copyToUser c (exampleSpace true) fuel 0x40000ff0 [7, 8] = (.ok, s') ∧
      ∀ i < 2, userByte 0 s' (0x40000ff0 + i) = [7, 8][i]? :=
  ⟨freshProcess_region, fun c => (copyToUser_stores_iff c (exampleSpace true) 0x40000ff0
    [7, 8] freshProcess_region).mpr (exampleSpace_copyReady rfl)⟩

/-- On a page that has not been touched the copy is refused, though a frame is free. -/
theorem copyToUser_untouched : InMmapRegion freshProcess.vmas 0x40000ff0 2 ∧
    ∀ c fuel, (copyToUser c (exampleSpace false) fuel 0x40000ff0 [7, 8]).1 = .err :=
  ⟨freshProcess_region, fun _ _ => rfl⟩

end ZiqaKernel
