/-
The page-fault handler (`arch/x86_64/interrupts.rs`) with demand paging
(`memory/paging.rs`), and what it does about a page that a fork has
write-protected.
-/
import ZiqaKernel.CowFork
import ZiqaKernel.LevelMapper
import ZiqaKernel.PageCompression

namespace ZiqaKernel

open Tables

section

variable [Mapper]

/-! Demand paging -/

/-- `demand_page_for_root`, with `fill_frame`. -/
def demandPageForRoot (root v : Nat) (flags : PageTableFlags)
    (initData : Option (List UInt8)) (m : PhysMemory) : Bool × PhysMemory :=
  match m.allocateFrame with
  | none => (false, m)
  | some (frame, m') =>
    let m' := { m' with
      pages := Function.update m'.pages frame (.ofFn ((initData.getD []).getD · 0)) }
    match Mapper.mapTo root v frame flags m' with
    | (.ok (), m'') => (true, m'')
    | (.error _, m'') => (false, m'')

/-! The handler -/

/-- `region_flags_to_page_flags`. -/
def regionFlagsToPageFlags (rf : MemoryRegionFlags) : PageTableFlags where
  present := true
  writable := rf.writable
  userAccessible := rf.userAccessible
  hugePage := false
  compressed := false
  noExecute := !rf.executable

/-- The bytes of the binary that belong into the page at `pageAddr`. -/
def binaryPage (proc : ProcessMemory) (vma : Vma) (pageAddr : Nat) :
    Option (List UInt8) :=
  let offset := (pageAddr + 2 ^ 64 - vma.start) % 2 ^ 64
  let binaryOffset := vma.fileOffset + offset
  if !proc.binaryData.isEmpty && offset < vma.fileSize &&
      binaryOffset < proc.binaryData.length then
    some ((proc.binaryData.drop binaryOffset).take (min (vma.fileSize - offset) 4096))
  else none

structure PageFaultErrorCode where
  write : Bool
  instructionFetch : Bool

/-- `handle_fault_for` in `page_fault_handler`.  A process without tables of its own
is mapped in those of the kernel. -/
def handleFaultFor (proc : ProcessMemory) (kernelRoot addr : Nat)
    (code : PageFaultErrorCode) (m : PhysMemory) : Bool × PhysMemory :=
  match proc.vmas.find? (·.contains addr) with
  | none => (false, m)
  | some vma =>
    if code.write && !vma.flags.writable then (false, m)
    else if code.instructionFetch && !vma.flags.executable then (false, m)
    else demandPageForRoot (proc.pageTableFrame.getD kernelRoot) addr
      (regionFlagsToPageFlags vma.flags) (binaryPage proc vma (pageStart addr)) m

/-- How a fault ends: the code that faulted goes on, the process is terminated with
an exit code, or the machine halts. -/
inductive FaultOutcome where
  | resumed
  | killed (code : Int)
  | halted

/-- `page_fault_handler` for the running process, with the root table that `Cr3`
holds.  Code of the process itself runs in a user frame. -/
def pageFaultHandler (c : CompressionEngine) (cr3 kernelRoot : Nat)
    (proc : ProcessMemory) (addr : Nat) (code : PageFaultErrorCode) (userFrame : Bool)
    (s : PagedMemory) : FaultOutcome × PagedMemory :=
  match handleCompressedFault c cr3 addr s with
  | (true, s') => (.resumed, s')
  | (false, s') =>
    match handleFaultFor proc kernelRoot addr code s'.memory with
    | (true, m) => (.resumed, { s' with memory := m })
    | (false, m) =>
      (if userFrame then .killed (-11) else .halted, { s' with memory := m })

end

/-! Pages that are mapped already -/

section

variable {t t' : Tables} {v n f : Nat}

/-- When the entry of a page is moved to a frame that is no table of the walk, user
code can write there at most what it could write before. -/
theorem userWritable_of_remap {q : Nat × Nat} {g : Nat} (hq : leafEntry t v n f = some q)
    (hg : ∀ p ∈ path t v n f, p.1 ≠ g) (hzero : ∀ i, t' g i = .unused)
    (hmoved : t' q.1 q.2 = (t q.1 q.2).markRestored g)
    (hother : ∀ p ∈ path t v n f, p ≠ q → t' p.1 p.2 = t p.1 p.2)
    (h : UserWritable (walk t' v n f)) : UserWritable (walk t v n f) := by
  induction n generalizing f with
  | zero => cases hq
  | succ n ih =>
    by_cases hhead : (f, pageIndex (n + 1) v) = q
    · subst hhead
      cases n with
      | zero =>
        -- The entry ends the walk, and its rights are as before.
        have hp := leafEntry_present hq
        obtain ⟨l, hl, huser, hwritable⟩ := h
        rw [walk, hmoved, walkEntry_of_isLeaf rfl rfl] at hl
        obtain rfl := Option.some.inj hl
        exact ⟨_, walkEntry_of_isLeaf hp rfl, huser, hwritable⟩
      | succ n =>
        -- The entry also is one of a table above, which now leads nowhere.
        rw [leafEntry, Option.bind_eq_some_iff] at hq
        obtain ⟨k, hframe, -⟩ := hq
        have hhuge := (PageTableEntry.frame_eq_some hframe).2.1
        have hleaf : ((t f (pageIndex (n + 2) v)).markRestored g).isLeaf (n + 1) =
            false := by
          simp [PageTableEntry.isLeaf, PageTableEntry.markRestored, hhuge]
        obtain ⟨l, hl, -⟩ := h
        rw [walk, hmoved, walkEntry_of_table rfl hleaf, PageTableEntry.markRestored,
          walk, hzero, walkEntry_of_not_present rfl] at hl
        cases hl
    · have hentry := hother _ List.mem_cons_self hhead
      cases n with
      | zero =>
        rw [leafEntry] at hq
        split at hq
        · exact absurd (Option.some.inj hq) hhead
        · cases hq
      | succ n =>
        rw [leafEntry, Option.bind_eq_some_iff] at hq
        obtain ⟨k, hframe, hq⟩ := hq
        obtain ⟨hp, -, haddr⟩ := PageTableEntry.frame_eq_some hframe
        have hleaf := PageTableEntry.isLeaf_of_frame (n := n) hframe
        have hpath : ∀ p ∈ path t v (n + 1) k, p ∈ path t v (n + 2) f := by
          intro p hp'
          rw [path, pathEntry_of_table hp hleaf, haddr]
          exact List.mem_cons_of_mem _ hp'
        dsimp only at hentry
        obtain ⟨l, hl, huser, hwritable⟩ := h
        rw [walk, hentry, walkEntry_of_table hp hleaf, haddr,
          Option.map_eq_some_iff] at hl
        obtain ⟨l', hl', rfl⟩ := hl
        rw [Leaf.under, Bool.and_eq_true] at huser hwritable
        obtain ⟨l'', hl'', huser', hwritable'⟩ := ih hq
          (fun p hp' => hg p (hpath p hp')) (fun p hp' => hother p (hpath p hp'))
          ⟨l', hl', huser.2, hwritable.2⟩
        refine ⟨Leaf.under (t f (pageIndex (n + 2) v)) l'', ?_, ?_, ?_⟩
        · rw [walk, walkEntry_of_table hp hleaf, haddr, hl'']
          rfl
        · rw [Leaf.under, huser', huser.1]
          rfl
        · rw [Leaf.under, hwritable', hwritable.1]
          rfl

end

/-! Pages that a fork has write-protected -/

section

variable {c : CompressionEngine} {s s' : PagedMemory} {cr3 addr : Nat}

theorem handleCompressedFault_cases (c : CompressionEngine) (cr3 addr : Nat)
    (s : PagedMemory) :
    handleCompressedFault c cr3 addr s = (false, s) ∨
      ∃ s' f i frame m, handleCompressedFault c cr3 addr s = (true, s') ∧
        leafEntry s.memory.tables addr 4 cr3 = some (f, i) ∧
        s.memory.allocateFrame = some (frame, m) ∧
        s'.memory.tables =
          m.tables.set f i ((s.memory.tables f i).markRestored frame) := by
  unfold handleCompressedFault
  split
  · exact Or.inl rfl
  · next f i hleaf =>
    dsimp only
    split
    · exact Or.inl rfl
    · split
      · split
        · exact Or.inl rfl
        · split
          · exact Or.inl rfl
          · next frame m halloc =>
            refine Or.inr ⟨_, f, i, frame, m, rfl, hleaf, halloc, ?_⟩
            rw [PagedMemory.release_memory]
            rfl
      · exact Or.inl rfl

theorem handleCompressedFault_not_writable
    (hfresh : ∀ q ∈ path s.memory.tables addr 4 cr3, q.1 ∉ s.memory.free)
    (hro : ¬ UserWritable (walk s.memory.tables addr 4 cr3))
    (h : handleCompressedFault c cr3 addr s = (true, s')) :
    ¬ UserWritable (walk s'.memory.tables addr 4 cr3) := by
  rcases handleCompressedFault_cases c cr3 addr s with hfalse | hcases
  · rw [h] at hfalse
    cases hfalse
  · obtain ⟨s₁, f, i, frame, m, h₁, hleaf, halloc, htables⟩ := hcases
    rw [h, Prod.mk.injEq] at h₁
    rw [h₁.2, htables]
    obtain ⟨hfree, hzero, hother⟩ := PhysMemory.allocateFrame_spec halloc
    have hne : ∀ q ∈ path s.memory.tables addr 4 cr3, q.1 ≠ frame := by
      intro q hq heq
      exact hfresh q hq (by simp [hfree, heq])
    have hf := hne _ (leafEntry_spec hleaf).1
    refine fun hw => hro (userWritable_of_remap hleaf hne (fun j => ?_) ?_ ?_ hw)
    · rw [set_ne_frame _ (Ne.symm hf), hzero]
    · exact set_self _ _ _ _
    · intro p hp hpq
      rw [set_ne _ hpq, hother p.1 (hne p hp)]

variable {kernelRoot : Nat} [Mapper] [Mapper.RefusesMapped]

theorem demandPageForRoot_of_mapped {m : PhysMemory} {v f : Nat} {flags : PageTableFlags}
    {initData : Option (List UInt8)} (h : (walk m.tables v 4 f).isSome = true)
    (hfresh : ∀ q ∈ path m.tables v 4 f, q.1 ∉ m.free) :
    (demandPageForRoot f v flags initData m).1 = false := by
  unfold demandPageForRoot
  split
  · rfl
  · next frame m' halloc =>
    obtain ⟨hfree, -, hother⟩ := PhysMemory.allocateFrame_spec halloc
    have hwalk : walk m'.tables v 4 f = walk m.tables v 4 f :=
      (walk_congr fun q hq => by
        rw [hother q.1 fun heq => hfresh q hq (by simp [hfree, heq])]).1
    rw [← hwalk] at h
    obtain ⟨e, m'', hmap⟩ := Mapper.mapTo_of_mapped (m := { m' with
      pages := Function.update m'.pages frame (.ofFn ((initData.getD []).getD · 0)) })
        frame flags h
    simp only [hmap]

theorem handleFaultFor_of_mapped {proc : ProcessMemory}
    {m : PhysMemory} (hroot : proc.pageTableFrame.getD kernelRoot = cr3)
    (hfresh : ∀ q ∈ path m.tables addr 4 cr3, q.1 ∉ m.free)
    (hmapped : (walk m.tables addr 4 cr3).isSome = true) (code : PageFaultErrorCode) :
    (handleFaultFor proc kernelRoot addr code m).1 = false := by
  unfold handleFaultFor
  split
  · rfl
  · split
    · rfl
    · split
      · rfl
      · rw [hroot]
        exact demandPageForRoot_of_mapped hmapped hfresh

/-- A fault on a page that is mapped and that user code cannot write leaves the page
so, when the code that faulted goes on at all. -/
theorem pageFaultHandler_not_writable {proc : ProcessMemory}
    {code : PageFaultErrorCode} {userFrame : Bool}
    (hroot : proc.pageTableFrame.getD kernelRoot = cr3)
    (hfresh : ∀ q ∈ path s.memory.tables addr 4 cr3, q.1 ∉ s.memory.free)
    (hmapped : (walk s.memory.tables addr 4 cr3).isSome = true)
    (hro : ¬ UserWritable (walk s.memory.tables addr 4 cr3))
    (h : pageFaultHandler c cr3 kernelRoot proc addr code userFrame s = (.resumed, s')) :
    ¬ UserWritable (walk s'.memory.tables addr 4 cr3) := by
  unfold pageFaultHandler at h
  rcases handleCompressedFault_cases c cr3 addr s with hfalse | ⟨s₁, _, _, _, _, htrue, -⟩
  · have hfault := handleFaultFor_of_mapped hroot hfresh hmapped code
    rw [hfalse] at h
    dsimp only at h
    split at h
    · next hhandled =>
      rw [hhandled] at hfault
      cases hfault
    · cases userFrame <;> cases h
  · rw [htrue] at h
    obtain rfl := (Prod.mk.inj h).2
    exact handleCompressedFault_not_writable hfresh hro htrue

/-- A fault of user code on a page that is mapped, when the store for compressed
pages knows nothing about it. -/
theorem pageFaultHandler_killed {proc : ProcessMemory}
    (hroot : proc.pageTableFrame.getD kernelRoot = cr3)
    (hfresh : ∀ q ∈ path s.memory.tables addr 4 cr3, q.1 ∉ s.memory.free)
    (hmapped : (walk s.memory.tables addr 4 cr3).isSome = true)
    (code : PageFaultErrorCode) (hstore : s.getLocation addr = none) :
    (pageFaultHandler c cr3 kernelRoot proc addr code true s).1 = .killed (-11) := by
  have hcompressed : handleCompressedFault c cr3 addr s = (false, s) := by
    unfold handleCompressedFault
    split
    · rfl
    · simp only [hstore, ite_self]
  have hfault := handleFaultFor_of_mapped hroot hfresh hmapped code
  unfold pageFaultHandler
  rw [hcompressed]
  dsimp only
  split
  · next hhandled =>
    rw [hhandled] at hfault
    cases hfault
  · rfl

end

/-! Copy on write -/

section

/-- The memory side of `Scheduler::fork`: parent and child, when the child's tables
are at `child`. -/
def forkMemory (parent : ProcessMemory) (child : Nat) : ProcessMemory × ProcessMemory :=
  let vmas := parent.vmas.map fun vma =>
    if vma.flags.writable then { vma with flags := { vma.flags with copyOnWrite := true } }
    else vma
  ({ parent with vmas := vmas },
    { exited := false, pageTableFrame := some child, vmas := vmas,
      binaryData := parent.binaryData })

/-- A 4 KiB page in a writable region that user code reaches through the tables at
`root`. -/
structure WritablePage (m : PhysMemory) (proc : ProcessMemory) (root addr : Nat) : Prop where
  region : ∃ vma ∈ proc.vmas, vma.contains addr = true ∧ vma.flags.writable = true
  lower : addr < 2 ^ 47
  small : ∃ q, leafEntry m.tables addr 4 root = some q
  user : ∃ l, walk m.tables addr 4 root = some l ∧ l.user = true

/-- After a write fault at `addr` the process with tables at `own` has a private
writable page with the bytes of before, and the process with tables at `other` has
the page that it had. -/
structure CopiedOnWrite (before after : PhysMemory) (own other addr : Nat) : Prop where
  writable : UserWritable (walk after.tables addr 4 own)
  bytes : ∀ p p', userView (walk before.tables addr 4 own) = some p →
    userView (walk after.tables addr 4 own) = some p' →
    after.pages (p' / 4096) = before.pages (p / 4096)
  separate : userView (walk after.tables addr 4 own) ≠
    userView (walk after.tables addr 4 other)
  otherView : userView (walk after.tables addr 4 other) =
    userView (walk before.tables addr 4 other)
  otherBytes : ∀ p, userView (walk before.tables addr 4 other) = some p →
    after.pages (p / 4096) = before.pages (p / 4096)

/-- A write of the process with tables at `own` faults, and the fault is handled as
copy on write. -/
def WriteHonoured [Mapper] (c : CompressionEngine) (kernelRoot own other : Nat)
    (proc : ProcessMemory) (addr : Nat) (userFrame : Bool) (s : PagedMemory) : Prop :=
  ∃ s', pageFaultHandler c own kernelRoot proc addr ⟨true, false⟩ userFrame s =
      (.resumed, s') ∧ CopiedOnWrite s.memory s'.memory own other addr

variable {m m' : PhysMemory} {root child addr : Nat} {parent : ProcessMemory}

theorem pageIndex_lower (h : addr < 2 ^ 47) : pageIndex 4 addr < 256 := by
  simp only [pageIndex]
  omega

theorem WritablePage.forked (hpage : WritablePage m parent root addr)
    (hfresh : FreshFrames m root) (hfork : cowForkParent root m = (some child, m')) :
    ((walk m'.tables addr 4 root).isSome = true ∧
        ¬ UserWritable (walk m'.tables addr 4 root)) ∧
      (walk m'.tables addr 4 child).isSome = true ∧
        ¬ UserWritable (walk m'.tables addr 4 child) := by
  obtain ⟨q, hq⟩ := hpage.small
  obtain ⟨l, hwalk, huser⟩ := hpage.user
  have hentry : UserPageEntry m.tables root q :=
    userPageEntry_of_leafEntry hq hwalk huser (pageIndex_lower hpage.lower)
  have hro : ¬ UserWritable (walk m'.tables addr 4 root) := by
    intro hw
    exact ((cowForkParent_userWritable_iff hfresh hfork addr).mp hw).2 q
      (leafEntry_spec hq).1 hentry
  obtain ⟨hparent, hchild, -⟩ := cowForkParent_spec hfresh hfork
  have hshape := (makeUserLeafReadonly_clears m.tables root).sameShape
  have hview : userView (walk m'.tables addr 4 root) = some l.phys := by
    rw [hparent addr, hshape.userView_eq, hwalk]
    simp [userView, huser]
  have hsome : ∀ w, userView w = some l.phys → w.isSome = true := by
    intro w hw
    cases w with
    | none => cases hw
    | some _ => rfl
  refine ⟨⟨hsome _ hview, hro⟩, hsome _ ?_, fun hw => hro ?_⟩
  · rw [(hchild addr).view, ← hparent addr, hview]
  · rw [hparent addr]
    exact (hchild addr).writable hw

/-- Copy on write is honoured for no page: a write of the parent or of the child
faults, and the page does not become writable. -/
theorem forkedWrite_never_honoured [Mapper] [Mapper.RefusesMapped] (c : CompressionEngine)
    (kernelRoot : Nat)
    (s : PagedMemory) (m' : PhysMemory) (parent : ProcessMemory) (root child addr : Nat)
    (userFrame : Bool) (hroot : parent.pageTableFrame.getD kernelRoot = root)
    (hfresh : FreshFrames s.memory root)
    (hfork : cowForkParent root s.memory = (some child, m'))
    (hpage : WritablePage s.memory parent root addr) :
    (¬ UserWritable (walk m'.tables addr 4 root) ∧
      ¬ WriteHonoured c kernelRoot root child (forkMemory parent child).1 addr userFrame
        { s with memory := m' }) ∧
    ¬ UserWritable (walk m'.tables addr 4 child) ∧
      ¬ WriteHonoured c kernelRoot child root (forkMemory parent child).2 addr userFrame
        { s with memory := m' } := by
  obtain ⟨⟨hmapped, hro⟩, hmapped', hro'⟩ := hpage.forked hfresh hfork
  obtain ⟨hfreshParent, hfreshChild⟩ := cowForkParent_fresh hfresh hfork
  refine ⟨⟨hro, ?_⟩, hro', ?_⟩
  · rintro ⟨s', hrun, hcopied⟩
    have hown : (forkMemory parent child).1.pageTableFrame.getD kernelRoot = root := hroot
    exact pageFaultHandler_not_writable hown (hfreshParent.unused addr) hmapped hro hrun
      hcopied.writable
  · rintro ⟨s', hrun, hcopied⟩
    have hown : (forkMemory parent child).2.pageTableFrame.getD kernelRoot = child := rfl
    exact pageFaultHandler_not_writable hown (hfreshChild.unused addr) hmapped' hro' hrun
      hcopied.writable

theorem onePageTables_writablePage :
    WritablePage (memoryOf onePageTables) (onePageProcess 0) 0 0 where
  region := ⟨_, List.mem_cons_self, by decide, rfl⟩
  lower := by decide
  small := ⟨(3, 0), by decide⟩
  user := ⟨⟨16384, true, true⟩, by decide, rfl⟩

attribute [local instance] levelMapper

/-- A fork of a process with one page. -/
theorem onePage_write_not_honoured : ∃ m',
    cowForkParent 0 (memoryOf onePageTables) = (some 5, m') ∧
      ¬ WriteHonoured zeroPageEngine 0 5 0 (forkMemory (onePageProcess 0) 5).2 0 true
        ⟨m', .new⟩ := by
  have hchild : (cowForkParent 0 (memoryOf onePageTables)).1 = some 5 := rfl
  have hrun := eq_mk_snd hchild
  exact ⟨_, hrun, (forkedWrite_never_honoured zeroPageEngine 0
    ⟨memoryOf onePageTables, .new⟩ _ (onePageProcess 0) 0 5 0 true rfl freshFrames_onePage
    hrun onePageTables_writablePage).2.2⟩

/-- Parent and child are killed when they write to their page after a fork. -/
theorem onePage_write_killed : ∃ m',
    cowForkParent 0 (memoryOf onePageTables) = (some 5, m') ∧
      (pageFaultHandler zeroPageEngine 0 0 (forkMemory (onePageProcess 0) 5).1 0
        ⟨true, false⟩ true ⟨m', .new⟩).1 = .killed (-11) ∧
      (pageFaultHandler zeroPageEngine 5 0 (forkMemory (onePageProcess 0) 5).2 0
        ⟨true, false⟩ true ⟨m', .new⟩).1 = .killed (-11) := by
  have hchild : (cowForkParent 0 (memoryOf onePageTables)).1 = some 5 := rfl
  have hrun := eq_mk_snd hchild
  obtain ⟨⟨hmapped, -⟩, hmapped', -⟩ :=
    onePageTables_writablePage.forked freshFrames_onePage hrun
  obtain ⟨hfresh, hfresh'⟩ := cowForkParent_fresh freshFrames_onePage hrun
  generalize (cowForkParent 0 (memoryOf onePageTables)).2 = m' at *
  have hown : (forkMemory (onePageProcess 0) 5).1.pageTableFrame.getD 0 = 0 := rfl
  have hown' : (forkMemory (onePageProcess 0) 5).2.pageTableFrame.getD 0 = 5 := rfl
  exact ⟨m', hrun,
    pageFaultHandler_killed hown (hfresh.unused 0) hmapped ⟨true, false⟩ rfl,
    pageFaultHandler_killed hown' (hfresh'.unused 0) hmapped' ⟨true, false⟩ rfl⟩

end

end ZiqaKernel
