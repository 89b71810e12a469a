/-
Compression of pages (`memory/compression/`): the store for compressed pages,
the daemon that fills it, and the handler of faults on compressed pages.  LZ4
and the choice of pages are parameters.
-/
import ZiqaKernel.PageTable
import ZiqaKernel.StepRuns

namespace ZiqaKernel

open Function PageTableEntry Image PhysMemory

/-- A `Vec<u8>`. -/
abbrev ByteVec : Type := (n : Nat) × Image n

/-- Which pages the classifier lets through, with `compress_prepend_size` and
`decompress_size_prepended`. -/
structure CompressionEngine where
  chosen : Image 4096 → Bool
  compress : Image 4096 → ByteVec
  decompressSizePrepended : ByteVec → Option ByteVec

/-- `AdaptiveCompressor::decompress`. -/
def CompressionEngine.decompress (c : CompressionEngine) (data : ByteVec)
    (originalSize : Nat) : Option ByteVec :=
  if data.1 < 4 then none
  else if 0 < originalSize ∧ (u32At data.2.get 0).toNat ≠ originalSize then none
  else c.decompressSizePrepended data

namespace PageTableEntry

def toWord (e : PageTableEntry) : Nat :=
  e.flags.present.toNat + 2 * e.flags.writable.toNat +
    4 * e.flags.userAccessible.toNat + 128 * e.flags.hugePage.toNat +
    512 * e.flags.compressed.toNat + 4096 * e.addr + 2 ^ 63 * e.flags.noExecute.toNat

def ofWord (w : Nat) : PageTableEntry where
  addr := w / 4096 % 2 ^ 40
  flags := ⟨w.testBit 0, w.testBit 1, w.testBit 2, w.testBit 7, w.testBit 9, w.testBit 63⟩

def markCompressed (e : PageTableEntry) : PageTableEntry :=
  { e with flags := { e.flags with present := false, compressed := true } }

/-- The entry as the fault handler leaves it, with the page at `frame`. -/
def markRestored (e : PageTableEntry) (frame : Nat) : PageTableEntry :=
  ⟨frame, { e.flags with compressed := false, present := true }⟩

end PageTableEntry

/-- The word that starts at byte `pos` of `data`; bytes past its end are those of
the entry `e` that it overwrites. -/
def overwrittenWord (data : ByteVec) (pos : Nat) (e : PageTableEntry) : Nat :=
  packBytes (fun k =>
    if pos + k < data.1 then data.2.get (pos + k)
    else UInt8.ofNat (e.toWord / 256 ^ k)) 8

/-- `copy_nonoverlapping` of `data` to the start of frame `f`, which is in use
neither as a table nor as a page.  What does not fit goes to the frames that
follow, whatever they are used for. -/
def PhysMemory.copyBytes (m : PhysMemory) (f : Nat) (data : ByteVec) : PhysMemory where
  tables := fun g i =>
    if f < g ∧ i < 512 ∧ 4096 * (g - f) + 8 * i < data.1 then
      .ofWord (overwrittenWord data (4096 * (g - f) + 8 * i) (m.tables g i))
    else m.tables g i
  pages := fun g =>
    if f ≤ g ∧ 4096 * (g - f) < data.1 then
      (m.pages g).splice 0 (min 4096 (data.1 - 4096 * (g - f)))
        fun k => data.2.get (4096 * (g - f) + k)
    else m.pages g
  free := m.free

theorem PhysMemory.copyBytes_tables (m : PhysMemory) (f : Nat) {data : ByteVec}
    (h : data.1 ≤ 4096) : (m.copyBytes f data).tables = m.tables := by
  funext g i
  exact if_neg (by omega)

/-- `CompressedPageLocation`, without the tier. -/
structure CompressedPageLocation where
  physFrame : Nat
  originalSize : Nat
  compressedLen : Nat

/-- `CompressedPageStore`. -/
structure CompressedPageStore where
  pageMap : Nat → Option CompressedPageLocation
  allocatedFrames : List Nat

def CompressedPageStore.new : CompressedPageStore := ⟨fun _ => none, []⟩

structure PagedMemory where
  memory : PhysMemory
  store : CompressedPageStore

def pageStart (v : Nat) : Nat := v / 4096 * 4096

namespace PagedMemory

/-- `CompressedPageStore::store`. -/
def storePage (s : PagedMemory) (vaddr : Nat) (data : ByteVec) : Option PagedMemory :=
  match s.memory.allocateFrame with
  | none => none
  | some (f, m) => some {
      memory := m.copyBytes f data
      store := {
        pageMap := update s.store.pageMap (pageStart vaddr) (some ⟨f, 4096, data.1⟩)
        allocatedFrames := s.store.allocatedFrames ++ [f] } }

/-- `CompressedPageStore::get_location`. -/
def getLocation (s : PagedMemory) (vaddr : Nat) : Option CompressedPageLocation :=
  s.store.pageMap (pageStart vaddr)

/-- `CompressedPageStore::retrieve`. -/
def retrieve (s : PagedMemory) (vaddr : Nat) : Option ByteVec :=
  (s.getLocation vaddr).map fun loc =>
    ⟨loc.compressedLen, .ofFn fun k =>
      (s.memory.pages (loc.physFrame + k / 4096)).get (k % 4096)⟩

/-- `CompressedPageStore::release`. -/
def release (s : PagedMemory) (vaddr : Nat) : PagedMemory :=
  match s.getLocation vaddr with
  | none => s
  | some loc => { s with store := {
      pageMap := update s.store.pageMap (pageStart vaddr) none
      allocatedFrames := s.store.allocatedFrames.erase loc.physFrame } }

theorem getLocation_storePage {s s' : PagedMemory} {vaddr : Nat} {data : ByteVec}
    (h : s.storePage vaddr data = some s') :
    ∃ f, s'.getLocation vaddr = some ⟨f, 4096, data.1⟩ ∧
      ∃ m, s.memory.allocateFrame = some (f, m) ∧ s'.memory = m.copyBytes f data := by
  unfold storePage at h
  split at h
  · cases h
  · next f m halloc =>
    obtain rfl := Option.some.inj h
    exact ⟨f, update_self .., m, halloc, rfl⟩

theorem retrieve_storePage {s s' : PagedMemory} {vaddr : Nat} {data : ByteVec}
    (h : s.storePage vaddr data = some s') : s'.retrieve vaddr = some data := by
  obtain ⟨f, hloc, m, -, hmemory⟩ := getLocation_storePage h
  obtain ⟨n, image⟩ := data
  rw [retrieve, hloc, Option.map_some, hmemory]
  refine congrArg (fun b : Image n => some (⟨n, b⟩ : ByteVec)) (Image.ext fun k hk => ?_)
  replace hk : k < n := hk
  have hpos : 4096 * (k / 4096) + k % 4096 = k := Nat.div_add_mod k 4096
  have hcond : f ≤ f + k / 4096 ∧ 4096 * (f + k / 4096 - f) < n := by omega
  rw [get_ofFn, if_pos hk, copyBytes]
  dsimp only
  rw [if_pos hcond, get_splice, if_pos (by omega), Nat.add_sub_cancel_left,
    Nat.sub_zero, hpos]

end PagedMemory

/-- `MemoryRegionFlags`. -/
structure MemoryRegionFlags where
  writable : Bool
  executable : Bool
  userAccessible : Bool
  copyOnWrite : Bool

/-- `Vma`; the address after the last one is `stop`. -/
structure Vma where
  start : Nat
  stop : Nat
  flags : MemoryRegionFlags
  fileOffset : Nat
  fileSize : Nat

def Vma.contains (vma : Vma) (addr : Nat) : Bool := vma.start ≤ addr && addr < vma.stop

def Vma.pages (vma : Vma) : List Nat :=
  (List.range ((vma.stop - vma.start + 4095) / 4096)).map (vma.start + 4096 * ·)

/-- What a `Process` has to do with memory. -/
structure ProcessMemory where
  exited : Bool
  pageTableFrame : Option Nat
  vmas : List Vma
  binaryData : List UInt8

/-- A page that the daemon has compressed: the tables and the address, with the
entry and the bytes that it found there. -/
structure CompressedPage where
  root : Nat
  addr : Nat
  entry : PageTableEntry
  bytes : Image 4096

section

variable (c : CompressionEngine)

/-- One round of the loop of `run_daemon_cycle`, for the page at `addr` in the
tables at `root`.  Without a page to compress nothing happens. -/
def compressPage (root addr : Nat) (s : PagedMemory) : Option (CompressedPage × PagedMemory) :=
  match leafEntry s.memory.tables addr 4 root with
  | none => none
  | some (f, i) =>
    let entry := s.memory.tables f i
    let page := s.memory.pages entry.addr
    if entry.flags.present && !entry.flags.compressed && c.chosen page then
      (s.storePage addr (c.compress page)).map fun s' =>
        (⟨root, addr, entry, page⟩,
          { s' with memory := s'.memory.setEntry f i entry.markCompressed })
    else none

/-- A round of the daemon, which stops after `maxPages` pages. -/
def daemonRound (maxPages : Nat) (acc : List CompressedPage × PagedMemory)
    (item : Nat × Nat) : List CompressedPage × PagedMemory :=
  if acc.1.length < maxPages then
    match compressPage c item.1 item.2 acc.2 with
    | some (page, s) => (acc.1 ++ [page], s)
    | none => acc
  else acc

/-- The pages that the daemon visits, in order.  A process without tables of its
own is looked up in the active ones. -/
def daemonItems (cr3 : Nat) (processes : List ProcessMemory) : List (Nat × Nat) :=
  processes.flatMap fun p =>
    if p.exited then []
    else p.vmas.flatMap fun vma => vma.pages.map (p.pageTableFrame.getD cr3, ·)

/-- `run_daemon_cycle`.  The source returns the number of the pages that have been
compressed. -/
def runDaemonCycle (cr3 : Nat) (processes : List ProcessMemory) (maxPages : Nat)
    (s : PagedMemory) : List CompressedPage × PagedMemory :=
  (daemonItems cr3 processes).foldl (daemonRound c maxPages) ([], s)

/-- `handle_compressed_fault`, with the root table that `Cr3` holds.  It copies
4096 bytes; those past the end of the decompressed ones read as zero here. -/
def handleCompressedFault (cr3 addr : Nat) (s : PagedMemory) : Bool × PagedMemory :=
  match leafEntry s.memory.tables addr 4 cr3 with
  | none => (false, s)
  | some (f, i) =>
    let entry := s.memory.tables f i
    if !entry.flags.compressed then (false, s)
    else
      match s.getLocation addr, s.retrieve addr with
      | some location, some data =>
        match c.decompress data location.originalSize with
        | none => (false, s)
        | some bytes =>
          match s.memory.allocateFrame with
          | none => (false, s)
          | some (frame, m) =>
            let m := { m with
              pages := update m.pages frame (.ofFn bytes.2.get) }
            (true, { s with
              memory := m.setEntry f i (entry.markRestored frame) }.release addr)
      | _, _ => (false, s)

/-- The compressed form of the page that a round would compress fits into the frame
that it is copied to. -/
def RoundFits (s : PagedMemory) (item : Nat × Nat) : Prop :=
  ∀ f i, leafEntry s.memory.tables item.2 4 item.1 = some (f, i) →
    c.chosen (s.memory.pages (s.memory.tables f i).addr) = true →
    (c.compress (s.memory.pages (s.memory.tables f i).addr)).1 ≤ 4096

/-- Every round of a run of the daemon fits, in the state that it starts from. -/
def RoundsFit (maxPages : Nat) : List (Nat × Nat) → List CompressedPage × PagedMemory → Prop
  | [], _ => True
  | item :: items, acc =>
    RoundFits c acc.2 item ∧ RoundsFit maxPages items (daemonRound c maxPages acc item)

/-- The copy that a round makes leads none of the walks to an entry that it did not lead
to before.  A compressed form that is too long for its frame may run over into the frames
that follow, as long as no table on one of the walks is rewritten so. -/
def RoundSpares (walks : List (Nat × Nat)) (s : PagedMemory) (item : Nat × Nat) : Prop :=
  ∀ f i frame m, leafEntry s.memory.tables item.2 4 item.1 = some (f, i) →
    c.chosen (s.memory.pages (s.memory.tables f i).addr) = true →
    s.memory.allocateFrame = some (frame, m) → ∀ w ∈ walks, ∀ q,
      leafEntry (m.copyBytes frame (c.compress (s.memory.pages (s.memory.tables f i).addr))).tables
        w.2 4 w.1 = some q →
      leafEntry m.tables w.2 4 w.1 = some q

/-- Every round of a run of the daemon spares the walks of all of its rounds. -/
def RoundsSpare (maxPages : Nat) (items : List (Nat × Nat)) (s : PagedMemory) : Prop :=
  EachStep (fun item acc => daemonRound c maxPages acc item)
    (fun item acc => RoundSpares c items acc.2 item) items ([], s)

/-- The owner of a compressed page touches it and finds it as it was. -/
def Transparent (page : CompressedPage) (s : PagedMemory) : Prop :=
  ∃ s', handleCompressedFault c page.root page.addr s = (true, s') ∧
    ∃ f i, leafEntry s'.memory.tables page.addr 4 page.root = some (f, i) ∧
      (s'.memory.tables f i).flags = page.entry.flags ∧
      s'.memory.pages (s'.memory.tables f i).addr = page.bytes

end

/-! What the daemon does to tables -/

section

variable {t t' t'' : Tables} {v n f : Nat}

/-- From `t` to `t'` entries have at most ceased to be present. -/
def Loses (t t' : Tables) : Prop :=
  ∀ f i, t' f i = t f i ∨ (t' f i).flags.present = false

theorem Loses.refl (t : Tables) : Loses t t := fun _ _ => Or.inl rfl

theorem Loses.trans (h : Loses t t') (h' : Loses t' t'') : Loses t t'' := by
  intro f i
  rcases h' f i with heq | hp
  · rw [heq]
    exact h f i
  · exact Or.inr hp

theorem Loses.leafEntry_eq (h : Loses t t') {q : Nat × Nat}
    (hq : leafEntry t' v n f = some q) : leafEntry t v n f = some q := by
  induction n generalizing f with
  | zero => cases hq
  | succ n ih =>
    have hentry : (t' f (pageIndex (n + 1) v)).flags.present = true →
        t' f (pageIndex (n + 1) v) = t f (pageIndex (n + 1) v) := by
      intro hp
      refine (h f _).resolve_right ?_
      rw [hp]
      decide
    cases n with
    | zero =>
      rw [leafEntry] at hq ⊢
      split at hq
      · next hp => rwa [← hentry hp, if_pos hp]
      · cases hq
    | succ n =>
      rw [leafEntry, Option.bind_eq_some_iff] at hq ⊢
      obtain ⟨g, hframe, hq⟩ := hq
      refine ⟨g, ?_, ih hq⟩
      rwa [← hentry (frame_eq_some hframe).1]

end

section

variable {c : CompressionEngine} {s s' : PagedMemory} {page : CompressedPage}
  {root addr maxPages : Nat} {acc : List CompressedPage × PagedMemory}
  {item : Nat × Nat} {items : List (Nat × Nat)}

theorem allocateFrame_loses {m m' : PhysMemory} {f : Nat}
    (h : m.allocateFrame = some (f, m')) : Loses m.tables m'.tables := by
  obtain ⟨-, hzero, hother⟩ := allocateFrame_spec h
  intro g i
  by_cases hg : g = f
  · rw [hg, hzero i]
    exact Or.inr rfl
  · rw [hother g hg]
    exact Or.inl rfl

theorem compressPage_spec (h : compressPage c root addr s = some (page, s')) :
    ∃ f i frame m, leafEntry s.memory.tables addr 4 root = some (f, i) ∧
      c.chosen (s.memory.pages (s.memory.tables f i).addr) = true ∧
      s.memory.allocateFrame = some (frame, m) ∧
      page.root = root ∧ page.addr = addr ∧
      s'.memory = (m.copyBytes frame
        (c.compress (s.memory.pages (s.memory.tables f i).addr))).setEntry f i
          (s.memory.tables f i).markCompressed := by
  unfold compressPage at h
  split at h
  · cases h
  · next f i hleaf =>
    dsimp only at h
    split at h
    · next hcond =>
      rw [Bool.and_eq_true] at hcond
      rw [PagedMemory.storePage] at h
      split at h
      · cases h
      · next frame m halloc =>
        obtain ⟨rfl, rfl⟩ := Prod.mk.inj (Option.some.inj h)
        exact ⟨f, i, frame, m, hleaf, hcond.2, halloc, rfl, rfl, rfl⟩
    · cases h

theorem set_markCompressed_loses (t : Tables) (f i : Nat) (e : PageTableEntry) :
    Loses t (t.set f i e.markCompressed) := by
  intro g j
  by_cases hgj : (g, j) = (f, i)
  · obtain ⟨rfl, rfl⟩ := Prod.mk.inj hgj
    rw [Tables.set_self]
    exact Or.inr rfl
  · exact Or.inl (Tables.set_ne _ hgj _)

theorem compressPage_loses (h : compressPage c root addr s = some (page, s'))
    (hfit : RoundFits c s (root, addr)) : Loses s.memory.tables s'.memory.tables := by
  obtain ⟨f, i, frame, m, hleaf, hchosen, halloc, -, -, hs'⟩ := compressPage_spec h
  rw [hs', setEntry, copyBytes_tables _ _ (hfit f i hleaf hchosen)]
  exact (allocateFrame_loses halloc).trans (set_markCompressed_loses _ f i _)

/-- A round that spares some walks leads none of them to an entry that it did not lead to
before, and the walk to the page that it compresses leads nowhere. -/
theorem compressPage_spares {walks : List (Nat × Nat)} {w : Nat × Nat}
    (h : compressPage c root addr s = some (page, s'))
    (hspare : RoundSpares c walks s (root, addr)) (hw : w ∈ walks) {q : Nat × Nat}
    (hq : leafEntry s'.memory.tables w.2 4 w.1 = some q) :
    leafEntry s.memory.tables w.2 4 w.1 = some q ∧ w ≠ (page.root, page.addr) := by
  obtain ⟨f, i, frame, m, hleaf, hchosen, halloc, hroot, haddr, hs'⟩ := compressPage_spec h
  have htables : s'.memory.tables =
      (m.copyBytes frame (c.compress (s.memory.pages (s.memory.tables f i).addr))).tables.set f i
        (s.memory.tables f i).markCompressed := by rw [hs', setEntry]
  have hp := leafEntry_present hq
  rw [htables] at hq hp
  have hcopied := (set_markCompressed_loses _ f i _).leafEntry_eq hq
  have hbefore := (allocateFrame_loses halloc).leafEntry_eq
    (hspare f i frame m hleaf hchosen halloc w hw q hcopied)
  refine ⟨hbefore, ?_⟩
  rintro rfl
  -- The entry found afterwards would be the one that was marked.
  rw [hroot, haddr] at hbefore
  obtain rfl := Option.some.inj (hleaf.symm.trans hbefore)
  rw [Tables.set_self] at hp
  cases hp

theorem daemonRound_of_some (hlen : acc.1.length < maxPages)
    (h : compressPage c item.1 item.2 acc.2 = some (page, s')) :
    daemonRound c maxPages acc item = (acc.1 ++ [page], s') := by
  rw [daemonRound, if_pos hlen, h]

theorem daemonRound_of_none (h : compressPage c item.1 item.2 acc.2 = none) :
    daemonRound c maxPages acc item = acc := by
  rw [daemonRound, h]
  exact ite_self _

theorem daemonRound_loses (hfit : RoundFits c acc.2 item) :
    Loses acc.2.memory.tables (daemonRound c maxPages acc item).2.memory.tables := by
  unfold daemonRound
  split
  · split
    · next page s' h => exact compressPage_loses h hfit
    · exact Loses.refl _
  · exact Loses.refl _

/-- The rounds of the daemon lose entries only. -/
theorem daemonRounds_loses (hfit : RoundsFit c maxPages items acc) :
    Loses acc.2.memory.tables (items.foldl (daemonRound c maxPages) acc).2.memory.tables := by
  induction items generalizing acc with
  | nil => exact Loses.refl _
  | cons item items ih => exact (daemonRound_loses hfit.1).trans (ih hfit.2)

/-- The pages compressed so far are pages of the walks, and their walks lead nowhere. -/
def Lost (walks : List (Nat × Nat)) (acc : List CompressedPage × PagedMemory) : Prop :=
  ∀ page ∈ acc.1, (page.root, page.addr) ∈ walks ∧
    leafEntry acc.2.memory.tables page.addr 4 page.root = none

theorem daemonRound_lost {walks : List (Nat × Nat)} (hspare : RoundSpares c walks acc.2 item)
    (hitem : item ∈ walks) (hlost : Lost walks acc) :
    Lost walks (daemonRound c maxPages acc item) := by
  unfold daemonRound
  split
  · split
    · next page s' h =>
      obtain ⟨f, i, frame, m, -, -, -, hroot, haddr, -⟩ := compressPage_spec h
      have hpage : (page.root, page.addr) ∈ walks := by rwa [hroot, haddr]
      intro p hp
      rcases List.mem_append.mp hp with hp | hp
      · obtain ⟨hwalk, hnone⟩ := hlost p hp
        refine ⟨hwalk, Option.eq_none_iff_forall_ne_some.mpr fun q hq => ?_⟩
        have hbefore := (compressPage_spares h hspare hwalk hq).1
        rw [hnone] at hbefore
        cases hbefore
      · obtain rfl := List.mem_singleton.mp hp
        refine ⟨hpage, Option.eq_none_iff_forall_ne_some.mpr fun q hq => ?_⟩
        exact (compressPage_spares h hspare hpage hq).2 rfl
    · exact hlost
  · exact hlost

theorem daemonRounds_lost {walks : List (Nat × Nat)} (hitems : ∀ item ∈ items, item ∈ walks)
    (hspare : EachStep (fun item acc => daemonRound c maxPages acc item)
      (fun item acc => RoundSpares c walks acc.2 item) items acc) (hlost : Lost walks acc) :
    Lost walks (items.foldl (daemonRound c maxPages) acc) := by
  induction items generalizing acc with
  | nil => exact hlost
  | cons item items ih =>
    rw [List.forall_mem_cons] at hitems
    exact ih hitems.2 hspare.2 (daemonRound_lost hspare.1 hitems.1 hlost)

/-- The fault handler looks for an entry that is present, and the daemon has made
the entry of every page that it compressed not present. -/
theorem handleCompressedFault_after_cycle {cr3 : Nat} {processes : List ProcessMemory}
    (hspare : RoundsSpare c maxPages (daemonItems cr3 processes) s)
    (hpage : page ∈ (runDaemonCycle c cr3 processes maxPages s).1) :
    handleCompressedFault c page.root page.addr (runDaemonCycle c cr3 processes maxPages s).2 =
      (false, (runDaemonCycle c cr3 processes maxPages s).2) := by
  have hlost : Lost (daemonItems cr3 processes) (runDaemonCycle c cr3 processes maxPages s) :=
    daemonRounds_lost (fun _ hitem => hitem) hspare fun _ hnil => nomatch hnil
  rw [handleCompressedFault, (hlost page hpage).2]

theorem not_transparent_of_unhandled
    (h : (handleCompressedFault c page.root page.addr s).1 = false) :
    ¬ Transparent c page s := by
  rintro ⟨s', hhandled, -⟩
  rw [hhandled] at h
  cases h

/-- No page that the daemon compresses is ever found again, whatever the engine does to its
bytes, unless an overrun rewrites the tables on the way to it. -/
theorem runDaemonCycle_not_transparent (c : CompressionEngine) (cr3 : Nat)
    (processes : List ProcessMemory) (maxPages : Nat) (s : PagedMemory)
    (hspare : RoundsSpare c maxPages (daemonItems cr3 processes) s) :
    ∀ page ∈ (runDaemonCycle c cr3 processes maxPages s).1,
      ¬ Transparent c page (runDaemonCycle c cr3 processes maxPages s).2 := by
  intro page hpage
  apply not_transparent_of_unhandled
  rw [handleCompressedFault_after_cycle hspare hpage]

end

theorem PagedMemory.release_memory (s : PagedMemory) (vaddr : Nat) :
    (s.release vaddr).memory = s.memory := by
  unfold PagedMemory.release
  split <;> rfl

theorem handleCompressedFault_restores {c : CompressionEngine} {s : PagedMemory}
    {cr3 addr f i frame : Nat} {loc : CompressedPageLocation} {data bytes : ByteVec}
    {m : PhysMemory} (hleaf : leafEntry s.memory.tables addr 4 cr3 = some (f, i))
    (hmark : (s.memory.tables f i).flags.compressed = true)
    (hloc : s.getLocation addr = some loc) (hdata : s.retrieve addr = some data)
    (hbytes : c.decompress data loc.originalSize = some bytes)
    (halloc : s.memory.allocateFrame = some (frame, m)) :
    ∃ s', handleCompressedFault c cr3 addr s = (true, s') ∧
      s'.memory.tables = m.tables.set f i ((s.memory.tables f i).markRestored frame) ∧
      s'.memory.pages = update m.pages frame (.ofFn bytes.2.get) := by
  unfold handleCompressedFault
  simp only [hleaf, hmark, hloc, hdata, hbytes, halloc, Bool.not_true,
    Bool.false_eq_true, ↓reduceIte]
  refine ⟨_, rfl, ?_, ?_⟩
  · rw [PagedMemory.release_memory]
    rfl
  · rw [PagedMemory.release_memory]
    rfl

/-! Runs of cycles and faults -/

inductive CompressionEvent where
  | cycle (cr3 : Nat) (processes : List ProcessMemory) (maxPages : Nat)
  | fault (root addr : Nat)

/-- The bytes of the page that `addr` leads to. -/
def pageBytes (m : PhysMemory) (addr root : Nat) : Option (Image 4096) :=
  (leafEntry m.tables addr 4 root).map fun q => m.pages (m.tables q.1 q.2).addr

section

variable (c : CompressionEngine)

def CompressionEvent.run (s : PagedMemory) : CompressionEvent → PagedMemory
  | .cycle cr3 processes maxPages => (runDaemonCycle c cr3 processes maxPages s).2
  | .fault root addr => (handleCompressedFault c root addr s).2

/-- What a fault of the process with tables at `root` restores. -/
def CompressionEvent.restores (root : Nat) (s : PagedMemory) :
    CompressionEvent → List (Nat × Option (Image 4096))
  | .cycle _ _ _ => []
  | .fault r addr =>
    match handleCompressedFault c r addr s with
    | (true, s') => if r = root then [(addr, pageBytes s'.memory addr root)] else []
    | (false, _) => []

/-- All that is restored into pages of the process with tables at `root`. -/
def restoredTo (root : Nat) : List CompressionEvent → PagedMemory → List (Nat × Option (Image 4096))
  | [], _ => []
  | e :: es, s => e.restores c root s ++ restoredTo root es (e.run c s)

def CompressionEvent.Fits (s : PagedMemory) : CompressionEvent → Prop
  | .cycle cr3 processes maxPages =>
    RoundsFit c maxPages (daemonItems cr3 processes) ([], s)
  | .fault _ _ => True

def EventsFit : List CompressionEvent → PagedMemory → Prop
  | [], _ => True
  | e :: es, s => e.Fits c s ∧ EventsFit es (e.run c s)

def Unmarked (t : Tables) : Prop :=
  ∀ f i, (t f i).flags.present = true → (t f i).flags.compressed = false

variable {c} {s : PagedMemory}

theorem Loses.unmarked {t t' : Tables} (h : Loses t t') (hun : Unmarked t) : Unmarked t' := by
  intro f i hp
  rcases h f i with heq | hnone
  · rw [heq] at hp ⊢
    exact hun f i hp
  · rw [hnone] at hp
    cases hp

theorem handleCompressedFault_of_unmarked (hun : Unmarked s.memory.tables)
    (root addr : Nat) : handleCompressedFault c root addr s = (false, s) := by
  unfold handleCompressedFault
  split
  · rfl
  · next f i hleaf =>
    have hmark := hun f i (leafEntry_present hleaf)
    simp only [hmark, Bool.not_false, ↓reduceIte]

theorem CompressionEvent.run_unmarked (e : CompressionEvent) (hfit : e.Fits c s)
    (hun : Unmarked s.memory.tables) : Unmarked (e.run c s).memory.tables := by
  cases e with
  | cycle cr3 processes maxPages => exact (daemonRounds_loses hfit).unmarked hun
  | fault root addr =>
    rw [CompressionEvent.run, handleCompressedFault_of_unmarked hun]
    exact hun

theorem CompressionEvent.restores_of_unmarked (e : CompressionEvent)
    (hun : Unmarked s.memory.tables) (root : Nat) : e.restores c root s = [] := by
  cases e with
  | cycle cr3 processes maxPages => rfl
  | fault r addr =>
    rw [CompressionEvent.restores, handleCompressedFault_of_unmarked hun]

theorem restoredTo_cycle_fault {cr3 maxPages root addr : Nat}
    {processes : List ProcessMemory} {s₁ s₂ : PagedMemory}
    (hcycle : (runDaemonCycle c cr3 processes maxPages s).2 = s₁)
    (hfault : handleCompressedFault c root addr s₁ = (true, s₂)) :
    restoredTo c root [.cycle cr3 processes maxPages, .fault root addr] s =
      [(addr, pageBytes s₂.memory addr root)] := by
  simp only [restoredTo, CompressionEvent.restores, CompressionEvent.run, hcycle, hfault,
    List.nil_append, List.append_nil, ↓reduceIte]

theorem roundsSpare_of_short (h : ∀ p, (c.compress p).1 ≤ 4096) (maxPages : Nat)
    (items : List (Nat × Nat)) (s : PagedMemory) : RoundsSpare c maxPages items s := by
  refine (eachStep_true items _).imp ?_
  intro item acc _ f i frame m _ _ _ w _ q hq
  rwa [copyBytes_tables _ _ (h _)] at hq

theorem roundsFit_of_short (h : ∀ p, (c.compress p).1 ≤ 4096) (maxPages : Nat)
    (items : List (Nat × Nat)) (acc : List CompressedPage × PagedMemory) :
    RoundsFit c maxPages items acc := by
  induction items generalizing acc with
  | nil => exact trivial
  | cons item items ih => exact ⟨fun _ _ _ _ => h _, ih _⟩

theorem eventsFit_of_short (h : ∀ p, (c.compress p).1 ≤ 4096)
    (es : List CompressionEvent) (s : PagedMemory) : EventsFit c es s := by
  induction es generalizing s with
  | nil => exact trivial
  | cons e es ih =>
    refine ⟨?_, ih _⟩
    cases e with
    | cycle cr3 processes maxPages => exact roundsFit_of_short h maxPages _ _
    | fault root addr => exact trivial

theorem restoredTo_eq_nil (root : Nat) {es : List CompressionEvent}
    (hfit : EventsFit c es s) (hun : Unmarked s.memory.tables) :
    restoredTo c root es s = [] := by
  induction es generalizing s with
  | nil => rfl
  | cons e es ih =>
    rw [restoredTo, e.restores_of_unmarked hun,
      ih hfit.2 (e.run_unmarked hfit.1 hun), List.append_nil]

/-- What is restored into the pages of one process does not depend on the memory of
others, whatever it is. -/
theorem restoredTo_independent (c : CompressionEngine) (es : List CompressionEvent)
    (root : Nat) (s s' : PagedMemory) (hun : Unmarked s.memory.tables)
    (hun' : Unmarked s'.memory.tables) (hfit : EventsFit c es s)
    (hfit' : EventsFit c es s') :
    restoredTo c root es s = restoredTo c root es s' := by
  rw [restoredTo_eq_nil root hfit hun, restoredTo_eq_nil root hfit' hun']

end

section

/-- The size of the page, and the token and the length of its literals. -/
def literalHeader : List UInt8 :=
  [0, 16, 0, 0, 240] ++ List.replicate 16 255 ++ [1]

/-- LZ4 for a page without repetitions: a header and the page itself. -/
def literalEngine : CompressionEngine where
  chosen := fun _ => true
  compress := fun p => ⟨4118, .ofFn fun k =>
    if k < 22 then literalHeader.getD k 0 else p.get (k - 22)⟩
  decompressSizePrepended := fun d => some ⟨4096, .ofFn fun k => d.2.get (k + 22)⟩

variable (page : Image 4096)

theorem literalEngine_header {k : Nat} (h : k < 22) :
    (literalEngine.compress page).2.get k = literalHeader.getD k 0 := by
  simp only [literalEngine, get_ofFn]
  rw [if_pos (by omega), if_pos h]

theorem literalEngine_literal {k : Nat} (h : k < 4096) :
    (literalEngine.compress page).2.get (k + 22) = page.get k := by
  simp only [literalEngine, get_ofFn]
  rw [if_pos (by omega), if_neg (by omega), Nat.add_sub_cancel]

theorem literalEngine_decompress :
    literalEngine.decompress (literalEngine.compress page) 4096 = some ⟨4096, page⟩ := by
  have hheader := @literalEngine_header page
  have hsize : u32At (literalEngine.compress page).2.get 0 = 4096 :=
    (u32At_congr fun k hk => by
      rw [Nat.zero_add]
      exact hheader (by omega)).trans (by decide : u32At (literalHeader.getD · 0) 0 = 4096)
  have hlen : ¬ (literalEngine.compress page).1 < 4 := of_decide_eq_false rfl
  rw [CompressionEngine.decompress, if_neg hlen, hsize, if_neg (by decide)]
  refine congrArg (fun b : Image 4096 => some (⟨4096, b⟩ : ByteVec)) (Image.ext fun k hk => ?_)
  rw [Image.get_ofFn, if_pos hk, literalEngine_literal page hk]

def variedPage (first : UInt8) : Image 4096 :=
  .ofFn fun k => if k = 0 then first
    else if k % 2 = 0 then UInt8.ofNat (k / 2 % 64) else UInt8.ofNat (64 + k / 128)

variable (first : UInt8)

/-- The part of the compressed page that does not fit starts with the entry of a
page that is present and marked as compressed. -/
theorem overwrittenWord_variedPage (e : PageTableEntry) :
    overwrittenWord (literalEngine.compress (variedPage first)) 4096 e =
      0x5f385f375f365f35 := by
  have hbytes : ∀ k < 8, (variedPage first).get (4074 + k) =
      [0x35, 0x5f, 0x36, 0x5f, 0x37, 0x5f, 0x38, 0x5f].getD k 0 := by
    intro k hk
    rw [variedPage, get_ofFn, if_pos (by omega), if_neg (by omega)]
    revert k
    decide
  refine (packBytes_congr fun k hk => ?_).trans
    (by decide : packBytes ([0x35, 0x5f, 0x36, 0x5f, 0x37, 0x5f, 0x38, 0x5f].getD · 0) 8
      = 0x5f385f375f365f35)
  have hlt : 4096 + k < (literalEngine.compress (variedPage first)).1 :=
    (by omega : 4096 + k < 4118)
  rw [if_pos hlt, ← hbytes k hk, ← literalEngine_literal _ (by omega)]
  congr 1
  omega

/-- Two processes with the page at address zero.  The tables of one of them are in
frames 0, 1, 2 and 6, those of the other in frames 10 to 13. -/
def twoProcessTables : Tables := fun f i =>
  if i = 0 then
    match f with
    | 0 => ⟨1, ⟨true, true, true, false, false, false⟩⟩
    | 1 => ⟨2, ⟨true, true, true, false, false, false⟩⟩
    | 2 => ⟨6, ⟨true, true, true, false, false, false⟩⟩
    | 6 => ⟨4, ⟨true, true, true, false, false, false⟩⟩
    | 10 => ⟨11, ⟨true, true, true, false, false, false⟩⟩
    | 11 => ⟨12, ⟨true, true, true, false, false, false⟩⟩
    | 12 => ⟨13, ⟨true, true, true, false, false, false⟩⟩
    | 13 => ⟨14, ⟨true, true, true, false, false, false⟩⟩
    | _ => .unused
  else .unused

def onePageProcess (root : Nat) : ProcessMemory where
  exited := false
  pageTableFrame := some root
  vmas := [⟨0, 4096, ⟨true, false, true, false⟩, 0, 0⟩]
  binaryData := []

/-- The page of the process with tables at 10 is `page`. -/
def twoProcesses (page : Image 4096) : PagedMemory where
  memory := ⟨twoProcessTables, fun f => if f = 14 then page else .zero, [5, 7, 8]⟩
  store := .new

/-- The daemon compresses pages, then the process with tables at 0 has a fault. -/
def cycleThenFault : List CompressionEvent :=
  [.cycle 0 [onePageProcess 10, onePageProcess 0] 8, .fault 0 0]

theorem twoProcessTables_flags (f i : Nat) : (twoProcessTables f i).flags.hugePage = false ∧
      (twoProcessTables f i).flags.compressed = false := by
  unfold twoProcessTables
  split
  · split <;> exact ⟨rfl, rfl⟩
  · exact ⟨rfl, rfl⟩

theorem twoProcessTables_unmarked : Unmarked twoProcessTables :=
  fun f i _ => (twoProcessTables_flags f i).2

theorem twoProcessTables_separate {v : Nat} {l : Leaf}
    (h : walk twoProcessTables v 4 0 = some l) : l.phys / 4096 ≠ 14 := by
  have hnext : ∀ f i, f ∈ [0, 1, 2, 4, 6] → (twoProcessTables f i).addr ∈ [0, 1, 2, 4, 6] := by
    intro f i hf
    unfold twoProcessTables
    split
    · revert f
      decide
    · exact List.mem_cons_self
  obtain ⟨q, hq⟩ := exists_leafEntry h fun q _ => (twoProcessTables_flags q.1 q.2).1
  obtain ⟨hpath, l', hwalk, hphys⟩ := leafEntry_spec hq
  have hframe : q.1 ∈ [0, 1, 2, 4, 6] := by
    refine path_frames (P := (· ∈ [0, 1, 2, 4, 6])) (by decide) (fun f i g hf hg => ?_) q hpath
    rw [← (frame_eq_some hg).2.2]
    exact hnext f i hf
  have haddr : (twoProcessTables q.1 q.2).addr ≠ 14 := by
    intro h14
    have hmem := hnext q.1 q.2 hframe
    rw [h14] at hmem
    exact absurd hmem (by decide)
  rw [h, Option.some.injEq] at hwalk
  rw [hwalk, hphys]
  omega

def zeroPageEngine : CompressionEngine where
  chosen := fun p => p.bits = 0
  compress := fun _ => ⟨5, .ofFn ([0, 16, 0, 0, 0].getD · 0)⟩
  decompressSizePrepended := fun _ => some ⟨4096, .zero⟩

theorem zeroPageEngine_short (p : Image 4096) : (zeroPageEngine.compress p).1 ≤ 4096 :=
  (by decide : 5 ≤ 4096)

theorem zeroPageEngine_decompress {page : Image 4096} (h : zeroPageEngine.chosen page = true) :
    zeroPageEngine.decompress (zeroPageEngine.compress page) 4096 = some ⟨4096, page⟩ := by
  have hbits : page.bits = 0 := of_decide_eq_true h
  obtain ⟨bits, hlt⟩ := page
  obtain rfl : bits = 0 := hbits
  have hlen : ¬ (zeroPageEngine.compress ⟨0, hlt⟩).1 < 4 := (by decide : ¬ 5 < 4)
  have hsize : u32At (zeroPageEngine.compress ⟨0, hlt⟩).2.get 0 = 4096 :=
    (by decide : u32At (.ofFn ([0, 16, 0, 0, 0].getD · 0) : Image 5).get 0 = 4096)
  rw [CompressionEngine.decompress, if_neg hlen, hsize, if_neg (by decide)]
  rfl

theorem runDaemonCycle_zeroPage :
    ⟨10, 0, twoProcessTables 13 0, .zero⟩ ∈ (runDaemonCycle zeroPageEngine 0
      [onePageProcess 10] 1 (twoProcesses .zero)).1 :=
  List.mem_singleton.mpr rfl

theorem zeroPage_not_transparent : ∃ page ∈ (runDaemonCycle zeroPageEngine 0 [onePageProcess 10] 1
        (twoProcesses .zero)).1,
      ¬ Transparent zeroPageEngine page
        (runDaemonCycle zeroPageEngine 0 [onePageProcess 10] 1 (twoProcesses .zero)).2 :=
  ⟨_, runDaemonCycle_zeroPage, runDaemonCycle_not_transparent _ _ _ _ _
    (roundsSpare_of_short zeroPageEngine_short _ _ _) _ runDaemonCycle_zeroPage⟩

/-- A page of zeros is compressed by an engine that inverts itself, and the touch of
its owner is not handled. -/
theorem zeroPage_fault_unhandled : (∀ page, zeroPageEngine.chosen page = true →
      zeroPageEngine.decompress (zeroPageEngine.compress page) 4096 = some ⟨4096, page⟩) ∧
    ⟨10, 0, twoProcessTables 13 0, .zero⟩ ∈ (runDaemonCycle zeroPageEngine 0
      [onePageProcess 10] 1 (twoProcesses .zero)).1 ∧
    (handleCompressedFault zeroPageEngine 10 0 (runDaemonCycle zeroPageEngine 0
      [onePageProcess 10] 1 (twoProcesses .zero)).2).1 = false := by
  refine ⟨fun _ => zeroPageEngine_decompress, runDaemonCycle_zeroPage, ?_⟩
  have hfault := handleCompressedFault_after_cycle
    (roundsSpare_of_short zeroPageEngine_short _ _ _) runDaemonCycle_zeroPage
  exact congrArg Prod.fst hfault

def spilled (page : Image 4096) : PagedMemory where
  memory := (copyBytes ⟨update twoProcessTables 5 fun _ => .unused,
      update (fun f => if f = 14 then page else .zero) 5 .zero, [7, 8]⟩
    5 (literalEngine.compress page)).setEntry 13 0 (twoProcessTables 13 0).markCompressed
  store := ⟨update (fun _ => none) 0 (some ⟨5, 4096, 4118⟩), [5]⟩

theorem compressPage_twoProcesses :
    compressPage literalEngine 10 0 (twoProcesses page) =
      some (⟨10, 0, twoProcessTables 13 0, page⟩, spilled page) := by
  have hleaf : leafEntry (twoProcesses page).memory.tables 0 4 10 = some (13, 0) := rfl
  rw [compressPage, hleaf]
  rfl

theorem spilled_retrieve :
    (spilled page).retrieve 0 = some (literalEngine.compress page) := by
  have hstore : (twoProcesses page).storePage 0 (literalEngine.compress page) = some _ := rfl
  have hretrieve := PagedMemory.retrieve_storePage hstore
  exact hretrieve

theorem spilled_entry :
    (spilled (variedPage first)).memory.tables 6 0 = .ofWord 0x5f385f375f365f35 := by
  rw [← overwrittenWord_variedPage first]
  rfl

theorem leafEntry_six {t : Tables} (h0 : t 0 0 = twoProcessTables 0 0)
    (h1 : t 1 0 = twoProcessTables 1 0) (h2 : t 2 0 = twoProcessTables 2 0)
    (h6 : (t 6 0).flags.present = true) : leafEntry t 0 4 0 = some (6, 0) := by
  have hindex : ∀ level, pageIndex level 0 = 0 := fun level => by simp [pageIndex]
  simp [leafEntry, hindex, h0, h1, h2, h6, twoProcessTables, frame]

/-- The daemon compresses the page of the process with tables at 10 and so marks the
entry of the other one, which it then passes over. -/
theorem runDaemonCycle_twoProcesses :
    (runDaemonCycle literalEngine 0 [onePageProcess 10, onePageProcess 0] 8
      (twoProcesses (variedPage first))).2 = spilled (variedPage first) := by
  have hitems : daemonItems 0 [onePageProcess 10, onePageProcess 0] = [(10, 0), (0, 0)] := rfl
  have hleaf : leafEntry (spilled (variedPage first)).memory.tables 0 4 0 = some (6, 0) := by
    refine leafEntry_six rfl rfl rfl ?_
    rw [spilled_entry]
    decide
  have hsecond : compressPage literalEngine 0 0 (spilled (variedPage first)) = none := by
    have hmark : (ofWord 0x5f385f375f365f35).flags.compressed = true := by
      decide
    rw [compressPage, hleaf]
    simp only [spilled_entry, hmark, Bool.not_true, Bool.and_false, Bool.false_and,
      Bool.false_eq_true, ↓reduceIte]
  have hfirst := compressPage_twoProcesses (variedPage first)
  generalize spilled (variedPage first) = s at *
  generalize twoProcesses (variedPage first) = s₀ at *
  have hround : daemonRound literalEngine 8 ([], s₀) (10, 0) =
      ([⟨10, 0, twoProcessTables 13 0, variedPage first⟩], s) :=
    daemonRound_of_some (Nat.zero_lt_succ 7) hfirst
  have hround' : daemonRound literalEngine 8
      ([⟨10, 0, twoProcessTables 13 0, variedPage first⟩], s) (0, 0) =
        ([⟨10, 0, twoProcessTables 13 0, variedPage first⟩], s) :=
    daemonRound_of_none hsecond
  rw [runDaemonCycle, hitems, List.foldl_cons, List.foldl_cons, List.foldl_nil, hround, hround']

theorem handleCompressedFault_spilled {page : Image 4096}
    (hentry : (spilled page).memory.tables 6 0 = .ofWord 0x5f385f375f365f35) :
    ∃ s', handleCompressedFault literalEngine 0 0 (spilled page) = (true, s') ∧
      pageBytes s'.memory 0 0 = some page := by
  have hleaf : leafEntry (spilled page).memory.tables 0 4 0 = some (6, 0) := by
    refine leafEntry_six rfl rfl rfl ?_
    rw [hentry]
    decide
  have hmark : ((spilled page).memory.tables 6 0).flags.compressed = true := by
    rw [hentry]
    decide
  have hloc : (spilled page).getLocation 0 = some ⟨5, 4096, 4118⟩ := rfl
  obtain ⟨s', hfault, htables, hpages⟩ := handleCompressedFault_restores hleaf hmark hloc
    (spilled_retrieve page) (literalEngine_decompress page) rfl
  refine ⟨s', hfault, ?_⟩
  have hleaf' : leafEntry s'.memory.tables 0 4 0 = some (6, 0) := by
    rw [htables]
    exact leafEntry_six rfl rfl rfl rfl
  rw [pageBytes, hleaf', Option.map_some, htables, Tables.set_self, hpages,
    PageTableEntry.markRestored]
  dsimp only
  rw [Function.update_self]
  exact congrArg some (Image.ext fun k hk => by rw [Image.get_ofFn, if_pos hk])

theorem restoredTo_spilled :
    restoredTo literalEngine 0 cycleThenFault (twoProcesses (variedPage first)) =
      [(0, some (variedPage first))] := by
  obtain ⟨s', hfault, hbytes⟩ := handleCompressedFault_spilled (spilled_entry first)
  rw [cycleThenFault, restoredTo_cycle_fault (runDaemonCycle_twoProcesses first) hfault, hbytes]

/-- The restored bytes depend on memory that the process cannot reach. -/
theorem restoredTo_depends :
    restoredTo literalEngine 0 cycleThenFault (twoProcesses (variedPage 0)) ≠
      restoredTo literalEngine 0 cycleThenFault (twoProcesses (variedPage 1)) ∧
    Unmarked twoProcessTables ∧
    ∀ v l, walk twoProcessTables v 4 0 = some l → l.phys / 4096 ≠ 14 := by
  refine ⟨fun h => ?_, twoProcessTables_unmarked, fun v l => twoProcessTables_separate⟩
  rw [restoredTo_spilled, restoredTo_spilled] at h
  have hpages : variedPage 0 = variedPage 1 := by
    injection h with h
    injection h with _ h
    exact Option.some.inj h
  have hbyte : (variedPage 0).get 0 = (variedPage 1).get 0 := by rw [hpages]
  simp [variedPage] at hbyte

/-- The same events with an engine whose pages fit. -/
theorem restoredTo_zeroPage :
    restoredTo zeroPageEngine 0 cycleThenFault (twoProcesses (variedPage 0)) =
      restoredTo zeroPageEngine 0 cycleThenFault (twoProcesses .zero) :=
  restoredTo_independent zeroPageEngine cycleThenFault 0 _ _ twoProcessTables_unmarked
    twoProcessTables_unmarked (eventsFit_of_short zeroPageEngine_short _ _)
    (eventsFit_of_short zeroPageEngine_short _ _)

end

end ZiqaKernel
