/-
The layout of the regions of a process under the calls that add regions:
`sys_mmap` (`abi/linux/mod.rs`), `handle_fmap` with `map_redox_anonymous`
(`abi/redox.rs`) and `ziqa_dev_map` (`abi/syscall.rs`).  They choose the place of a
region in different ways and do not check it against a common rule.
-/
import ZiqaKernel.DescriptorCalls
import ZiqaKernel.HeapBreak
import ZiqaKernel.PageTree

namespace ZiqaKernel

open Vma

/-! The calls -/

/-- The framebuffer of the display: where the kernel sees it, and its geometry. -/
structure Framebuffer where
  virt : Nat
  width : Nat
  height : Nat
  bpp : Nat

structure LayoutState where
  vmas : List Vma
  mmapBump : Nat
  root : Nat
  memory : PhysMemory
  framebuffer : Option Framebuffer
  physOffset : Nat

/-- `RedoxMap`. -/
structure RedoxMap where
  offset : Nat
  size : Nat
  flags : Nat
  address : Nat

/-- `align_page`. -/
def alignPage (size : Nat) : Option Nat :=
  if size = 0 then none
  else if size + 4095 < 2 ^ 64 then some (pageStart (size + 4095))
  else none

/-- `redox_map_flags_to_region_flags`. -/
def redoxMapFlagsToRegionFlags (flags : Nat) : MemoryRegionFlags :=
  let hasProt := flags.testBit 16 || flags.testBit 17 || flags.testBit 18
  { writable := if hasProt then flags.testBit 17 else true
    executable := flags.testBit 16
    userAccessible := true
    copyOnWrite := false }

def pageOffsets (size : Nat) : List Nat := (List.range ((size + 4095) / 4096)).map (4096 * ·)

section

variable [Mapper]

/-- The loop of `map_redox_anonymous`. -/
def demandPages (root base : Nat) (flags : PageTableFlags) :
    List Nat → PhysMemory → Option (Bool × PhysMemory)
  | [], m => some (true, m)
  | offset :: rest, m =>
    (virtAddrAdd base offset).bind fun v =>
      match demandPageForRoot root v flags none m with
      | (true, m') => demandPages root base flags rest m'
      | (false, m') => some (false, m')

/-- `map_redox_anonymous` from the choice of the place on. -/
def placeAnonymous (map : RedoxMap) (size base : Nat) (s : LayoutState) :
    Option (Except AbiError Nat × LayoutState) :=
  let s := { s with mmapBump := max s.mmapBump ((base + size) % 2 ^ 64) }
  let flags := redoxMapFlagsToRegionFlags map.flags
  (demandPages s.root base (regionFlagsToPageFlags flags) (pageOffsets size) s.memory).bind fun r =>
      let s := { s with memory := r.2 }
      if r.1 then
        (virtAddrAdd base size).map fun stop =>
          (.ok base, { s with vmas := addRegion s.vmas ⟨base, stop, flags, map.offset, 0⟩ })
      else some (.ok (negErrno 12), s)

/-- `map_redox_anonymous`, when `permitted` is the answer of the capability check. -/
def mapRedoxAnonymous (permitted : Bool) (map : RedoxMap) (s : LayoutState) :
    Option (Except AbiError Nat × LayoutState) :=
  if !permitted then some (.error .permissionDenied, s)
  else
    match alignPage map.size with
    | none => some (.ok (negErrno 22), s)
    | some size =>
      (virtAddrNew (if map.address ≠ 0 then map.address else s.mmapBump)).bind fun hint =>
        if map.flags.testBit 2 ∧ map.address ≠ 0 then
          if isRangeFree s.vmas hint size then placeAnonymous map size hint s
          else some (.ok (negErrno 17), s)
        else (findFreeRange s.vmas size hint).bind fun base => placeAnonymous map size base s

/-- The loops of `handle_fmap` and `ziqa_dev_map` that map pages to physical addresses. -/
def mapPages (root virtStart physStart : Nat) (flags : PageTableFlags) :
    List Nat → PhysMemory → Option (Bool × PhysMemory)
  | [], m => some (true, m)
  | offset :: rest, m =>
    (virtAddrAdd virtStart offset).bind fun v =>
      if (physStart + offset) % 2 ^ 64 < 2 ^ 52 then
        match Mapper.mapTo root v ((physStart + offset) % 2 ^ 64 / 4096) flags m with
        | (.ok (), m') => mapPages root virtStart physStart flags rest m'
        | (.error _, m') => some (false, m')
      else none

def deviceFlags : PageTableFlags := ⟨true, true, true, false, false, false⟩

/-- The region that `handle_fmap` adds for the framebuffer, by its start and its size. -/
def framebufferPlace (fb : Framebuffer) (map : RedoxMap) : Nat × Nat :=
  let fbSize := fb.width * fb.height * (fb.bpp / 8) % 2 ^ 64
  (if map.address ≠ 0 then map.address else 0x40000000000,
    (alignPage (min map.size fbSize)).getD fbSize)

/-- The framebuffer part of `handle_fmap`, when the pages are to show the display from the
byte `byteOffset` on. -/
def mapFramebuffer (fb : Framebuffer) (byteOffset : Nat) (map : RedoxMap) (s : LayoutState) :
    Option (Except AbiError Nat × LayoutState) :=
  let physStart := min ((fb.virt + 2 ^ 64 - s.physOffset) % 2 ^ 64 + pageStart byteOffset)
    (2 ^ 64 - 1)
  let start := (framebufferPlace fb map).1
  let size := (framebufferPlace fb map).2
  (virtAddrNew start).bind fun userStart =>
    (mapPages s.root userStart physStart deviceFlags (pageOffsets size) s.memory).bind fun r =>
      if r.1 then
        -- whether the flags could be updated is only logged
        let tables := (pageOffsets size).foldl (fun t offset =>
          Mapper.updateFlags s.root (userStart + offset) { deviceFlags with hugePage := true } t)
          r.2.tables
        (virtAddrNew ((start + size) % 2 ^ 64)).map fun stop =>
          (.ok start, { s with
            memory := { r.2 with tables := tables }
            vmas := addRegion s.vmas ⟨userStart, stop, ⟨true, false, true, false⟩, 0, 0⟩ })
      else some (.ok (negErrno 12), { s with memory := r.2 })

/-- `handle_fmap`.  The map is what `read_redox_map` reads, or the error number that it
returns; `window` is the position that the path of the descriptor names, if it is that of
a window. -/
def handleFmap (permitted : Bool) (fd : Nat) (map : Except Nat RedoxMap)
    (window : Option (Nat × Nat)) (s : LayoutState) :
    Option (Except AbiError Nat × LayoutState) :=
  match map with
  | .error errno => some (.ok errno, s)
  | .ok map =>
    if fd = 2 ^ 64 - 1 then mapRedoxAnonymous permitted map s
    else
      match s.framebuffer, window with
      | none, _ => some (.ok (negErrno 19), s)
      | some fb, none => mapFramebuffer fb 0 map s
      | some fb, some (x, y) =>
        if x ≥ fb.width ∨ y ≥ fb.height then mapRedoxAnonymous permitted map s
        else mapFramebuffer fb (((y * fb.width + x) * (fb.bpp / 8)) % 2 ^ 64) map s

/-- `aligned_size` of `ziqa_dev_map`. -/
def devMapSize (phys size : Nat) : Nat :=
  (pageStart ((phys + size + 0xfff) % 2 ^ 64) + 2 ^ 64 - pageStart phys) % 2 ^ 64

/-- `ziqa_dev_map`. -/
def ziqaDevMap (permitted : Bool) (phys size : Nat) (s : LayoutState) :
    Option (Except AbiError Nat × LayoutState) :=
  if !permitted then some (.ok (negErrno 1), s)
  else if pageStart phys < 0x100000000 then some (.ok (negErrno 1), s)
  else if devMapSize phys size > 0x1000000 then some (.ok (negErrno 22), s)
  else
    let virtStart := alignBrk s.mmapBump
    let alignedSize := devMapSize phys size
    let s := { s with mmapBump := (virtStart + alignedSize) % 2 ^ 64 }
    (mapPages s.root virtStart (pageStart phys) deviceFlags (pageOffsets alignedSize)
        s.memory).bind fun r =>
      let s := { s with memory := r.2 }
      if r.1 then
        (virtAddrNew virtStart).bind fun start =>
          (virtAddrAdd start alignedSize).map fun stop =>
            (.ok virtStart, { s with
              vmas := addRegion s.vmas ⟨start, stop, ⟨true, false, true, false⟩, 0, 0⟩ })
      else some (.error (.other "Map failed"), s)

/-- The calls of the process; `permitted` is the answer of the capability check. -/
inductive LayoutCall where
  | mmap (permitted : Bool) (args : MmapArgs)
  | fmap (permitted : Bool) (fd : Nat) (map : Except Nat RedoxMap) (window : Option (Nat × Nat))
  | devMap (permitted : Bool) (phys size : Nat)

/-- The state after a call; a call that panics has no effect that anyone sees. -/
def LayoutCall.step : LayoutCall → LayoutState → LayoutState
  | .mmap permitted args, s =>
    { s with vmas := ((sysMmap permitted args s.vmas).map (·.2)).getD s.vmas }
  | .fmap permitted fd map window, s => ((handleFmap permitted fd map window s).map (·.2)).getD s
  | .devMap permitted phys size, s => ((ziqaDevMap permitted phys size s).map (·.2)).getD s

end

/-! The layout -/

/-- The regions are page aligned, lie in user space, are sorted and do not overlap. -/
structure WellLaid (vmas : List Vma) : Prop where
  aligned : ∀ vma ∈ vmas, vma.start % 4096 = 0 ∧ vma.stop % 4096 = 0
  below : ∀ vma ∈ vmas, vma.start ≤ vma.stop ∧ vma.stop ≤ userAddrMax
  sorted : vmas.Pairwise fun v w => v.start ≤ w.start
  disjoint : vmas.Pairwise fun v w => ∀ a, ¬ (v.contains a ∧ w.contains a)

theorem wellLaid_nil : WellLaid [] := by
  refine ⟨?_, ?_, List.Pairwise.nil, List.Pairwise.nil⟩ <;> simp

/-- A region of `size` bytes has its place at `base`: page aligned, with an end below the
limit, and apart from the regions there are. -/
structure FreePlace (vmas : List Vma) (base size : Nat) : Prop where
  aligned : base % 4096 = 0
  whole : size % 4096 = 0
  below : base + size < userAddrMax
  apart : ∀ vma ∈ vmas, vma.stop ≤ base ∨ base + size ≤ vma.start

variable {base size : Nat}

section

variable {vmas : List Vma} {new : Vma}

theorem pairwise_addRegion {R : Vma → Vma → Prop} (h : vmas.Pairwise R)
    (hbefore : ∀ v ∈ vmas, v.start < new.start → R v new)
    (hafter : ∀ w ∈ vmas.dropWhile (·.start < new.start), R new w) :
    (addRegion vmas new).Pairwise R := by
  have hsplit := vmas.takeWhile_append_dropWhile (p := (·.start < new.start))
  rw [← hsplit, List.pairwise_append] at h
  obtain ⟨htake, hdrop, hcross⟩ := h
  rw [addRegion, List.pairwise_append, List.pairwise_cons]
  refine ⟨htake, ⟨hafter, hdrop⟩, fun v hv w hw => ?_⟩
  rcases List.mem_cons.mp hw with rfl | hw
  · apply hbefore v
    · rw [← hsplit]
      exact List.mem_append_left _ hv
    · simpa using List.mem_takeWhile_imp hv
  · exact hcross v hv w hw

theorem start_le_of_mem_dropWhile (h : vmas.Pairwise fun v w => v.start ≤ w.start) :
    ∀ w ∈ vmas.dropWhile (·.start < new.start), new.start ≤ w.start := by
  induction vmas with
  | nil => simp
  | cons vma rest ih =>
    rw [List.pairwise_cons] at h
    rw [List.dropWhile_cons]
    split
    · exact ih h.2
    · next hle =>
      have hhead : new.start ≤ vma.start := by simpa using hle
      rw [List.forall_mem_cons]
      exact ⟨hhead, fun w hw => hhead.trans (h.1 w hw)⟩

theorem not_contains_both {v w : Vma} (h : v.stop ≤ w.start ∨ w.stop ≤ v.start) (a : Nat) :
    ¬ (v.contains a ∧ w.contains a) := by
  rintro ⟨hv, hw⟩
  rw [contains, Bool.and_eq_true, decide_eq_true_iff, decide_eq_true_iff] at hv hw
  omega

theorem WellLaid.addRegion (h : WellLaid vmas)
    (hplace : FreePlace vmas base size) (hstart : new.start = base)
    (hstop : new.stop = base + size) : WellLaid (addRegion vmas new) := by
  have hbase := hplace.aligned
  have hsize := hplace.whole
  have hbelow := hplace.below
  have hapart : ∀ vma ∈ vmas, ∀ a, ¬ (vma.contains a ∧ new.contains a) := by
    intro vma hvma
    apply not_contains_both
    rw [hstart, hstop]
    exact hplace.apart vma hvma
  refine ⟨fun vma hvma => ?_, fun vma hvma => ?_, ?_, ?_⟩
  · rcases (mem_addRegion vmas new vma).mp hvma with rfl | hvma
    · omega
    · exact h.aligned vma hvma
  · rcases (mem_addRegion vmas new vma).mp hvma with rfl | hvma
    · omega
    · exact h.below vma hvma
  · apply pairwise_addRegion h.sorted
    · exact fun v _ hlt => hlt.le
    · exact start_le_of_mem_dropWhile h.sorted
  · apply pairwise_addRegion h.disjoint
    · exact fun v hv _ => hapart v hv
    · intro w hw a hboth
      exact hapart w ((List.dropWhile_sublist _).mem hw) a hboth.symm

end

/-! The search for a free range -/

section

variable {vmas : List Vma} {size current base b hint : Nat}

theorem isRangeFree_iff (h : base + size < 2 ^ 64) : isRangeFree vmas base size = true ↔
    ∀ vma ∈ vmas, vma.stop ≤ base ∨ base + size ≤ vma.start := by
  rw [isRangeFree, Nat.mod_eq_of_lt h, Bool.not_eq_true', List.any_eq_false]
  refine forall₂_congr fun vma _ => ?_
  rw [Bool.and_eq_true, decide_eq_true_iff, decide_eq_true_iff]
  omega

theorem virtAddrAdd_of_lt (h : base + size < userAddrMax) :
    virtAddrAdd base size = some (base + size) := by
  unfold userAddrMax at h
  rw [virtAddrAdd, virtAddrNew, Nat.mod_eq_of_lt (by omega), if_pos (.inl (by omega))]

theorem le_of_virtAddrAdd {stop : Nat} (h : base + size < 2 ^ 64)
    (hstop : virtAddrAdd base size = some stop) : base + size ≤ stop := by
  rw [virtAddrAdd, virtAddrNew, Nat.mod_eq_of_lt h] at hstop
  split_ifs at hstop <;> have := Option.some.inj hstop <;> omega

theorem firstGap_le (hle : current ≤ b) (hbelow : b + size < userAddrMax)
    (hfree : ∀ vma ∈ vmas, vma.stop ≤ b ∨ b + size ≤ vma.start) :
    ∃ base, firstGap size vmas current = some base ∧ base ≤ b := by
  induction vmas generalizing current with
  | nil => exact ⟨current, rfl, hle⟩
  | cons vma rest ih =>
    rw [List.forall_mem_cons] at hfree
    rw [firstGap]
    split
    · exact ih hle hfree.2
    · rw [virtAddrAdd_of_lt (by omega), Option.bind_some]
      split
      · exact ⟨current, rfl, hle⟩
      · exact ih (by omega) hfree.2

theorem firstGap_apart (hsorted : vmas.Pairwise fun v w => v.start ≤ w.start)
    (hbelow : base + size < 2 ^ 64) (h : firstGap size vmas current = some base) :
    current ≤ base ∧ ∀ vma ∈ vmas, vma.stop ≤ base ∨ base + size ≤ vma.start := by
  induction vmas generalizing current with
  | nil => exact ⟨(Option.some.inj h).le, by simp⟩
  | cons vma rest ih =>
    rw [List.pairwise_cons] at hsorted
    rw [firstGap] at h
    rw [List.forall_mem_cons]
    split at h
    · next hskip =>
      obtain ⟨hle, hrest⟩ := ih hsorted.2 h
      exact ⟨hle, .inl (hskip.trans hle), hrest⟩
    · next hover =>
      obtain ⟨stop, hstop, h⟩ := Option.bind_eq_some_iff.mp h
      split at h
      · next hgap =>
        obtain rfl := Option.some.inj h
        replace hgap := (le_of_virtAddrAdd hbelow hstop).trans hgap
        exact ⟨le_rfl, .inr hgap, fun w hw => .inr (hgap.trans (hsorted.1 w hw))⟩
      · obtain ⟨hle, hrest⟩ := ih hsorted.2 h
        exact ⟨by omega, .inl hle, hrest⟩

theorem firstGap_aligned (hcurrent : current % 4096 = 0)
    (hvmas : ∀ vma ∈ vmas, vma.stop % 4096 = 0) (h : firstGap size vmas current = some base) :
    base % 4096 = 0 := by
  induction vmas generalizing current with
  | nil => exact Option.some.inj h ▸ hcurrent
  | cons vma rest ih =>
    rw [List.forall_mem_cons] at hvmas
    rw [firstGap] at h
    split at h
    · exact ih hcurrent hvmas.2 h
    · obtain ⟨stop, -, h⟩ := Option.bind_eq_some_iff.mp h
      split at h
      · exact Option.some.inj h ▸ hcurrent
      · exact ih hvmas.1 hvmas.2 h

/-- There is a free place of whole pages for `size` bytes at `lower` or above. -/
def RoomFor (vmas : List Vma) (lower size : Nat) : Prop :=
  ∃ b, b % 4096 = 0 ∧ lower ≤ b ∧ b + size < userAddrMax ∧ isRangeFree vmas b size = true

def searchStart (hint : Nat) : Nat := if hint ≠ 0 then hint else 0x40000000

theorem findFreeRange_freePlace (h : WellLaid vmas) (hsize : size % 4096 = 0)
    (hroom : RoomFor vmas (searchStart hint) size) :
    ∃ base, findFreeRange vmas size hint = some base ∧ FreePlace vmas base size := by
  obtain ⟨b, hb, hlower, hbelow, hfree⟩ := hroom
  have hmax : userAddrMax = 2 ^ 47 := rfl
  rw [isRangeFree_iff (by omega)] at hfree
  rw [findFreeRange]
  split
  · next hhint =>
    obtain ⟨hne, haligned, hrange⟩ := hhint
    rw [searchStart, if_pos hne] at hlower
    rw [isRangeFree_iff (by omega)] at hrange
    exact ⟨hint, rfl, haligned, hsize, by omega, hrange⟩
  · have hstart : ∃ current, (if hint ≠ 0 then virtAddrAlignUp hint else some 0x40000000) =
        some current ∧ current % 4096 = 0 ∧ current ≤ b := by
      rw [searchStart] at hlower
      split_ifs at hlower ⊢ with hne
      · rw [virtAddrAlignUp]
        split_ifs with haligned hfits
        · exact ⟨hint, rfl, haligned, hlower⟩
        · refine ⟨pageStart hint + 4096, ?_, ?_, ?_⟩
          · unfold pageStart virtAddrNew
            exact if_pos (.inl (by omega))
          · unfold pageStart
            omega
          · unfold pageStart
            omega
        · unfold pageStart at hfits
          omega
      · exact ⟨_, rfl, by decide, hlower⟩
    obtain ⟨current, hcurrent, haligned, hle⟩ := hstart
    rw [hcurrent, Option.bind_some]
    obtain ⟨base, hbase, hbaseLe⟩ := firstGap_le hle hbelow hfree
    refine ⟨base, hbase, ?_, hsize, by omega, ?_⟩
    · exact firstGap_aligned haligned (fun vma hvma => (h.aligned vma hvma).2) hbase
    · exact (firstGap_apart h.sorted (by omega) hbase).2

/-- Each region holds an address, they are sorted and they do not overlap. -/
structure LaidOut (vmas : List Vma) : Prop where
  nonempty : ∀ vma ∈ vmas, vma.start < vma.stop
  sorted : vmas.Pairwise fun v w => v.start ≤ w.start
  disjoint : vmas.Pairwise fun v w => ∀ a, ¬ (v.contains a ∧ w.contains a)

/-- `size` bytes at `c` end at an address. -/
def EndsAt (size c : Nat) : Prop := c + size < 2 ^ 64 ∧ (virtAddrAdd c size).isSome

/-- No sum of the search overflows: the address it starts at is one, and `size` bytes there
or at the end of a region end at one. -/
structure SumsFit (vmas : List Vma) (size hint : Nat) : Prop where
  start : ∃ c, (if hint ≠ 0 then virtAddrAlignUp hint else some 0x40000000) = some c ∧ EndsAt size c
  stops : ∀ vma ∈ vmas, EndsAt size vma.stop

theorem firstGap_endsAt (hcurrent : EndsAt size current)
    (hstops : ∀ vma ∈ vmas, EndsAt size vma.stop) :
    ∃ base, firstGap size vmas current = some base ∧ EndsAt size base := by
  induction vmas generalizing current with
  | nil => exact ⟨current, rfl, hcurrent⟩
  | cons vma rest ih =>
    rw [List.forall_mem_cons] at hstops
    rw [firstGap]
    split
    · exact ih hcurrent hstops.2
    · obtain ⟨stop, hstop⟩ := Option.isSome_iff_exists.mp hcurrent.2
      rw [hstop, Option.bind_some]
      split
      · exact ⟨current, rfl, hcurrent⟩
      · exact ih hstops.1 hstops.2

theorem findFreeRange_endsAt (h : SumsFit vmas size hint) :
    ∃ base, findFreeRange vmas size hint = some base ∧ base + size < 2 ^ 64 := by
  obtain ⟨c, hc, hends⟩ := h.start
  rw [findFreeRange]
  split
  · next hhint =>
    rw [if_pos hhint.1, virtAddrAlignUp, if_pos hhint.2.1] at hc
    exact ⟨hint, rfl, Option.some.inj hc ▸ hends.1⟩
  · obtain ⟨base, hbase, hfits⟩ := firstGap_endsAt hends h.stops
    rw [hc]
    exact ⟨base, hbase, hfits.1⟩

theorem findFreeRange_apart (hsorted : vmas.Pairwise fun v w => v.start ≤ w.start)
    (hbelow : base + size < 2 ^ 64) (h : findFreeRange vmas size hint = some base) :
    ∀ vma ∈ vmas, vma.stop ≤ base ∨ base + size ≤ vma.start := by
  rw [findFreeRange] at h
  split at h
  · next hhint =>
    obtain rfl := Option.some.inj h
    exact (isRangeFree_iff hbelow).mp hhint.2.2
  · obtain ⟨current, -, h⟩ := Option.bind_eq_some_iff.mp h
    exact (firstGap_apart hsorted hbelow h).2

theorem LaidOut.addRegion {new : Vma} (h : LaidOut vmas) (hnew : new.start < new.stop)
    (hapart : ∀ vma ∈ vmas, vma.stop ≤ new.start ∨ new.stop ≤ vma.start) :
    LaidOut (addRegion vmas new) := by
  refine ⟨fun vma hvma => ?_, ?_, ?_⟩
  · rcases (mem_addRegion vmas new vma).mp hvma with rfl | hvma
    · exact hnew
    · exact h.nonempty vma hvma
  · exact pairwise_addRegion h.sorted (fun v _ hlt => hlt.le) (start_le_of_mem_dropWhile h.sorted)
  · apply pairwise_addRegion h.disjoint
    · exact fun v hv _ => not_contains_both (hapart v hv)
    · intro w hw a hboth
      exact not_contains_both (hapart w ((List.dropWhile_sublist _).mem hw)) a hboth.symm

/-- The search ends when none of its sums overflows, and what it finds is free and can be
added to the regions. -/
theorem findFreeRange_sound (h : LaidOut vmas) (hsize : 0 < size) : (SumsFit vmas size hint →
      ∃ base, findFreeRange vmas size hint = some base ∧ base + size < 2 ^ 64) ∧
    ∀ base, findFreeRange vmas size hint = some base → base + size < 2 ^ 64 →
      (∀ vma ∈ vmas, ∀ a, vma.contains a → ¬ (base ≤ a ∧ a < base + size)) ∧
      ∀ new : Vma, new.start = base → new.stop = base + size → LaidOut (addRegion vmas new) := by
  refine ⟨findFreeRange_endsAt, fun base hbase hbelow => ?_⟩
  have hapart := findFreeRange_apart h.sorted hbelow hbase
  constructor
  · rintro vma hvma a hin
    rw [contains, Bool.and_eq_true, decide_eq_true_iff, decide_eq_true_iff] at hin
    have := hapart vma hvma
    omega
  · rintro new rfl hstop
    exact h.addRegion (by omega) (by rwa [hstop])

/-- A page is found before the one region of a process, and one after it. -/
theorem findFreeRange_sound_region :
    let vmas : List Vma := [⟨0x40001000, 0x40002000, protToRegionFlags 3, 0, 0⟩]
    findFreeRange vmas 4096 0 = some 0x40000000 ∧
    findFreeRange vmas 4096 0x40001000 = some 0x40002000 ∧
    LaidOut (ZiqaKernel.addRegion vmas ⟨0x40002000, 0x40003000, protToRegionFlags 3, 0, 0⟩) := by
  have h : LaidOut [⟨0x40001000, 0x40002000, protToRegionFlags 3, 0, 0⟩] :=
    ⟨by decide, List.pairwise_singleton .., List.pairwise_singleton ..⟩
  have hbase : findFreeRange [⟨0x40001000, 0x40002000, protToRegionFlags 3, 0, 0⟩] 4096
      0x40001000 = some 0x40002000 := by decide +kernel
  refine ⟨by decide +kernel, hbase, ?_⟩
  exact ((findFreeRange_sound h (by decide)).2 _ hbase (by decide)).2 _ rfl rfl

end

/-! The check of a range of user memory -/

section

variable {vmas : List Vma} {addr len : Nat}

def Covered (vmas : List Vma) (addr len : Nat) : Prop :=
  ∀ a, addr ≤ a → a < addr + len → a < userAddrMax ∧ ∃ vma ∈ vmas, vma.contains a

def BorderInside (vmas : List Vma) (addr len : Nat) : Prop :=
  ∃ v ∈ vmas, ∃ w ∈ vmas, v.start < v.stop ∧ w.start < w.stop ∧ v.stop = w.start ∧
    addr < v.stop ∧ v.stop < addr + len

theorem verifyUserRegion_iff : verifyUserRegion vmas addr len = true ↔
    len ≠ 0 → addr + len ≤ userAddrMax ∧
      ∃ vma ∈ vmas, vma.start ≤ addr ∧ addr + len ≤ vma.stop := by
  have hmax : userAddrMax < 2 ^ 64 := by decide
  rw [verifyUserRegion]
  split_ifs with hlen hover hhigh
  · simp [hlen]
  · simp only [false_iff]
    intro h
    have := (h hlen).1
    omega
  · simp only [false_iff]
    intro h
    have := (h hlen).1
    omega
  · simp [hlen, not_lt.mp hhigh]

theorem covered_of_verify (h : verifyUserRegion vmas addr len = true) : Covered vmas addr len := by
  intro a hge hlt
  obtain ⟨hmax, vma, hvma, hstart, hstop⟩ := verifyUserRegion_iff.mp h (by omega)
  refine ⟨by omega, vma, hvma, ?_⟩
  rw [contains, Bool.and_eq_true, decide_eq_true_iff, decide_eq_true_iff]
  omega

variable (hdisjoint : vmas.Pairwise fun v w => ∀ a, ¬ (v.contains a ∧ w.contains a))
include hdisjoint

theorem eq_of_contains {v w : Vma} (hv : v ∈ vmas) (hw : w ∈ vmas) {a : Nat}
    (hva : v.contains a) (hwa : w.contains a) : v = w := by
  by_contra hne
  have : Std.Symm fun v w : Vma => ∀ a, ¬ (v.contains a ∧ w.contains a) :=
    ⟨fun _ _ h a hboth => h a hboth.symm⟩
  exact hdisjoint.forall hv hw hne a ⟨hva, hwa⟩

theorem verify_iff_of_covered (h : Covered vmas addr len) :
    verifyUserRegion vmas addr len = true ↔ ¬ BorderInside vmas addr len := by
  simp only [Covered, contains, Bool.and_eq_true, decide_eq_true_iff] at h
  constructor
  · rintro hverify ⟨v, hv, w, hw, hvne, hwne, hborder, hlo, hhi⟩
    obtain ⟨-, vma, hvma, hstart, hstop⟩ := verifyUserRegion_iff.mp hverify (by omega)
    -- The region that holds the range is the one before the border and the one after it.
    have hbefore : vma = v := eq_of_contains hdisjoint hvma hv (a := v.stop - 1)
      (by simp [contains]; omega) (by simp [contains]; omega)
    have hafter : vma = w := eq_of_contains hdisjoint hvma hw (a := v.stop)
      (by simp [contains]; omega) (by simp [contains]; omega)
    subst hbefore hafter
    omega
  · intro hborder
    rw [verifyUserRegion_iff]
    intro hlen
    obtain ⟨hlast, -⟩ := h (addr + len - 1) (by omega) (by omega)
    obtain ⟨-, v, hv, hstart, hstop⟩ := h addr le_rfl (by omega)
    refine ⟨by omega, v, hv, hstart, ?_⟩
    by_contra hends
    obtain ⟨-, w, hw, hwstart, hwstop⟩ := h v.stop (by omega) (by omega)
    apply hborder
    refine ⟨v, hv, w, hw, by omega, by omega, ?_, hstop, by omega⟩
    by_contra hne
    have heq : v = w := eq_of_contains hdisjoint hv hw (a := v.stop - 1)
      (by simp [contains]; omega) (by simp [contains]; omega)
    subst heq
    omega

/-- The check answers as it should exactly for the ranges that are not covered, and for
those that no border of two regions lies inside of. -/
theorem verify_exact_iff : (verifyUserRegion vmas addr len = true ↔ Covered vmas addr len) ↔
    (Covered vmas addr len → ¬ BorderInside vmas addr len) := by
  constructor
  · intro h hcovered
    exact (verify_iff_of_covered hdisjoint hcovered).mp (h.mpr hcovered)
  · intro h
    refine ⟨covered_of_verify, fun hcovered => ?_⟩
    exact (verify_iff_of_covered hdisjoint hcovered).mpr (h hcovered)

omit hdisjoint

def adjacentRegions : List Vma :=
  [⟨0x1000, 0x2000, protToRegionFlags 3, 0, 0⟩, ⟨0x2000, 0x3000, protToRegionFlags 3, 0, 0⟩]

theorem adjacentRegions_disjoint :
    adjacentRegions.Pairwise fun v w => ∀ a, ¬ (v.contains a ∧ w.contains a) := by
  simp only [adjacentRegions, List.pairwise_pair, contains, Bool.and_eq_true,
    decide_eq_true_iff]
  omega

/-- Inside the first of two regions the check is right. -/
theorem verify_exact_first :
    verifyUserRegion adjacentRegions 0x1ff0 16 = true ↔ Covered adjacentRegions 0x1ff0 16 := by
  apply (verify_exact_iff adjacentRegions_disjoint).mpr
  rintro - ⟨v, hv, w, -, -, -, -, hlo, hhi⟩
  have hend : 0x2000 ≤ v.stop := by
    revert v
    decide
  omega

/-- A range of two bytes on both sides of a border is refused. -/
theorem verify_refuses_border : LaidOut adjacentRegions ∧ Covered adjacentRegions 0x1fff 2 ∧
    verifyUserRegion adjacentRegions 0x1fff 2 = false := by
  refine ⟨⟨by decide, by decide, adjacentRegions_disjoint⟩, ?_, by decide⟩
  intro a hge hlt
  obtain rfl | rfl : a = 0x1fff ∨ a = 0x2000 := by omega
  · exact ⟨by decide, by decide⟩
  · exact ⟨by decide, by decide⟩

end

/-! Runs -/

/-- The anonymous map of a Redox process has its place: where it has to go, or somewhere
at its hint or above. -/
def AnonymousFits (map : RedoxMap) (s : LayoutState) : Prop :=
  ∀ size, alignPage map.size = some size →
    if map.flags.testBit 2 ∧ map.address ≠ 0 then
      isRangeFree s.vmas map.address size →
        map.address % 4096 = 0 ∧ map.address + size < userAddrMax
    else RoomFor s.vmas (searchStart (if map.address ≠ 0 then map.address else s.mmapBump)) size

def FramebufferFits (fb : Framebuffer) (map : RedoxMap) (s : LayoutState) : Prop :=
  FreePlace s.vmas (framebufferPlace fb map).1 (framebufferPlace fb map).2

/-- What a call needs so that its region has a place in the layout. -/
def LayoutCall.Fits : LayoutCall → LayoutState → Prop
  | .mmap permitted args, s => permitted → args.length ≠ 0 →
      args.length % 4096 = 0 ∧ RoomFor s.vmas (searchStart args.hint) args.length
  | .fmap permitted fd (.ok map) window, s =>
    if fd = 2 ^ 64 - 1 then permitted → AnonymousFits map s
    else
      match s.framebuffer, window with
      | none, _ => True
      | some fb, none => FramebufferFits fb map s
      | some fb, some (x, y) =>
        if x ≥ fb.width ∨ y ≥ fb.height then permitted → AnonymousFits map s
        else FramebufferFits fb map s
  | .fmap _ _ (.error _) _, _ => True
  | .devMap permitted phys size, s => permitted → 0x100000000 ≤ pageStart phys →
      devMapSize phys size ≤ 0x1000000 →
        FreePlace s.vmas (alignBrk s.mmapBump) (devMapSize phys size)

section

variable {s s' : LayoutState}

theorem alignPage_aligned {n : Nat} (h : alignPage n = some size) : size % 4096 = 0 := by
  unfold alignPage at h
  split_ifs at h
  exact Option.some.inj h ▸ Nat.mul_mod_left ..

theorem lt_of_roomFor {vmas : List Vma} {hint : Nat}
    (h : RoomFor vmas (searchStart hint) size) : hint < userAddrMax := by
  obtain ⟨b, -, hlower, hbelow, -⟩ := h
  unfold searchStart at hlower
  split_ifs at hlower <;> omega

theorem lt_of_fixed {vmas : List Vma} {addr : Nat} (h : WellLaid vmas)
    (hfits : isRangeFree vmas addr size → addr % 4096 = 0 ∧ addr + size < userAddrMax) :
    addr < userAddrMax := by
  by_contra hle
  have hfree : isRangeFree vmas addr size = true := by
    rw [isRangeFree, Bool.not_eq_true', List.any_eq_false]
    intro vma hvma hmeets
    rw [Bool.and_eq_true, decide_eq_true_iff, decide_eq_true_iff] at hmeets
    have := (h.below vma hvma).2
    omega
  have := (hfits hfree).2
  omega

variable {permitted : Bool}

theorem sysMmap_wellLaid [Mapper] {args : MmapArgs} (h : WellLaid s.vmas)
    (hfits : (LayoutCall.mmap permitted args).Fits s) :
    WellLaid ((LayoutCall.mmap permitted args).step s).vmas := by
  change WellLaid (((sysMmap permitted args s.vmas).map (·.2)).getD s.vmas)
  rw [sysMmap]
  split
  · exact h
  · next hpermitted =>
    split
    · exact h
    · next hlength =>
      obtain ⟨hwhole, hroom⟩ := hfits (by simpa using hpermitted) hlength
      obtain ⟨base, hbase, hplace⟩ := findFreeRange_freePlace h hwhole hroom
      rw [mmapRegion, virtAddrNew_of_lt (lt_of_roomFor hroom), Option.bind_some, hbase,
        Option.bind_some, virtAddrAdd_of_lt hplace.below]
      exact h.addRegion hplace rfl rfl

variable {reply : Except AbiError Nat}

theorem wellLaid_of_reply {answer : Except AbiError Nat}
    (hcall : some (answer, s) = some (reply, s')) (h : WellLaid s.vmas) : WellLaid s'.vmas := by
  obtain ⟨-, rfl⟩ := Prod.mk.inj (Option.some.inj hcall)
  exact h

theorem placeAnonymous_wellLaid [Mapper] {map : RedoxMap}
    (h : WellLaid s.vmas) (hplace : FreePlace s.vmas base size)
    (hcall : placeAnonymous map size base s = some (reply, s')) : WellLaid s'.vmas := by
  rw [placeAnonymous] at hcall
  obtain ⟨⟨mapped, m⟩, -, hcall⟩ := Option.bind_eq_some_iff.mp hcall
  dsimp only at hcall
  split at hcall
  · rw [virtAddrAdd_of_lt hplace.below] at hcall
    exact wellLaid_of_reply hcall (h.addRegion hplace rfl rfl)
  · exact wellLaid_of_reply hcall h

theorem mapRedoxAnonymous_wellLaid [Mapper] {map : RedoxMap}
    (h : WellLaid s.vmas) (hfits : permitted → AnonymousFits map s)
    (hcall : mapRedoxAnonymous permitted map s = some (reply, s')) : WellLaid s'.vmas := by
  rw [mapRedoxAnonymous] at hcall
  split at hcall
  · exact wellLaid_of_reply hcall h
  · next hpermitted =>
    replace hfits := hfits (by simpa using hpermitted)
    split at hcall
    · exact wellLaid_of_reply hcall h
    · next size hsize =>
      replace hfits := hfits size hsize
      obtain ⟨hint, hhint, hcall⟩ := Option.bind_eq_some_iff.mp hcall
      split at hcall
      · next hfixed =>
        rw [if_pos hfixed] at hfits
        rw [if_pos hfixed.2] at hhint
        split at hcall
        · next hfree =>
          have hlt := lt_of_fixed h hfits
          obtain rfl := Option.some.inj ((virtAddrNew_of_lt hlt).symm.trans hhint)
          obtain ⟨haligned, hbelow⟩ := hfits hfree
          have hmax : userAddrMax = 2 ^ 47 := rfl
          rw [isRangeFree_iff (by omega)] at hfree
          exact placeAnonymous_wellLaid h ⟨haligned, alignPage_aligned hsize, hbelow, hfree⟩ hcall
        · exact wellLaid_of_reply hcall h
      · next hfixed =>
        rw [if_neg hfixed] at hfits
        rw [virtAddrNew_of_lt (lt_of_roomFor hfits)] at hhint
        obtain rfl := Option.some.inj hhint
        obtain ⟨base, hbase, hplace⟩ :=
          findFreeRange_freePlace h (alignPage_aligned hsize) hfits
        rw [hbase, Option.bind_some] at hcall
        exact placeAnonymous_wellLaid h hplace hcall

theorem mapFramebuffer_wellLaid [Mapper] {fb : Framebuffer} {byteOffset : Nat} {map : RedoxMap}
    (h : WellLaid s.vmas) (hfits : FramebufferFits fb map s)
    (hcall : mapFramebuffer fb byteOffset map s = some (reply, s')) : WellLaid s'.vmas := by
  have hbelow := hfits.below
  rw [mapFramebuffer] at hcall
  dsimp only at hcall
  rw [virtAddrNew_of_lt (by omega), Option.bind_some] at hcall
  obtain ⟨⟨mapped, m⟩, -, hcall⟩ := Option.bind_eq_some_iff.mp hcall
  dsimp only at hcall
  split at hcall
  · have hstop := virtAddrAdd_of_lt hbelow
    rw [virtAddrAdd] at hstop
    rw [hstop] at hcall
    exact wellLaid_of_reply hcall (h.addRegion hfits rfl rfl)
  · exact wellLaid_of_reply hcall h

theorem handleFmap_wellLaid [Mapper] {fd : Nat} {map : Except Nat RedoxMap}
    {window : Option (Nat × Nat)} (h : WellLaid s.vmas)
    (hfits : (LayoutCall.fmap permitted fd map window).Fits s)
    (hcall : handleFmap permitted fd map window s = some (reply, s')) : WellLaid s'.vmas := by
  cases map with
  | error errno =>
    exact wellLaid_of_reply hcall h
  | ok map =>
    unfold handleFmap at hcall
    unfold LayoutCall.Fits at hfits
    dsimp only at hcall hfits
    split at hcall
    · next hfd =>
      rw [if_pos hfd] at hfits
      exact mapRedoxAnonymous_wellLaid h hfits hcall
    · next hfd =>
      rw [if_neg hfd] at hfits
      split at hcall
      · exact wellLaid_of_reply hcall h
      · next fb hfb =>
        rw [hfb] at hfits
        exact mapFramebuffer_wellLaid h hfits hcall
      · next fb x y hfb =>
        rw [hfb] at hfits
        dsimp only at hfits
        split at hcall
        · next hout =>
          rw [if_pos hout] at hfits
          exact mapRedoxAnonymous_wellLaid h hfits hcall
        · next hin =>
          rw [if_neg hin] at hfits
          exact mapFramebuffer_wellLaid h hfits hcall

theorem ziqaDevMap_wellLaid [Mapper] {phys : Nat} (h : WellLaid s.vmas)
    (hfits : (LayoutCall.devMap permitted phys size).Fits s)
    (hcall : ziqaDevMap permitted phys size s = some (reply, s')) : WellLaid s'.vmas := by
  rw [ziqaDevMap] at hcall
  split_ifs at hcall with hpermitted hphys hlarge
  · exact wellLaid_of_reply hcall h
  · exact wellLaid_of_reply hcall h
  · exact wellLaid_of_reply hcall h
  · have hplace := hfits (by simpa using hpermitted) (by omega) (by omega)
    have hbelow := hplace.below
    obtain ⟨⟨mapped, m⟩, -, hcall⟩ := Option.bind_eq_some_iff.mp hcall
    dsimp only at hcall
    split at hcall
    · rw [virtAddrNew_of_lt (by omega), Option.bind_some, virtAddrAdd_of_lt hbelow] at hcall
      exact wellLaid_of_reply hcall (h.addRegion hplace rfl rfl)
    · exact wellLaid_of_reply hcall h

theorem LayoutCall.step_wellLaid [Mapper] (call : LayoutCall) (h : WellLaid s.vmas)
    (hfits : call.Fits s) : WellLaid (call.step s).vmas := by
  have hresult : ∀ r : Option (Except AbiError Nat × LayoutState),
      (∀ reply s', r = some (reply, s') → WellLaid s'.vmas) →
        WellLaid ((r.map (·.2)).getD s).vmas := by
    rintro (_ | ⟨reply, s'⟩) hr
    · exact h
    · exact hr reply s' rfl
  cases call with
  | mmap permitted args => exact sysMmap_wellLaid h hfits
  | fmap permitted fd map window =>
    exact hresult _ fun reply s' => handleFmap_wellLaid h hfits
  | devMap permitted phys size =>
    exact hresult _ fun reply s' => ziqaDevMap_wellLaid h hfits

end

/-- From a process without regions on, a run whose calls all fit keeps the regions page
aligned, in user space, sorted and apart. -/
theorem layout_of_fits [Mapper] (s : LayoutState) (calls : List LayoutCall) (hnew : s.vmas = [])
    (h : EachStep LayoutCall.step LayoutCall.Fits calls s) :
    AlongRun LayoutCall.step (fun s => WellLaid s.vmas) calls s := by
  apply alongRun_of_eachStep (fun call s => LayoutCall.step_wellLaid call) _ h
  rw [hnew]
  exact wellLaid_nil

attribute [local instance] levelMapper

def newLayout : LayoutState where
  vmas := []
  mmapBump := 0x70000000
  root := 1
  memory := ⟨fun _ _ => .unused, fun _ => .ofFn fun _ => 0, [2, 3, 4, 5]⟩
  framebuffer := none
  physOffset := 0

/-- Two maps of a page, the second at the place that the first one took. -/
theorem layout_of_twoPages : EachStep LayoutCall.step LayoutCall.Fits
        [.mmap true ⟨0, 0x1000, 3⟩, .mmap true ⟨0x40000000, 0x1000, 3⟩] newLayout ∧
      AlongRun LayoutCall.step (fun s => WellLaid s.vmas)
        [.mmap true ⟨0, 0x1000, 3⟩, .mmap true ⟨0x40000000, 0x1000, 3⟩] newLayout := by
  have hfits : EachStep LayoutCall.step LayoutCall.Fits
      [.mmap true ⟨0, 0x1000, 3⟩, .mmap true ⟨0x40000000, 0x1000, 3⟩] newLayout := by
    refine ⟨fun _ _ => ⟨rfl, 0x40000000, rfl, le_rfl, by decide, rfl⟩, ?_, trivial⟩
    exact fun _ _ => ⟨rfl, 0x40001000, rfl, by decide, by decide, by decide +kernel⟩
  exact ⟨hfits, layout_of_fits newLayout _ rfl hfits⟩

/-- A map of one byte ends inside a page, and a device is mapped over a region that lies
at the bump pointer. -/
theorem layout_broken : ¬ WellLaid ((LayoutCall.mmap true ⟨0, 1, 3⟩).step newLayout).vmas ∧
      ((LayoutCall.devMap true 0x100000000 0x1000).step
        ((LayoutCall.mmap true ⟨0x70000000, 0x1000, 3⟩).step newLayout)).vmas.map
          (fun vma => (vma.start, vma.stop)) =
        [(0x70000000, 0x70001000), (0x70000000, 0x70001000)] := by
  refine ⟨fun h => ?_, by decide +kernel⟩
  have hstop := (h.aligned _ (List.mem_singleton_self _)).2
  exact absurd hstop (by decide +kernel)

end ZiqaKernel
