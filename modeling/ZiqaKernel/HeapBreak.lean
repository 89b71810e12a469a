/-
The heap of a process: `sys_brk` (`abi/linux/mod.rs`) with `handle_brk`
(`memory/paging.rs`), in runs in which the process also calls `sys_mmap`.
-/
import ZiqaKernel.StepRuns
import ZiqaKernel.UserMemory

namespace ZiqaKernel

def heapStart : Nat := 0x20000000

/-- `(addr + 0xFFF) & !0xFFF` on `u64`. -/
def alignBrk (addr : Nat) : Nat := pageStart ((addr + 0xfff) % 2 ^ 64)

/-- How a loop of `handle_brk` ends. -/
inductive BrkOutcome where
  | ok
  | err
  | panicked
deriving DecidableEq

def heapFlags : PageTableFlags := ⟨true, true, true, false, false, true⟩

section

variable [Mapper]

/-- One round of the loop of `handle_brk`. -/
def brkPage (root addr : Nat) (m : PhysMemory) : BrkOutcome × PhysMemory :=
  match virtAddrNew addr with
  | none => (.panicked, m)
  | some v =>
    match Mapper.translateAddr root v m.tables with
    | none => (.panicked, m)
    | some true => (.ok, m)
    | some false =>
      match m.allocateFrame with
      | none => (.err, m)
      | some (frame, m') =>
        match Mapper.mapTo root v frame heapFlags m' with
        | (.ok (), m'') => (.ok, m'')
        | (.error _, m'') => (.err, m'')

/-- The loop of `handle_brk`. -/
def brkPages (root : Nat) : List Nat → PhysMemory → BrkOutcome × PhysMemory
  | [], m => (.ok, m)
  | addr :: rest, m =>
    match brkPage root addr m with
    | (.ok, m') => brkPages root rest m'
    | (outcome, m') => (outcome, m')

/-- The pages that `handle_brk` goes through. -/
def growthPages (oldBrk newBrk : Nat) : List Nat :=
  (List.range ((pageStart newBrk - alignBrk oldBrk) / 4096)).map (alignBrk oldBrk + 4096 * ·)

/-- `handle_brk`. -/
def handleBrk (root oldBrk newBrk : Nat) (m : PhysMemory) : BrkOutcome × PhysMemory :=
  brkPages root (growthPages oldBrk newBrk) m

/-- A process as far as its heap and its regions matter: its tables are those at
`pageTableFrame`, or the active ones. -/
structure HeapState where
  vmas : List Vma
  brk : Nat
  pageTableFrame : Option Nat
  cr3 : Nat
  permitted : Bool
  memory : PhysMemory

def HeapState.root (s : HeapState) : Nat := s.pageTableFrame.getD s.cr3

/-- What has become of a call of `sys_brk`.  The process sees the break that the call
returns, which is the old one after `query` and after `refused`. -/
inductive BrkReply where
  | query (brk : Nat)
  | moved (brk : Nat)
  | refused (brk : Nat)
  | panicked

/-- `sys_brk`. -/
def sysBrk (newBrk : Nat) (s : HeapState) : BrkReply × HeapState :=
  if newBrk = 0 ∨ newBrk < heapStart then (.query s.brk, s)
  else if alignBrk newBrk > s.brk then
    match handleBrk s.root s.brk (alignBrk newBrk) s.memory with
    | (.ok, m) =>
      (.moved (alignBrk newBrk), { s with brk := alignBrk newBrk, memory := m })
    | (.err, m) => (.refused s.brk, { s with memory := m })
    | (.panicked, m) => (.panicked, { s with memory := m })
  else (.moved (alignBrk newBrk), { s with brk := alignBrk newBrk })

inductive HeapCall where
  | brk (newBrk : Nat)
  | mmap (args : MmapArgs)

/-- The state after a call; a call that panics has no effect that anyone sees. -/
def HeapCall.step : HeapCall → HeapState → HeapState
  | .brk newBrk, s => (sysBrk newBrk s).2
  | .mmap args, s => { s with
      vmas := ((sysMmap s.permitted args s.vmas).map (·.2)).getD s.vmas }

/-- The heap of a process is in order: the break lies in user space, the heap shares
no address with a region, and the process may use every byte of it. -/
structure HeapState.InOrder (s : HeapState) : Prop where
  start_le : heapStart ≤ s.brk
  lt_max : s.brk < userAddrMax
  disjoint : ∀ vma ∈ s.vmas, ∀ a, heapStart ≤ a → a < s.brk → vma.contains a = false
  usable : ∀ a, heapStart ≤ a → a < s.brk → verifyUserRegion s.vmas a 1 = true

structure HeapState.Unchanged (s s' : HeapState) : Prop where
  brk : s'.brk = s.brk
  vmas : s'.vmas = s.vmas
  mappings : ∀ v, walk s'.memory.tables v 4 s.root = walk s.memory.tables v 4 s.root

def HeapCall.Sound : HeapCall → HeapState → Prop
  | .brk newBrk, s =>
    match sysBrk newBrk s with
    | (.query _, s') => s'.InOrder
    | (.moved _, s') => s'.InOrder
    | (.refused _, s') => s.Unchanged s'
    | (.panicked, _) => True
  | .mmap args, s =>
    match sysMmap s.permitted args s.vmas with
    | some (.mapped _, _) => True
    | some (_, vmas) => s.Unchanged { s with vmas := vmas }
    | none => True

end

section

variable {s : HeapState}

/-- A byte that passes `verify_user_region` lies in a region, so a heap in order is
empty. -/
theorem HeapState.inOrder_iff : s.InOrder ↔ s.brk = heapStart := by
  constructor
  · intro h
    by_contra hne
    have hstart := h.start_le
    have hlt : heapStart < s.brk := by omega
    have husable := h.usable heapStart le_rfl hlt
    unfold verifyUserRegion at husable
    rw [if_neg one_ne_zero] at husable
    split_ifs at husable
    obtain ⟨vma, hvma, hin⟩ := List.any_eq_true.mp husable
    have hout := h.disjoint vma hvma heapStart le_rfl hlt
    simp only [Bool.and_eq_true, decide_eq_true_eq] at hin
    simp only [Vma.contains, Bool.and_eq_false_iff, decide_eq_false_iff_not] at hout
    omega
  · intro h
    refine ⟨h.ge, ?_, ?_, ?_⟩
    · rw [h]
      decide
    · intro vma _ a hle hlt
      omega
    · intro a hle hlt
      omega

theorem HeapState.Unchanged.refl (s : HeapState) : s.Unchanged s :=
  ⟨rfl, rfl, fun _ => rfl⟩

end

section

variable [Mapper]

section

variable {root : Nat} {pages : List Nat} {m : PhysMemory}

def AllMapped (root : Nat) (pages : List Nat) (m : PhysMemory) : Prop :=
  ∀ addr ∈ pages, ∀ v, virtAddrNew addr = some v → Mapper.translateAddr root v m.tables ≠ some false

theorem brkPage_memory {addr : Nat}
    (h : m.free = [] ∨ AllMapped root [addr] m) : (brkPage root addr m).2 = m := by
  unfold brkPage
  split
  · rfl
  · next v hv =>
    split
    · rfl
    · rfl
    · next hfalse =>
      rcases h with hfree | hmapped
      · have hnone : m.allocateFrame = none := by
          rw [PhysMemory.allocateFrame, hfree]
        rw [hnone]
      · exact absurd hfalse (hmapped addr List.mem_cons_self v hv)

theorem translateAddr_of_brkPage {addr v : Nat} (hfree : m.free = [])
    (hv : virtAddrNew addr = some v) (hok : (brkPage root addr m).1 = .ok) :
    Mapper.translateAddr root v m.tables ≠ some false := by
  intro hfalse
  have hnone : m.allocateFrame = none := by
    rw [PhysMemory.allocateFrame, hfree]
  simp only [brkPage, hv, hfalse, hnone] at hok
  cases hok

theorem brkPages_memory (h : m.free = [] ∨ AllMapped root pages m) :
    (brkPages root pages m).2 = m := by
  induction pages with
  | nil => rfl
  | cons addr rest ih =>
    have hfirst : (brkPage root addr m).2 = m := brkPage_memory (h.imp_right
      fun hall a ha => hall a (by simp only [List.mem_singleton] at ha; simp [ha]))
    have hrest := ih (h.imp_right fun hall a ha => hall a (List.mem_cons_of_mem addr ha))
    rw [brkPages]
    split
    · next m' hok =>
      rw [hok] at hfirst
      dsimp only at hfirst
      rw [hfirst]
      exact hrest
    · next outcome m' _ hstop =>
      rw [hstop] at hfirst
      exact hfirst

theorem allMapped_of_brkPages (hfree : m.free = [])
    (hok : (brkPages root pages m).1 = .ok) : AllMapped root pages m := by
  induction pages with
  | nil => exact fun addr haddr => absurd haddr List.not_mem_nil
  | cons addr rest ih =>
    have hfirst : (brkPage root addr m).2 = m := brkPage_memory (Or.inl hfree)
    rw [brkPages] at hok
    split at hok
    · next m' hround =>
      rw [hround] at hfirst
      dsimp only at hfirst
      rw [hfirst] at hok
      intro a ha v hv
      rcases List.mem_cons.mp ha with rfl | ha
      · exact translateAddr_of_brkPage hfree hv (by rw [hround])
      · exact ih hok a ha v hv
    · next outcome m' hne hround => exact (hne hok).elim

end

/-! Runs -/

/-- The calls that are harmless where they are made.  A query needs the break at the
start of the heap, and so does a call after it.  A growth may not map a page: either no
frame is left for it, or all pages are mapped already. -/
def HeapCall.Harmless : HeapCall → HeapState → Prop
  | .brk newBrk, s =>
    if newBrk < heapStart then s.brk = heapStart
    else if alignBrk newBrk ≤ s.brk then newBrk = heapStart
    else
      (newBrk = heapStart ∨ ¬ AllMapped s.root (growthPages s.brk (alignBrk newBrk)) s.memory) ∧
      (s.memory.free = [] ∨ AllMapped s.root (growthPages s.brk (alignBrk newBrk)) s.memory)
  | .mmap _, _ => True

variable {newBrk : Nat}

theorem sysBrk_of_lt (h : newBrk < heapStart) (s : HeapState) :
    sysBrk newBrk s = (.query s.brk, s) :=
  if_pos (Or.inr h)

theorem sysBrk_of_le {s : HeapState} (h : ¬ newBrk < heapStart)
    (hle : alignBrk newBrk ≤ s.brk) :
    sysBrk newBrk s = (.moved (alignBrk newBrk), { s with brk := alignBrk newBrk }) := by
  have hzero : ¬ (newBrk = 0 ∨ newBrk < heapStart) := by
    unfold heapStart at h ⊢
    omega
  rw [sysBrk, if_neg hzero, if_neg (Nat.not_lt.mpr hle)]

theorem sysBrk_of_growth {s : HeapState} (h : ¬ newBrk < heapStart)
    (hlt : ¬ alignBrk newBrk ≤ s.brk) :
    sysBrk newBrk s =
      match handleBrk s.root s.brk (alignBrk newBrk) s.memory with
      | (.ok, m) =>
        (.moved (alignBrk newBrk), { s with brk := alignBrk newBrk, memory := m })
      | (.err, m) => (.refused s.brk, { s with memory := m })
      | (.panicked, m) => (.panicked, { s with memory := m }) := by
  have hzero : ¬ (newBrk = 0 ∨ newBrk < heapStart) := by
    unfold heapStart at h ⊢
    omega
  rw [sysBrk, if_neg hzero, if_pos (Nat.not_le.mp hlt)]

omit [Mapper] in
theorem alignBrk_heapStart : alignBrk heapStart = heapStart := by decide

theorem HeapCall.Harmless.sound {call : HeapCall} {s : HeapState}
    (h : call.Harmless s) : call.Sound s := by
  cases call with
  | mmap args =>
    simp only [HeapCall.Sound]
    split
    · trivial
    · next reply vmas hne hreply =>
      unfold sysMmap at hreply
      split_ifs at hreply
      · obtain ⟨-, rfl⟩ := Prod.mk.inj (Option.some.inj hreply)
        exact .refl s
      · obtain ⟨-, rfl⟩ := Prod.mk.inj (Option.some.inj hreply)
        exact .refl s
      · obtain ⟨vma, -, heq⟩ := Option.map_eq_some_iff.mp hreply
        exact (hne _ (Prod.mk.inj heq).1.symm).elim
    · trivial
  | brk newBrk =>
    simp only [HeapCall.Harmless] at h
    simp only [HeapCall.Sound]
    by_cases hquery : newBrk < heapStart
    · rw [if_pos hquery] at h
      rw [sysBrk_of_lt hquery]
      exact HeapState.inOrder_iff.mpr h
    · rw [if_neg hquery] at h
      by_cases hle : alignBrk newBrk ≤ s.brk
      · rw [if_pos hle] at h
        rw [sysBrk_of_le hquery hle, h]
        exact HeapState.inOrder_iff.mpr alignBrk_heapStart
      · rw [if_neg hle] at h
        have hsame := brkPages_memory h.2
        rw [sysBrk_of_growth hquery hle, handleBrk]
        cases hrun : brkPages s.root (growthPages s.brk (alignBrk newBrk)) s.memory with
        | mk outcome m =>
          rw [hrun] at hsame
          dsimp only at hsame
          cases outcome with
          | ok =>
            have hmapped := h.2.elim (fun hfree => allMapped_of_brkPages hfree (by rw [hrun])) id
            rcases h.1 with rfl | hnot
            · exact HeapState.inOrder_iff.mpr alignBrk_heapStart
            · exact absurd hmapped hnot
          | err =>
            subst hsame
            exact ⟨rfl, rfl, fun _ => rfl⟩
          | panicked => trivial

/-- Along every run of harmless calls the heap is in order after each `sys_brk` that
succeeds, and a call that fails changes nothing. -/
theorem heap_sound_of_harmless (s : HeapState) (calls : List HeapCall)
    (h : EachStep HeapCall.step HeapCall.Harmless calls s) :
    EachStep HeapCall.step HeapCall.Sound calls s :=
  h.imp fun _ _ hharmless => hharmless.sound

end

attribute [local instance] levelMapper

def newProcess : HeapState where
  vmas := []
  brk := heapStart
  pageTableFrame := none
  cr3 := 0
  permitted := true
  memory := ⟨fun _ _ => .unused, fun _ => Image.zero, [1, 2, 3, 4]⟩

/-- A process may ask for the break and map memory. -/
theorem heap_sound_newProcess : EachStep HeapCall.step HeapCall.Harmless
      [.brk 0, .mmap ⟨0, 4096, 3⟩, .brk 0x20000000] newProcess ∧
    EachStep HeapCall.step HeapCall.Sound
      [.brk 0, .mmap ⟨0, 4096, 3⟩, .brk 0x20000000] newProcess := by
  have h : EachStep HeapCall.step HeapCall.Harmless
      [.brk 0, .mmap ⟨0, 4096, 3⟩, .brk 0x20000000] newProcess :=
    ⟨rfl, trivial, rfl, trivial⟩
  exact ⟨h, heap_sound_of_harmless _ _ h⟩

/-- The first page of heap that a process asks for is no memory that it may use. -/
theorem heap_unsound_newProcess :
    ¬ EachStep HeapCall.step HeapCall.Sound [.brk 0x20001000] newProcess := by
  rintro ⟨h, -⟩
  have hrun : ∃ m, sysBrk 0x20001000 newProcess =
      (.moved 0x20001000, { newProcess with brk := 0x20001000, memory := m }) := ⟨_, rfl⟩
  obtain ⟨m, hm⟩ := hrun
  simp only [HeapCall.Sound, hm] at h
  have hbrk : 0x20001000 = heapStart := HeapState.inOrder_iff.mp h
  exact absurd hbrk (by decide)

end ZiqaKernel
