/-
`sys_munmap` (`abi/linux/mod.rs`).  It takes the regions that lie inside the
range, with the pages that the loop of `unmap_range_pages` visits; a region that
only meets the range is kept whole.
-/
import ZiqaKernel.AddressSpace

namespace ZiqaKernel

def VmaRecord.Inside (vma : VmaRecord) (start stop : Nat) : Bool :=
  start ≤ vma.start && vma.stop ≤ stop

namespace AddressSpace

section

variable [Mapper] [Mapper.UnmapsPages]

/-- The calls of `unmap_range_pages` from `sys_munmap`, for the regions inside the
range. -/
def unmapInside (start stop : Nat) : List VmaRecord → AddressSpace → Option AddressSpace
  | [], s => some s
  | vma :: rest, s =>
    if vma.Inside start stop then
      (s.unmapRangePages vma.start vma.stop).bind (unmapInside start stop rest)
    else unmapInside start stop rest s

def retain (s : AddressSpace) (keep : VmaRecord → Bool) : AddressSpace :=
  { s with
    vmas := s.vmas.filter keep
    ends := fun vma hvma => s.ends vma (List.mem_of_mem_filter hvma) }

/-- `end_addr` of `sys_munmap`, on `u64`. -/
def munmapEnd (addr len : Nat) : Nat :=
  max (pageStart ((addr + len + 0xfff) % 2 ^ 64)) ((pageStart addr + 0x1000) % 2 ^ 64)

/-- `sys_munmap`. -/
def sysMunmap (s : AddressSpace) (addr len : Nat) : Option (Nat × AddressSpace) :=
  let start := pageStart addr
  let stop := munmapEnd addr len
  if start ≥ stop ∨ len = 0 then some (2 ^ 64 - 22, s)
  else (unmapInside start stop s.vmas s).map fun s' =>
    (0, s'.retain fun vma => !vma.Inside start stop)

end

variable {s s' : AddressSpace} {start stop : Nat}

def visited (start stop : Nat) (l : List VmaRecord) : List Nat :=
  (l.filter fun vma => vma.Inside start stop).flatMap fun vma => stepPages vma.start vma.stop

variable {l : List VmaRecord}

theorem mem_visited {p : Nat} : p ∈ visited start stop l ↔
    ∃ vma ∈ l, vma.Inside start stop ∧ p ∈ stepPages vma.start vma.stop := by
  simp [visited, and_assoc]

theorem edited_unmapInside [Mapper] [Mapper.FindsPages] [Mapper.UnmapsPages]
    (hends : ∀ vma ∈ l, Canonical vma.stop)
    (h : unmapInside start stop l s = some s') :
    Edited cleared s s' (visited start stop l) ∧ ∀ p ∈ visited start stop l, Canonical p := by
  induction l generalizing s with
  | nil =>
    obtain rfl := Option.some.inj h
    exact ⟨.self (by simp [visited]), by simp [visited]⟩
  | cons vma rest ih =>
    rw [List.forall_mem_cons] at hends
    rw [unmapInside] at h
    rw [visited, List.filter_cons]
    split at h
    · next hinside =>
      obtain ⟨s₁, hfirst, hrest⟩ := Option.bind_eq_some_iff.mp h
      obtain ⟨hpages, hcan⟩ := ih hends.2 hrest
      obtain ⟨hpages₁, haddrs⟩ := edited_callRange settles_cleared hfirst
      rw [if_pos hinside, List.flatMap_cons]
      refine ⟨hpages₁.trans settles_cleared hpages, List.forall_mem_append.mpr ⟨?_, hcan⟩⟩
      exact fun p => canonical_of_mem_stepPages hends.1 haddrs
    · next hinside =>
      rw [if_neg hinside]
      exact ih hends.2 h

/-! What the call leaves -/

/-- `s'` is `s` without the range. -/
structure Removes (s s' : AddressSpace) (start stop : Nat) : Prop where
  uncovered : ∀ a, start ≤ a → a < stop → s'.coverAt a = none
  unmapped : ∀ a, Canonical a → start ≤ a → a < stop → s'.leafAt a = none
  cover : ∀ a, ¬ (start ≤ a ∧ a < stop) → s'.coverAt a = s.coverAt a
  leaf : ∀ a, Canonical a → ¬ (start ≤ a ∧ a < stop) → s'.leafAt a = s.leafAt a

/-- The regions that meet the range up to `stop` lie inside the one up to `taken`, and
what is mapped there are 4 KiB pages that hold a page step of such a region. -/
structure WholeRegions (s : AddressSpace) (start stop taken : Nat) : Prop where
  regions : ∀ vma ∈ s.vmas, ∀ a, start ≤ a → a < stop → vma.contains a → vma.Inside start taken
  pages : ∀ a, Canonical a → start ≤ a → a < stop → (s.leafAt a).isSome → s.Small a ∧
    ∃ vma ∈ s.vmas, vma.Inside start taken ∧ ∃ p ∈ stepPages vma.start vma.stop, SamePage p a

theorem coverAt_eq_none_iff {a : Nat} : s.coverAt a = none ↔ ∀ vma ∈ s.vmas, ¬ vma.contains a := by
  rw [coverAt, Option.map_eq_none_iff, regionAt, List.find?_eq_none]

theorem find?_contains_filter {keep : VmaRecord → Bool} {a : Nat}
    (h : ∀ vma ∈ l, vma.contains a → keep vma) :
    (l.filter keep).find? (·.contains a) = l.find? (·.contains a) := by
  rw [List.find?_filter]
  induction l with
  | nil => rfl
  | cons vma rest ih =>
    rw [List.forall_mem_cons] at h
    rw [List.find?_cons, List.find?_cons, ih h.2]
    by_cases hcontains : vma.contains a = true
    · simp [h.1 hcontains, hcontains]
    · simp [hcontains]

theorem munmapEnd_le {addr len : Nat} (haddr : addr % 4096 = 0) (hlen : 0 < len)
    (hfits : addr + len < 2 ^ 64) : munmapEnd addr len ≤ pageStart (addr + len + 0xfff) := by
  unfold munmapEnd pageStart
  omega

theorem sysMunmap_zero [Mapper] [Mapper.UnmapsPages] {addr len : Nat} (haddr : addr % 4096 = 0)
    (h : sysMunmap s addr len = some (0, s')) :
    ∃ s₁, unmapInside addr (munmapEnd addr len) s.vmas s = some s₁ ∧
      s' = s₁.retain fun vma => !vma.Inside addr (munmapEnd addr len) := by
  have hstart : pageStart addr = addr := by rw [pageStart]; omega
  rw [sysMunmap, hstart] at h
  split at h
  · cases h
  · obtain ⟨s₁, hs₁, heq⟩ := Option.map_eq_some_iff.mp h
    exact ⟨s₁, hs₁, (Prod.mk.inj heq).2.symm⟩

section

variable {s₁ : AddressSpace} {taken : Nat}
  (hunmapped : Edited cleared s s₁ (visited start taken s.vmas))
include hunmapped

theorem mapped_of_leafAt_ne {a : Nat} (h : s₁.leafAt a ≠ s.leafAt a) :
    s.Small a ∧ ∃ vma ∈ s.vmas, vma.Inside start taken ∧
      ∃ p ∈ stepPages vma.start vma.stop, SamePage p a := by
  by_contra hkept
  apply h
  apply Kept.leaf
  apply hunmapped.kept
  rw [← not_small_iff]
  by_cases hsmall : s.Small a
  · refine .inl fun p hp hpage => hkept ⟨hsmall, ?_⟩
    obtain ⟨vma, hvma, hin, hp⟩ := mem_visited.mp hp
    exact ⟨vma, hvma, hin, p, hp, hpage⟩
  · exact .inr hsmall

theorem leafAt_outside {a : Nat} (hcan : ∀ p ∈ visited start taken s.vmas, Canonical p)
    (hstart : start % 4096 = 0) (hstop : stop % 4096 = 0) (htaken : taken ≤ stop)
    (ha : Canonical a) (hout : ¬ (start ≤ a ∧ a < stop)) : s₁.leafAt a = s.leafAt a := by
  apply Kept.leaf
  apply hunmapped.kept
  refine .inl fun p hp hpage => hout ?_
  have hsame := hpage.page_eq (hcan p hp) ha
  obtain ⟨vma, -, hin, hp⟩ := mem_visited.mp hp
  obtain ⟨hle, hlt, -⟩ := mem_stepPages.mp hp
  rw [VmaRecord.Inside, Bool.and_eq_true, decide_eq_true_iff, decide_eq_true_iff] at hin
  omega

end

/-- `sys_munmap` removes exactly its range where the regions that meet the range lie
inside it and hold the pages that are mapped there. -/
theorem munmap_exact_iff [Mapper] [Mapper.FindsPages] [Mapper.UnmapsPages]
    (s s' : AddressSpace) (addr len : Nat) (haddr : addr % 4096 = 0) (hlen : 0 < len) (hfits : addr + len < 2 ^ 64)
    (h : sysMunmap s addr len = some (0, s')) :
    Removes s s' addr (pageStart (addr + len + 0xfff)) ↔
      WholeRegions s addr (pageStart (addr + len + 0xfff)) (munmapEnd addr len) := by
  obtain ⟨s₁, hs₁, rfl⟩ := sysMunmap_zero haddr h
  obtain ⟨hunmapped, hcan⟩ := edited_unmapInside (fun vma hvma => (s.ends vma hvma).2) hs₁
  have hstop : pageStart (addr + len + 0xfff) % 4096 = 0 := Nat.mul_mod_left ..
  have htaken := munmapEnd_le haddr hlen hfits
  generalize pageStart (addr + len + 0xfff) = stop at *
  generalize munmapEnd addr len = taken at *
  have hleaf : ∀ a, (s₁.retain fun vma => !vma.Inside addr taken).leafAt a = s₁.leafAt a :=
    fun a => rfl
  have hvmas : (s₁.retain fun vma => !vma.Inside addr taken).vmas =
      s.vmas.filter fun vma => !vma.Inside addr taken :=
    congrArg (List.filter _) hunmapped.vmas
  constructor
  · intro hrem
    refine ⟨fun vma hvma a hle hlt hcontains => ?_, fun a ha hle hlt hmapped => ?_⟩
    · by_contra hin
      refine coverAt_eq_none_iff.mp (hrem.uncovered a hle hlt) vma ?_ hcontains
      rw [hvmas]
      exact List.mem_filter.mpr ⟨hvma, by simpa using hin⟩
    · apply mapped_of_leafAt_ne hunmapped
      intro hsame
      rw [← hsame, ← hleaf, hrem.unmapped a ha hle hlt] at hmapped
      cases hmapped
  · rintro ⟨hregions, hpages⟩
    refine ⟨fun a hle hlt => ?_, fun a ha hle hlt => ?_, fun a hout => ?_, fun a ha hout => ?_⟩
    · rw [coverAt_eq_none_iff, hvmas]
      intro vma hvma hcontains
      obtain ⟨hvma, hin⟩ := List.mem_filter.mp hvma
      rw [hregions vma hvma a hle hlt hcontains] at hin
      cases hin
    · rw [hleaf]
      by_cases hmapped : (s.leafAt a).isSome = true
      · obtain ⟨hsmall, vma, hvma, hin, p, hp, hpage⟩ := hpages a ha hle hlt hmapped
        exact (hunmapped.leafAt_unmapped hsmall ⟨p, mem_visited.mpr ⟨vma, hvma, hin, hp⟩, hpage⟩).1
      · by_contra hne
        have hgone : s₁.leafAt a ≠ s.leafAt a := by
          rwa [Option.not_isSome_iff_eq_none.mp hmapped]
        obtain ⟨hsmall, vma, hvma, hin, p, hp, hpage⟩ := mapped_of_leafAt_ne hunmapped hgone
        exact hne (hunmapped.leafAt_unmapped hsmall
          ⟨p, mem_visited.mpr ⟨vma, hvma, hin, hp⟩, hpage⟩).1
    · rw [coverAt, coverAt, regionAt, regionAt, hvmas, find?_contains_filter]
      intro vma hvma hcontains
      rw [Bool.not_eq_true', Bool.eq_false_iff]
      intro hin
      apply hout
      rw [VmaRecord.Inside, Bool.and_eq_true, decide_eq_true_iff, decide_eq_true_iff] at hin
      rw [Vma.contains, Bool.and_eq_true, decide_eq_true_iff, decide_eq_true_iff] at hcontains
      omega
    · rw [hleaf, leafAt_outside hunmapped hcan haddr hstop htaken ha hout]

attribute [local instance] levelMapper

/-- A region of one page that is mapped goes with its page. -/
theorem munmap_exact_onePage :
    ∃ s', sysMunmap (onePage [anonymousRegion 1] (by decide)) 0x1000 8 = some (0, s') ∧
      (s'.vmas = [] ∧ s'.leafAt 0x1000 = none) ∧
      Removes (onePage [anonymousRegion 1] (by decide)) s' 0x1000 0x2000 := by
  refine ⟨_, rfl, ⟨rfl, rfl⟩, (munmap_exact_iff _ _ 0x1000 8 (by decide) (by decide)
    (by decide) rfl).mpr ⟨?_, fun a _ hle hlt _ => ?_⟩⟩
  · intro vma hvma a _ _ _
    rw [List.mem_singleton.mp hvma]
    rfl
  · have hpage : SamePage 0x1000 a := by
      have hlt' : a < 0x2000 := hlt
      unfold SamePage
      omega
    refine ⟨Small.congr ⟨_, rfl, rfl⟩ hpage, _, List.mem_singleton_self _, rfl, 0x1000, ?_, hpage⟩
    exact mem_stepPages.mpr (by decide)

/-- A region of two pages of which the first is unmapped stays whole, and so does its
page. -/
theorem munmap_keeps_straddling :
    ∃ s', sysMunmap (onePage [anonymousRegion 2] (by decide)) 0x1000 0x1000 = some (0, s') ∧
      (s'.coverAt 0x1000).isSome ∧ (s'.leafAt 0x1000).isSome := by
  exact ⟨_, rfl, rfl, rfl⟩

end AddressSpace

end ZiqaKernel
