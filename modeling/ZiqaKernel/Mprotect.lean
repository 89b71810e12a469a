/-
`sys_mprotect` (`abi/linux/mod.rs`).  It gives the new protection to the first
region that meets the range, as a whole, and to the pages that this region has in
the range.  Taking all rights away is done by unmapping the pages.
-/
import ZiqaKernel.AddressSpace

namespace ZiqaKernel

/-- The page may be used as `prot` asks for.  `PROT_NONE` is zero; a page that may be
written or executed can be read on this processor. -/
def Granted (prot : Nat) : Option Rights → Prop
  | none => True
  | some rights =>
    if prot = 0 then rights.user = false
    else rights = ⟨true, prot.testBit 1, prot.testBit 2⟩

/-- The region with the protection `prot`. -/
def VmaRecord.protect (vma : VmaRecord) (prot : Nat) : VmaRecord :=
  { vma with
    flags := protToRegionFlags prot
    readable := prot.testBit 0 }

/-- The region says that it may be used as `prot` asks for. -/
def VmaRecord.HasProtection (vma : VmaRecord) (prot : Nat) : Prop :=
  vma.readable = prot.testBit 0 ∧ vma.flags.writable = prot.testBit 1 ∧
    vma.flags.executable = prot.testBit 2

def VmaRecord.meets (vma : VmaRecord) (start stop : Nat) : Bool :=
  start < vma.stop && stop > vma.start

/-- The regions after the first one that meets the range has got its protection. -/
def protectFirst (start stop prot : Nat) : List VmaRecord → List VmaRecord
  | [] => []
  | vma :: rest =>
    if vma.meets start stop then vma.protect prot :: rest
    else vma :: protectFirst start stop prot rest

theorem protectFirst_ends {start stop prot : Nat} {l : List VmaRecord} {P : Nat → Nat → Prop}
    (h : ∀ vma ∈ l, P vma.start vma.stop) :
    ∀ vma ∈ protectFirst start stop prot l, P vma.start vma.stop := by
  induction l with
  | nil => exact h
  | cons vma rest ih =>
    rw [List.forall_mem_cons] at h
    rw [protectFirst]
    split
    · rw [List.forall_mem_cons]
      exact ⟨h.1, h.2⟩
    · rw [List.forall_mem_cons]
      exact ⟨h.1, ih h.2⟩

def RegionsSorted (l : List VmaRecord) : Prop := l.Pairwise fun v w => v.stop ≤ w.start

variable {a : Nat}

theorem not_contains_of_le {v w : VmaRecord} (h : v.stop ≤ w.start)
    (ha : w.contains a = true) : v.contains a = false := by
  rw [Vma.contains, Bool.and_eq_true, decide_eq_true_iff, decide_eq_true_iff] at ha
  rw [Vma.contains, Bool.and_eq_false_iff, decide_eq_false_iff_not, decide_eq_false_iff_not]
  omega

theorem find?_contains_of_mem {l : List VmaRecord} {vma : VmaRecord}
    (hsorted : RegionsSorted l) (hvma : vma ∈ l) (ha : vma.contains a = true) :
    l.find? (·.contains a) = some vma := by
  induction l with
  | nil => cases hvma
  | cons head rest ih =>
    rw [RegionsSorted, List.pairwise_cons] at hsorted
    rw [List.find?_cons]
    rcases List.mem_cons.mp hvma with rfl | hvma
    · rw [ha]
    · rw [not_contains_of_le (hsorted.1 vma hvma) ha]
      exact ih hsorted.2 hvma

/-- In sorted regions an address of the first region that meets the range is found there,
with its new protection; the others are found as before. -/
theorem find?_protectFirst {start stop prot : Nat} {l : List VmaRecord} {first : VmaRecord}
    (hsorted : RegionsSorted l) (h : l.find? (·.meets start stop) = some first) :
    (protectFirst start stop prot l).find? (·.contains a) =
      if first.contains a then some (first.protect prot) else l.find? (·.contains a) := by
  induction l with
  | nil => cases h
  | cons vma rest ih =>
    rw [RegionsSorted, List.pairwise_cons] at hsorted
    rw [protectFirst]
    by_cases hmeets : vma.meets start stop = true
    · rw [List.find?_cons, hmeets] at h
      obtain rfl := Option.some.inj h
      rw [if_pos hmeets, List.find?_cons, List.find?_cons]
      have hsame : (vma.protect prot).contains a = vma.contains a := rfl
      rw [hsame]
      by_cases hcontains : vma.contains a = true
      · rw [hcontains, if_pos rfl]
      · rw [Bool.eq_false_of_not_eq_true hcontains]
        rfl
    · rw [List.find?_cons, Bool.eq_false_of_not_eq_true hmeets] at h
      rw [if_neg hmeets, List.find?_cons, List.find?_cons, ih hsorted.2 h]
      by_cases hcontains : vma.contains a = true
      · -- the first region that meets the range lies behind this one
        have hbehind := hsorted.1 first (List.mem_of_find?_eq_some h)
        have hout : ¬ first.contains a = true := by
          intro hfirst
          rw [not_contains_of_le hbehind hfirst] at hcontains
          cases hcontains
        rw [hcontains, if_neg hout, if_neg hout]
      · rw [Bool.eq_false_of_not_eq_true hcontains]

namespace AddressSpace

def protectRegion (s : AddressSpace) (start stop prot : Nat) : AddressSpace :=
  { s with
    vmas := protectFirst start stop prot s.vmas
    ends := protectFirst_ends (P := fun a b => Canonical a ∧ Canonical b) s.ends }

/-- `end_addr` of `sys_mprotect`, on `u64`. -/
def mprotectEnd (addr len : Nat) : Nat :=
  let rangeEnd := (addr + len) % 2 ^ 64
  if rangeEnd = 0 then 0xfffffffffffff000 else pageStart ((rangeEnd + 0xfff) % 2 ^ 64)

/-- `sys_mprotect`. -/
def sysMprotect [Mapper] [Mapper.UnmapsPages] [Mapper.UpdatesFlags] (s : AddressSpace) (addr len prot : Nat) : Option (Nat × AddressSpace) :=
  let start := pageStart addr
  let stop := mprotectEnd addr len
  if start ≥ stop ∨ len = 0 then some (2 ^ 64 - 22, s)
  else
    match s.vmas.find? (·.meets start stop) with
    | none => some (2 ^ 64 - 14, s)
    | some vma =>
      let s' := s.protectRegion start stop prot
      let updateStart := max start vma.start
      let updateEnd := min stop vma.stop
      (if prot = 0 then s'.unmapRangePages updateStart updateEnd
      else s'.updateRangePageFlags updateStart updateEnd
        (regionFlagsToPageFlags (protToRegionFlags prot))).map fun s'' => (0, s'')

def protectEntry (prot : Nat) : PageTableEntry → PageTableEntry :=
  if prot = 0 then cleared else withFlags (regionFlagsToPageFlags (protToRegionFlags prot))

variable {s s' : AddressSpace} {addr len prot : Nat}

structure Contents where
  pages : Nat → Image 4096
  binary : List UInt8

def Contents.demandByte (c : Contents) (vma : VmaRecord) (a : Nat) : UInt8 :=
  ((binaryPage ⟨false, none, [], c.binary⟩ vma.toVma (pageStart a)).getD []).getD (a % 4096) 0

/-- The byte that a use of an address finds which the protection allows: the one in memory
or the one that demand paging brings.  An entry in use that is not present ends the
process. -/
def seenAt (s : AddressSpace) (c : Contents) (a : Nat) : Option UInt8 :=
  match s.leafAt a with
  | some l => some ((c.pages (l.phys / 4096)).get (l.phys % 4096))
  | none =>
    if (pageEntry s.tables a s.root).isNone then (s.regionAt a).map (c.demandByte · a)
    else none

/-- `s'` is `s` with the protection of the range changed, and nothing else. -/
structure Protects (c : Contents) (s s' : AddressSpace) (start stop prot : Nat) : Prop where
  regions : ∀ a, start ≤ a → a < stop → ∃ vma, s'.regionAt a = some vma ∧ vma.HasProtection prot
  rights : ∀ a, start ≤ a → a < stop → Granted prot (s'.rightsAt a)
  otherRegions : ∀ a, Canonical a → ¬ (start ≤ a ∧ a < stop) → s'.coverAt a = s.coverAt a
  otherRights : ∀ a, Canonical a → ¬ (start ≤ a ∧ a < stop) → s'.rightsAt a = s.rightsAt a
  contents : ∀ a, Canonical a → ∀ b, s.seenAt c a = some b → s'.seenAt c a = some b

/-- What the loop of the call visits: a page with a page step of the first region in the
range. -/
def Visited (first : VmaRecord) (start stop a : Nat) : Prop :=
  ∃ p ∈ stepPages (max start first.start) (min stop first.stop), SamePage p a

/-- The call can do what it is asked for with the first region that meets the range. -/
structure OneRegion (c : Contents) (s : AddressSpace) (start stop prot : Nat)
    (first : VmaRecord) : Prop where
  /-- The other regions of the range have the protection. -/
  others : ∀ a vma, start ≤ a → a < stop → ¬ first.contains a → s.regionAt a = some vma →
    vma.HasProtection prot
  /-- The region lies in the range, or has the protection. -/
  outside : ∀ a, Canonical a → ¬ (start ≤ a ∧ a < stop) → first.contains a →
    first.readable = prot.testBit 0 ∧ first.flags = protToRegionFlags prot
  /-- The tables above the pages that are visited allow what is asked for. -/
  above : prot ≠ 0 → ∀ a r, start ≤ a → a < stop → Visited first start stop a →
    s.routeAt a = some r → s.tables r.frame r.index ≠ .unused →
      r.user = true ∧ (prot.testBit 1 → r.writable) ∧ (prot.testBit 2 → r.executable)
  /-- What is mapped otherwise has the rights. -/
  missed : ∀ a, start ≤ a → a < stop →
    ¬ (Visited first start stop a ∧ if prot = 0 then s.Small a else (s.routeAt a).isSome) →
      Granted prot (s.rightsAt a)
  /-- What is unmapped is what demand paging brings again. -/
  bytes : prot = 0 → ∀ a l vma, start ≤ a → a < stop → Visited first start stop a →
    s.Small a → s.leafAt a = some l → s.regionAt a = some vma →
      (c.pages (l.phys / 4096)).get (l.phys % 4096) = c.demandByte vma a

section

variable {first : VmaRecord} {c : Contents} {start stop : Nat}

theorem sysMprotect_zero [Mapper] [Mapper.FindsPages] [Mapper.UnmapsPages] [Mapper.UpdatesFlags]
    (haddr : addr % 4096 = 0) (hlen : len % 4096 = 0)
    (hcovered : ∀ a, addr ≤ a → a < addr + len → ∃ vma ∈ s.vmas, vma.contains a)
    (h : sysMprotect s addr len prot = some (0, s')) :
    ∃ first, s.vmas.find? (·.meets addr (addr + len)) = some first ∧
      Edited (protectEntry prot) (s.protectRegion addr (addr + len) prot) s'
        (stepPages (max addr first.start) (min (addr + len) first.stop)) := by
  rw [sysMprotect] at h
  dsimp only at h
  split at h
  · cases h
  · next hvalid =>
    -- the last address of the range lies below the end of a region
    obtain ⟨vma, hvma, hlast⟩ := hcovered (addr + len - 1) (by omega) (by omega)
    have hend : addr + len < 2 ^ 64 := by
      have hstop := (s.ends vma hvma).2
      rw [Vma.contains, Bool.and_eq_true, decide_eq_true_iff, decide_eq_true_iff] at hlast
      unfold Canonical at hstop
      omega
    have hstart : pageStart addr = addr := by
      unfold pageStart
      omega
    have hrange : mprotectEnd addr len = addr + len := by
      unfold mprotectEnd pageStart
      rw [Nat.mod_eq_of_lt hend, if_neg (by omega)]
      omega
    rw [hstart, hrange] at h
    split at h
    · cases h
    · next first hfirst =>
      obtain ⟨s₁, hs₁, heq⟩ := Option.map_eq_some_iff.mp h
      obtain rfl := (Prod.mk.inj heq).2
      refine ⟨first, hfirst, ?_⟩
      rw [protectEntry]
      split at hs₁
      · next hprot =>
        rw [if_pos hprot]
        exact (edited_callRange settles_cleared hs₁).1
      · next hprot =>
        rw [if_neg hprot]
        exact (edited_callRange (settles_withFlags rfl) hs₁).1

variable (hsorted : RegionsSorted s.vmas) (hfirst : s.vmas.find? (·.meets start stop) = some first)

include hsorted hfirst in
theorem regionAt_first (ha : first.contains a = true) : s.regionAt a = some first :=
  find?_contains_of_mem hsorted (List.mem_of_find?_eq_some hfirst) ha

variable (hedited : Edited (protectEntry prot) (s.protectRegion start stop prot) s'
    (stepPages (max start first.start) (min stop first.stop)))

section

include hsorted hfirst hedited

theorem regionAt_protected (a : Nat) : s'.regionAt a =
    if first.contains a then some (first.protect prot) else s.regionAt a := by
  rw [regionAt, hedited.vmas]
  exact find?_protectFirst hsorted hfirst

theorem regions_iff (hcovered : ∀ a, start ≤ a → a < stop → (s.regionAt a).isSome) :
    (∀ a, start ≤ a → a < stop → ∃ vma, s'.regionAt a = some vma ∧ vma.HasProtection prot) ↔
      ∀ a vma, start ≤ a → a < stop → ¬ first.contains a → s.regionAt a = some vma →
        vma.HasProtection prot := by
  constructor
  · intro h a vma hle hlt hother hvma
    obtain ⟨vma', hvma', hprot⟩ := h a hle hlt
    rw [regionAt_protected hsorted hfirst hedited, if_neg hother, hvma] at hvma'
    exact Option.some.inj hvma' ▸ hprot
  · intro h a hle hlt
    rw [regionAt_protected hsorted hfirst hedited]
    by_cases hin : first.contains a = true
    · exact ⟨_, if_pos hin, rfl, rfl, rfl⟩
    · obtain ⟨vma, hvma⟩ := Option.isSome_iff_exists.mp (hcovered a hle hlt)
      exact ⟨vma, by rw [if_neg hin, hvma], h a vma hle hlt hin hvma⟩

theorem coverAt_eq_iff (a : Nat) : s'.coverAt a = s.coverAt a ↔
    (first.contains a → first.readable = prot.testBit 0 ∧
      first.flags = protToRegionFlags prot) := by
  rw [coverAt, coverAt, regionAt_protected hsorted hfirst hedited]
  by_cases hin : first.contains a = true
  · rw [if_pos hin, regionAt_first hsorted hfirst hin, Option.map_some, Option.map_some,
      Option.some.injEq, Prod.mk.injEq, Prod.mk.injEq]
    constructor
    · rintro ⟨hreadable, hflags, -⟩ -
      exact ⟨hreadable.symm, hflags.symm⟩
    · intro h
      exact ⟨(h hin).1.symm, (h hin).2.symm, rfl⟩
  · rw [if_neg hin]
    exact ⟨fun _ h => absurd h hin, fun _ => rfl⟩

end

theorem inside_of_visited (hstart : start % 4096 = 0) (hstop : stop % 4096 = 0)
    (hrange : ∀ p, start ≤ p → p < stop → Canonical p) (ha : Canonical a)
    (h : Visited first start stop a) : start ≤ a ∧ a < stop := by
  obtain ⟨p, hp, hpage⟩ := h
  obtain ⟨hle, hlt, -⟩ := mem_stepPages.mp hp
  have hsame := hpage.page_eq (hrange p (by omega) (by omega)) ha
  omega

section

include hedited

theorem kept_of_not_changed (h : ¬ (Visited first start stop a ∧
      if prot = 0 then s.Small a else (s.routeAt a).isSome)) : Kept s s' a := by
  have hkept : Kept (s.protectRegion start stop prot) s' a := by
    apply hedited.kept
    by_cases hvisited : Visited first start stop a
    · refine .inr fun e he => ?_
      have hmiss : ¬ (if prot = 0 then s.Small a else (s.routeAt a).isSome) :=
        fun hcond => h ⟨hvisited, hcond⟩
      rw [protectEntry]
      split
      · next hprot =>
        rw [if_pos hprot] at hmiss
        exact not_small_iff.mp hmiss e he
      · next hprot =>
        obtain ⟨r, hr, -⟩ := entryAt_eq_some_iff.mp he
        rw [if_neg hprot, show s.routeAt a = some r from hr] at hmiss
        exact absurd rfl hmiss
    · exact .inl fun p hp hpage => hvisited ⟨p, hp, hpage⟩
  exact ⟨hkept.leaf, hkept.rights, hkept.entry⟩

theorem entry_of_visited {r : Route} (hvisited : Visited first start stop a)
    (hr : s.routeAt a = some r) : s'.routeAt a = some r ∧
      s'.tables r.frame r.index = protectEntry prot (s.tables r.frame r.index) :=
  hedited.entry_of_hit hvisited hr

theorem rightsAt_updated {r : Route} (hprot : prot ≠ 0)
    (hvisited : Visited first start stop a) (hr : s.routeAt a = some r) :
    s'.rightsAt a = if s.tables r.frame r.index = .unused then none
      else some ⟨r.user, r.writable && prot.testBit 1, r.executable && prot.testBit 2⟩ := by
  obtain ⟨hr', he'⟩ := entry_of_visited hedited hvisited hr
  rw [rightsAt_of_route hr' he', protectEntry, if_neg hprot, withFlags]
  by_cases hunused : s.tables r.frame r.index = .unused
  · rw [hunused]
    rfl
  · simp [hunused, Route.rights, regionFlagsToPageFlags, protToRegionFlags]

theorem granted_iff : Granted prot (s'.rightsAt a) ↔
    (prot ≠ 0 → ∀ r, Visited first start stop a → s.routeAt a = some r →
      s.tables r.frame r.index ≠ .unused →
        r.user = true ∧ (prot.testBit 1 → r.writable) ∧ (prot.testBit 2 → r.executable)) ∧
    (¬ (Visited first start stop a ∧ if prot = 0 then s.Small a else (s.routeAt a).isSome) →
      Granted prot (s.rightsAt a)) := by
  by_cases hchanged : Visited first start stop a ∧
      if prot = 0 then s.Small a else (s.routeAt a).isSome
  · obtain ⟨hvisited, hcond⟩ := hchanged
    by_cases hprot : prot = 0
    · rw [if_pos hprot] at hcond
      subst hprot
      rw [rightsAt, (Edited.leafAt_unmapped hedited hcond hvisited).1]
      simp [Granted, hvisited, hcond]
    · rw [if_neg hprot] at hcond
      obtain ⟨r, hr⟩ := Option.isSome_iff_exists.mp hcond
      rw [rightsAt_updated hedited hprot hvisited hr, hr]
      by_cases hunused : s.tables r.frame r.index = .unused
      · simp [hunused, hvisited, hprot, Granted]
      · simp only [hunused, ↓reduceIte, Granted, hprot, Rights.mk.injEq, Bool.and_eq_right_iff_imp]
        simp [hvisited, hprot, hunused]
  · rw [(kept_of_not_changed hedited hchanged).rights]
    refine ⟨fun h => ⟨fun hprot r hvisited hr => ?_, fun _ => h⟩, fun h => h.2 hchanged⟩
    rw [if_neg hprot, hr] at hchanged
    exact absurd ⟨hvisited, rfl⟩ hchanged

end

section

include hsorted hfirst hedited

theorem demandByte_protected (a : Nat) :
    (s'.regionAt a).map (c.demandByte · a) = (s.regionAt a).map (c.demandByte · a) := by
  rw [regionAt_protected hsorted hfirst hedited]
  split
  · next hin =>
    rw [regionAt_first hsorted hfirst hin]
    rfl
  · rfl

theorem seenAt_of_kept (hkept : Kept s s' a) : s'.seenAt c a = s.seenAt c a := by
  rw [seenAt, seenAt, hkept.leaf, hkept.entry, demandByte_protected hsorted hfirst hedited]

theorem seenAt_updated (hprot : prot ≠ 0) {b : UInt8}
    (hb : s.seenAt c a = some b) : s'.seenAt c a = some b := by
  by_cases hchanged : Visited first start stop a ∧
      if prot = 0 then s.Small a else (s.routeAt a).isSome
  · obtain ⟨hvisited, hcond⟩ := hchanged
    rw [if_neg hprot] at hcond
    obtain ⟨r, hr⟩ := Option.isSome_iff_exists.mp hcond
    obtain ⟨hr', he'⟩ := entry_of_visited hedited hvisited hr
    rw [protectEntry, if_neg hprot] at he'
    by_cases hunused : s.tables r.frame r.index = .unused
    · rw [withFlags, if_pos hunused] at he'
      rwa [seenAt_of_kept hsorted hfirst hedited (kept_of_route hr hr' he')]
    · rw [withFlags, if_neg hunused] at he'
      rw [seenAt, leafAt_of_route hr rfl] at hb
      rw [seenAt, leafAt_of_route hr' he']
      by_cases hpresent : (s.tables r.frame r.index).flags.present = true
      · rw [if_pos hpresent] at hb
        exact hb
      · rw [if_neg hpresent, pageEntry_of_route hr rfl, PageTableEntry.inUse, if_neg hunused] at hb
        cases hb
  · rwa [seenAt_of_kept hsorted hfirst hedited (kept_of_not_changed hedited hchanged)]

theorem seenAt_unmapped_iff (hprot : prot = 0)
    (hcovered : ∀ a, start ≤ a → a < stop → (s.regionAt a).isSome)
    (hvisit : ∀ a, Canonical a → Visited first start stop a → start ≤ a ∧ a < stop)
    (hrange : ∀ a, start ≤ a → a < stop → Canonical a) :
    (∀ a, Canonical a → ∀ b, s.seenAt c a = some b → s'.seenAt c a = some b) ↔
      ∀ a l vma, start ≤ a → a < stop → Visited first start stop a → s.Small a →
        s.leafAt a = some l → s.regionAt a = some vma →
          (c.pages (l.phys / 4096)).get (l.phys % 4096) = c.demandByte vma a := by
  subst hprot
  have hgone : ∀ a, Visited first start stop a → s.Small a →
      s'.seenAt c a = (s.regionAt a).map (c.demandByte · a) := by
    intro a hvisited hsmall
    obtain ⟨hleaf, hentry⟩ := Edited.leafAt_unmapped hedited hsmall hvisited
    rw [seenAt, hleaf, hentry]
    exact demandByte_protected hsorted hfirst hedited a
  constructor
  · intro h a l vma hle hlt hvisited hsmall hleaf hvma
    have hsame := h a (hrange a hle hlt) _ (by rw [seenAt, hleaf])
    rw [hgone a hvisited hsmall, hvma] at hsame
    exact (Option.some.inj hsame).symm
  · intro h a ha b hb
    by_cases hchanged : Visited first start stop a ∧ s.Small a
    · obtain ⟨hvisited, hsmall⟩ := hchanged
      obtain ⟨hle, hlt⟩ := hvisit a ha hvisited
      obtain ⟨vma, hvma⟩ := Option.isSome_iff_exists.mp (hcovered a hle hlt)
      obtain ⟨e, he, hframe⟩ := hsmall
      obtain ⟨r, hr, rfl⟩ := entryAt_eq_some_iff.mp he
      obtain ⟨f, hf⟩ := Option.isSome_iff_exists.mp hframe
      have hleaf := leafAt_of_route hr rfl
      rw [if_pos (PageTableEntry.frame_eq_some hf).1] at hleaf
      rw [seenAt, hleaf] at hb
      rw [hgone a hvisited ⟨_, he, hframe⟩, hvma, Option.map_some,
        ← h a _ vma hle hlt hvisited ⟨_, he, hframe⟩ hleaf hvma]
      exact hb
    · rwa [seenAt_of_kept hsorted hfirst hedited (kept_of_not_changed hedited hchanged)]

end

end

/-- `sys_mprotect` changes exactly its range where it can do so with the first region that
meets the range. -/
theorem mprotect_exact_iff [Mapper] [Mapper.FindsPages] [Mapper.UnmapsPages]
    [Mapper.UpdatesFlags] (c : Contents) (s s' : AddressSpace) (addr len prot : Nat)
    (haddr : addr % 4096 = 0) (hlen : len % 4096 = 0) (hsorted : RegionsSorted s.vmas)
    (hcovered : ∀ a, addr ≤ a → a < addr + len → Canonical a ∧ ∃ vma ∈ s.vmas, vma.contains a)
    (h : sysMprotect s addr len prot = some (0, s')) :
    Protects c s s' addr (addr + len) prot ↔
      ∃ first, s.vmas.find? (·.meets addr (addr + len)) = some first ∧
        OneRegion c s addr (addr + len) prot first := by
  obtain ⟨first, hfirst, hedited⟩ :=
    sysMprotect_zero haddr hlen (fun a hle hlt => (hcovered a hle hlt).2) h
  have hstop : (addr + len) % 4096 = 0 := by omega
  generalize addr + len = stop at *
  have hrange : ∀ a, addr ≤ a → a < stop → Canonical a := fun a hle hlt =>
    (hcovered a hle hlt).1
  have hregion : ∀ a, addr ≤ a → a < stop → (s.regionAt a).isSome := by
    intro a hle hlt
    obtain ⟨vma, hvma, hcontains⟩ := (hcovered a hle hlt).2
    rw [regionAt, find?_contains_of_mem hsorted hvma hcontains]
    rfl
  have hvisit : ∀ a, Canonical a → Visited first addr stop a → addr ≤ a ∧ a < stop :=
    fun a => inside_of_visited haddr hstop hrange
  have hregions := regions_iff hsorted hfirst hedited hregion
  have hcover := coverAt_eq_iff hsorted hfirst hedited
  have hgranted : ∀ a, _ := fun a => granted_iff hedited (a := a)
  have hbytes := fun hprot => seenAt_unmapped_iff (c := c) hsorted hfirst hedited hprot hregion
    hvisit hrange
  constructor
  · intro hprotects
    refine ⟨first, hfirst, hregions.mp hprotects.regions, ?_, ?_, ?_, ?_⟩
    · exact fun a ha hout => (hcover a).mp (hprotects.otherRegions a ha hout)
    · exact fun hprot a r hle hlt =>
        ((hgranted a).mp (hprotects.rights a hle hlt)).1 hprot r
    · exact fun a hle hlt => ((hgranted a).mp (hprotects.rights a hle hlt)).2
    · exact fun hprot => (hbytes hprot).mp hprotects.contents
  · rintro ⟨first', hfirst', hone⟩
    obtain rfl : first = first' := Option.some.inj (hfirst.symm.trans hfirst')
    refine ⟨hregions.mpr hone.others, ?_, ?_, ?_, ?_⟩
    · exact fun a hle hlt => (hgranted a).mpr
        ⟨fun hprot r => hone.above hprot a r hle hlt, hone.missed a hle hlt⟩
    · exact fun a ha hout => (hcover a).mpr (hone.outside a ha hout)
    · exact fun a ha hout => (kept_of_not_changed hedited fun hchanged =>
        hout (hvisit a ha hchanged.1)).rights
    · by_cases hprot : prot = 0
      · exact (hbytes hprot).mpr (hone.bytes hprot)
      · exact fun a _ b => seenAt_updated hsorted hfirst hedited hprot

attribute [local instance] levelMapper

/-- A region of one page that is mapped becomes read-only. -/
theorem mprotect_exact_onePage :
    ∃ s', sysMprotect (onePage [anonymousRegion 1] (by decide)) 0x1000 0x1000 1 = some (0, s') ∧
      s'.rightsAt 0x1000 = some ⟨true, false, false⟩ ∧
      Protects ⟨fun _ => .ofFn fun _ => 7, []⟩ (onePage [anonymousRegion 1] (by decide)) s'
        0x1000 0x2000 1 := by
  have hregion : ∀ a, 0x1000 ≤ a → a < 0x2000 → (anonymousRegion 1).contains a = true := by
    intro a hle hlt
    rw [Vma.contains, Bool.and_eq_true, decide_eq_true_iff, decide_eq_true_iff]
    exact ⟨hle, hlt⟩
  have hpage : ∀ a, 0x1000 ≤ a → a < 0x2000 → SamePage 0x1000 a := by
    intro a hle hlt
    unfold SamePage
    omega
  have hcall : (sysMprotect (onePage [anonymousRegion 1] (by decide)) 0x1000 0x1000 1).map
      (fun r => (r.1, r.2.rightsAt 0x1000)) = some (0, some ⟨true, false, false⟩) := by
    decide +kernel
  obtain ⟨⟨code, s'⟩, hs', hresult⟩ := Option.map_eq_some_iff.mp hcall
  obtain ⟨rfl, hrights⟩ := Prod.mk.inj hresult
  refine ⟨s', hs', hrights, (mprotect_exact_iff _ (onePage [anonymousRegion 1] (by decide)) s'
    0x1000 0x1000 1 (by decide) (by decide) (List.pairwise_singleton ..)
    (fun a hle hlt => ⟨?_, _, List.mem_singleton_self _, hregion a hle hlt⟩) hs').mpr
    ⟨anonymousRegion 1, rfl, ?_⟩⟩
  · unfold Canonical
    omega
  · refine ⟨fun a vma hle hlt hout => absurd (hregion a hle hlt) hout, ?_, ?_, ?_, ?_⟩
    · intro a _ hout hin
      rw [Vma.contains, Bool.and_eq_true, decide_eq_true_iff, decide_eq_true_iff] at hin
      exact absurd hin hout
    · intro _ a r hle hlt _ hr _
      rw [routeAt, ← (hpage a hle hlt).routeTo_eq] at hr
      obtain rfl := Option.some.inj hr
      decide
    · intro a hle hlt hnot
      refine absurd ⟨⟨0x1000, mem_stepPages.mpr (by decide), hpage a hle hlt⟩, ?_⟩ hnot
      rw [routeAt, ← (hpage a hle hlt).routeTo_eq]
      rfl
    · intro hprot
      cases hprot

/-- The protection of a page changes outside of the range, and a page that loses its rights
loses its bytes. -/
theorem mprotect_changes_rest :
    (((onePage [anonymousRegion 2] (by decide)).coverAt 0x2000).map (·.2.1.writable) = some true ∧
      (sysMprotect (onePage [anonymousRegion 2] (by decide)) 0x1000 0x1000 1).map
        (fun r => (r.1, (r.2.coverAt 0x2000).map (·.2.1.writable))) = some (0, some false)) ∧
    (onePage [anonymousRegion 1] (by decide)).seenAt ⟨fun _ => .ofFn fun _ => 7, []⟩ 0x1000 =
        some 7 ∧
      (sysMprotect (onePage [anonymousRegion 1] (by decide)) 0x1000 0x1000 0).map
        (fun r => (r.1, r.2.seenAt ⟨fun _ => .ofFn fun _ => 7, []⟩ 0x1000)) = some (0, some 0) := by
  decide +kernel

end AddressSpace

end ZiqaKernel
