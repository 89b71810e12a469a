/-
The address space of a process: its regions and its page tables, which form a
tree.  `unmap_range_pages` and `update_range_page_flags` (`abi/linux/mod.rs`) go
over the pages of a range and change the entry of each.
-/
import ZiqaKernel.HeapBreak
import ZiqaKernel.PageTree
import ZiqaKernel.ProcessRecord

namespace ZiqaKernel

/-- `VirtAddr::new` accepts the address as it is. -/
def Canonical (a : Nat) : Prop := a / 2 ^ 47 = 0 ∨ a / 2 ^ 47 = 0x1ffff

/-- The regions of a process, whose ends are `VirtAddr`s, and its tables, which form a
tree. -/
structure AddressSpace where
  vmas : List VmaRecord
  ends : ∀ vma ∈ vmas, Canonical vma.start ∧ Canonical vma.stop
  root : Nat
  tables : Tables
  tree : TreeShaped (fun _ => True) tables root

/-- The addresses from `start` on in steps of a page, `(start..stop).step_by(4096)`. -/
def stepPages (start stop : Nat) : List Nat :=
  (List.range ((stop - start + 4095) / 4096)).map (start + 4096 * ·)

theorem mem_stepPages {start stop a : Nat} : a ∈ stepPages start stop ↔
    start ≤ a ∧ a < stop ∧ (a - start) % 4096 = 0 := by
  rw [stepPages, List.mem_map]
  constructor
  · rintro ⟨k, hk, rfl⟩
    rw [List.mem_range] at hk
    omega
  · rintro ⟨hle, hlt, hmod⟩
    refine ⟨(a - start) / 4096, List.mem_range.mpr ?_, ?_⟩ <;> omega

instance (a : Nat) : Decidable (Canonical a) := by
  unfold Canonical
  infer_instance

theorem SamePage.page_eq {a b : Nat} (h : SamePage a b) (ha : Canonical a)
    (hb : Canonical b) : a / 4096 = b / 4096 := by
  unfold SamePage at h
  unfold Canonical at ha hb
  omega

theorem samePage_of_virtAddrNew {a v : Nat} (h : virtAddrNew a = some v) :
    SamePage (pageStart v) a := by
  rw [virtAddrNew] at h
  unfold SamePage pageStart
  split_ifs at h
  · obtain rfl := Option.some.inj h
    omega
  · obtain rfl := Option.some.inj h
    omega

/-! Rights -/

def executableAlong (t : Tables) (v : Nat) : Nat → Nat → Bool
  | 0, _ => true
  | n + 1, f =>
    let e := t f (pageIndex (n + 1) v)
    !e.flags.noExecute &&
      if e.flags.present && !e.isLeaf n then executableAlong t v n e.addr else true

theorem executableAlong_congr {t t' : Tables} {v n f : Nat}
    (h : ∀ q ∈ path t v n f, t' q.1 q.2 = t q.1 q.2) :
    executableAlong t' v n f = executableAlong t v n f := by
  induction n generalizing f with
  | zero => rfl
  | succ n ih =>
    rw [path, List.forall_mem_cons] at h
    rw [executableAlong, executableAlong, h.1]
    dsimp only
    split
    · next hcond =>
      rw [ih]
      rw [pathEntry, if_pos hcond] at h
      exact h.2
    · rfl

theorem executableAlong_of_routeTo {t : Tables} {v n f : Nat} {r : Route}
    (h : routeTo t v (n + 1) f = some r) :
    executableAlong t v (n + 1) f = (r.executable && !(t r.frame r.index).flags.noExecute) := by
  induction n generalizing f r with
  | zero =>
    obtain rfl := Option.some.inj h
    simp [executableAlong, PageTableEntry.isLeaf]
  | succ n ih =>
    rw [routeTo, Option.bind_eq_some_iff] at h
    obtain ⟨g, hframe, h⟩ := h
    obtain ⟨r', hr', rfl⟩ := Option.map_eq_some_iff.mp h
    obtain ⟨hpresent, -, haddr⟩ := PageTableEntry.frame_eq_some hframe
    have hleaf := PageTableEntry.isLeaf_of_frame (n := n) hframe
    rw [executableAlong, hpresent, hleaf, haddr, ih hr']
    simp [Route.under, Bool.and_assoc]

structure Rights where
  user : Bool
  writable : Bool
  executable : Bool
deriving DecidableEq

/-- The rights that the entry of a page and the entries above it give. -/
def Route.rights (r : Route) (e : PageTableEntry) : Option Rights :=
  if e.flags.present then
    some ⟨r.user && e.flags.userAccessible, r.writable && e.flags.writable,
      r.executable && !e.flags.noExecute⟩
  else none

namespace AddressSpace

/-! A space with one page -/

/-- Tables at frames 1 to 4 that map the page at `0x1000` to frame 9. -/
def onePageTables (f i : Nat) : PageTableEntry :=
  if f = 1 ∧ i = 0 then ⟨2, heapFlags⟩
  else if f = 2 ∧ i = 0 then ⟨3, heapFlags⟩
  else if f = 3 ∧ i = 0 then ⟨4, heapFlags⟩
  else if f = 4 ∧ i = 1 then ⟨9, heapFlags⟩
  else .unused

theorem onePageTables_frame {f i g : Nat} (hf : f < 4)
    (h : (onePageTables f i).frame = some g) : i = 0 ∧ g = f + 1 := by
  unfold onePageTables at h
  split_ifs at h with h1 h2 h3 h4
  · exact ⟨h1.2, by rw [h1.1]; exact (Option.some.inj h).symm⟩
  · exact ⟨h2.2, by rw [h2.1]; exact (Option.some.inj h).symm⟩
  · exact ⟨h3.2, by rw [h3.1]; exact (Option.some.inj h).symm⟩
  · omega
  · cases h

theorem tableAt_onePageTables {v n f j g : Nat} (hn : n + f = 5) (hj : j < n)
    (h : tableAt onePageTables v n f j = some g) :
    g = f + j ∧ ∀ i < j, pageIndex (n - i) v = 0 := by
  induction j generalizing n f with
  | zero =>
    refine ⟨?_, by simp⟩
    cases n <;> exact (Option.some.inj h).symm
  | succ j ih =>
    obtain ⟨n, rfl⟩ : ∃ m, n = m + 1 := ⟨n - 1, by omega⟩
    rw [tableAt, Option.bind_eq_some_iff] at h
    obtain ⟨k, hframe, h⟩ := h
    obtain ⟨hindex, rfl⟩ := onePageTables_frame (by omega) hframe
    obtain ⟨hg, habove⟩ := ih (by omega) (by omega) h
    refine ⟨by omega, fun i hi => ?_⟩
    cases i with
    | zero => exact hindex
    | succ i =>
      rw [Nat.add_sub_add_right]
      exact habove i (Nat.lt_of_succ_lt_succ hi)

/-- A region of the given pages from `0x1000` on. -/
def anonymousRegion (pages : Nat) : VmaRecord where
  start := 0x1000
  stop := 0x1000 + 0x1000 * pages
  flags := ⟨true, false, true, false⟩
  fileOffset := 0
  fileSize := 0
  readable := true
  isFileBacked := false
  filePath := none
  bcoHook := none

def onePage (vmas : List VmaRecord)
    (ends : ∀ vma ∈ vmas, Canonical vma.start ∧ Canonical vma.stop) : AddressSpace where
  vmas := vmas
  ends := ends
  root := 1
  tables := onePageTables
  tree := by
    intro v w _ _ j hj k hk g hv hw
    obtain ⟨hgv, hzero⟩ := tableAt_onePageTables rfl hj hv
    obtain ⟨hgw, hzero'⟩ := tableAt_onePageTables rfl hk hw
    obtain rfl : j = k := by omega
    exact ⟨rfl, fun i hi => (hzero i hi).trans (hzero' i hi).symm⟩

def leafAt (s : AddressSpace) (a : Nat) : Option Leaf := walk s.tables a 4 s.root

def regionAt (s : AddressSpace) (a : Nat) : Option VmaRecord := s.vmas.find? (·.contains a)

/-- What the regions say of an address: the protection and the place in the file. -/
def coverAt (s : AddressSpace) (a : Nat) : Option (Bool × MemoryRegionFlags × Nat) :=
  (s.regionAt a).map fun vma => (vma.readable, vma.flags, vma.fileOffset + (a - vma.start))

def routeAt (s : AddressSpace) (a : Nat) : Option Route := routeTo s.tables a 4 s.root

def entryAt (s : AddressSpace) (a : Nat) : Option PageTableEntry :=
  (s.routeAt a).map fun r => s.tables r.frame r.index

def setEntryAt (s : AddressSpace) {v : Nat} {r : Route} (h : s.routeAt v = some r)
    (e : PageTableEntry) : AddressSpace where
  vmas := s.vmas
  ends := s.ends
  root := s.root
  tables := s.tables.set r.frame r.index e
  tree := treeShaped_set s.tree trivial h e

/-- The entry of a page after `unmap`. -/
def cleared (e : PageTableEntry) : PageTableEntry := if e.frame.isSome then .unused else e

/-- The entry of a page after `update_flags`. -/
def withFlags (flags : PageTableFlags) (e : PageTableEntry) : PageTableEntry :=
  if e = .unused then e else ⟨e.addr, flags⟩

/-- A call of the mapper that changes the entry of a page by `g`. -/
def EntryCall (op : Nat → Nat → Tables → Tables) (g : PageTableEntry → PageTableEntry) : Prop :=
  ∀ root v t, op root v t = t.edit g root v

section

variable [Mapper]

theorem entryCall_unmap [Mapper.UnmapsPages] : EntryCall Mapper.unmap cleared := by
  intro root v t
  by_cases h : ∃ r, routeTo t v 4 root = some r ∧ (t r.frame r.index).frame.isSome = true
  · obtain ⟨r, hr, hframe⟩ := h
    rw [Mapper.unmap_of_frame hr hframe, Tables.edit_of_route hr, cleared, if_pos hframe]
  · have hnone : ∀ r, routeTo t v 4 root = some r → (t r.frame r.index).frame.isSome ≠ true :=
      fun r hr hframe => h ⟨r, hr, hframe⟩
    rw [Mapper.unmap_of_no_frame fun r hr => Option.not_isSome_iff_eq_none.mp (hnone r hr),
      Tables.edit_eq_self fun r hr => if_neg (hnone r hr)]

theorem entryCall_updateFlags [Mapper.UpdatesFlags] (flags : PageTableFlags) :
    EntryCall (Mapper.updateFlags · · flags) (withFlags flags) := by
  intro root v t
  by_cases h : ∃ r, routeTo t v 4 root = some r ∧ t r.frame r.index ≠ .unused
  · obtain ⟨r, hr, hused⟩ := h
    dsimp only
    rw [Mapper.updateFlags_of_used flags hr hused, Tables.edit_of_route hr, withFlags,
      if_neg hused]
  · have hunused : ∀ r, routeTo t v 4 root = some r → t r.frame r.index = .unused :=
      fun r hr => not_not.mp fun hused => h ⟨r, hr, hused⟩
    dsimp only
    rw [Mapper.updateFlags_of_unused flags hunused,
      Tables.edit_eq_self fun r hr => if_pos (hunused r hr)]

variable {op : Nat → Nat → Tables → Tables} {g : PageTableEntry → PageTableEntry}

omit [Mapper] in
/-- The space after a call of the mapper; its tables still form a tree. -/
def call (s : AddressSpace) (h : EntryCall op g) (v : Nat) : AddressSpace where
  vmas := s.vmas
  ends := s.ends
  root := s.root
  tables := op s.root v s.tables
  tree := by
    rw [h]
    exact treeShaped_edit s.tree trivial g

/-- The loop of `unmap_range_pages` and `update_range_page_flags`: the call is made for each
page that `translate_addr` finds.  Without a result the loop has panicked. -/
def callRange (h : EntryCall op g) (start stop : Nat) (s : AddressSpace) : Option AddressSpace :=
  (stepPages start stop).foldlM (fun s addr =>
    (virtAddrNew addr).bind fun a =>
      (Mapper.translateAddr s.root (pageStart a) s.tables).map fun mapped =>
        if mapped then s.call h (pageStart a) else s) s

/-- `unmap_range_pages`. -/
def unmapRangePages [Mapper.UnmapsPages] (s : AddressSpace) (start stop : Nat) :
    Option AddressSpace :=
  s.callRange entryCall_unmap start stop

/-- `update_range_page_flags`. -/
def updateRangePageFlags [Mapper.UpdatesFlags] (s : AddressSpace) (start stop : Nat)
    (flags : PageTableFlags) : Option AddressSpace :=
  s.callRange (entryCall_updateFlags flags) start stop

end

/-- A change of entries that is made once and leaves entries that are not in use. -/
structure Settles (g : PageTableEntry → PageTableEntry) : Prop where
  unused : g .unused = .unused
  twice : ∀ e, g (g e) = g e

theorem settles_cleared : Settles cleared where
  unused := rfl
  twice e := by
    by_cases h : e.frame.isSome = true
    · rw [cleared, cleared, if_pos h]
      rfl
    · rw [show cleared e = e from if_neg h, show cleared e = e from if_neg h]

theorem settles_withFlags {flags : PageTableFlags} (h : flags.present = true) :
    Settles (withFlags flags) where
  unused := rfl
  twice e := by
    by_cases hunused : e = .unused
    · rw [hunused]
      rfl
    · have hused : (⟨e.addr, flags⟩ : PageTableEntry) ≠ .unused := by
        intro heq
        rw [PageTableEntry.unused, PageTableEntry.mk.injEq] at heq
        rw [heq.2] at h
        cases h
      rw [withFlags, withFlags, if_neg hunused, if_neg hused]

/-! Spaces that differ in the entries of some pages -/

variable {s s' s'' : AddressSpace} {pages pages' : List Nat} {v w : Nat}
  {g : PageTableEntry → PageTableEntry}

def SameWay (s s' : AddressSpace) (w : Nat) : Prop :=
  ∀ q ∈ path s.tables w 4 s.root, s'.tables q.1 q.2 = s.tables q.1 q.2

/-- `s'` is `s` with the entries of the pages changed that hold one of the addresses. -/
structure Edited (g : PageTableEntry → PageTableEntry) (s s' : AddressSpace)
    (pages : List Nat) : Prop where
  vmas : s'.vmas = s.vmas
  root : s'.root = s.root
  route : ∀ w, s'.routeAt w = s.routeAt w
  hit : ∀ w, (∃ p ∈ pages, SamePage p w) → s'.entryAt w = (s.entryAt w).map g
  keep : ∀ w, (s.entryAt w = none ∨ ∀ p ∈ pages, ¬ SamePage p w) → SameWay s s' w

theorem entryAt_eq_some_iff {e : PageTableEntry} : s.entryAt w = some e ↔
    ∃ r, s.routeAt w = some r ∧ s.tables r.frame r.index = e :=
  Option.map_eq_some_iff

theorem Edited.entryAt_of_sameWay (h : Edited g s s' pages) (hway : SameWay s s' w) :
    s'.entryAt w = s.entryAt w := by
  rw [entryAt, entryAt, h.route]
  cases hr : s.routeAt w with
  | none => rfl
  | some r => exact congrArg some (hway _ (mem_path_of_routeTo hr))

theorem Edited.self (h : ∀ w, (∃ p ∈ pages, SamePage p w) →
    s.entryAt w = (s.entryAt w).map g) : Edited g s s pages :=
  ⟨rfl, rfl, fun _ => rfl, h, fun _ _ _ _ => rfl⟩

theorem Edited.trans (hg : Settles g) (h : Edited g s s' pages)
    (h' : Edited g s' s'' pages') : Edited g s s'' (pages ++ pages') where
  vmas := h'.vmas.trans h.vmas
  root := h'.root.trans h.root
  route w := (h'.route w).trans (h.route w)
  hit w hex := by
    by_cases hfirst : ∃ p ∈ pages, SamePage p w
    · by_cases hsecond : ∃ p ∈ pages', SamePage p w
      · rw [h'.hit w hsecond, h.hit w hfirst, Option.map_map]
        exact congrArg (Option.map · _) (funext hg.twice)
      · have hway := h'.keep w (.inr fun p hp hpage => hsecond ⟨p, hp, hpage⟩)
        rw [h'.entryAt_of_sameWay hway, h.hit w hfirst]
    · have hway := h.keep w (.inr fun p hp hpage => hfirst ⟨p, hp, hpage⟩)
      rw [← h.entryAt_of_sameWay hway]
      apply h'.hit
      obtain ⟨p, hp, hpage⟩ := hex
      rcases List.mem_append.mp hp with hp | hp
      · exact absurd ⟨p, hp, hpage⟩ hfirst
      · exact ⟨p, hp, hpage⟩
  keep w hmiss := by
    rw [List.forall_mem_append] at hmiss
    have hway := h.keep w (hmiss.imp_right And.left)
    have hpath : path s'.tables w 4 s'.root = path s.tables w 4 s.root := by
      rw [h.root]
      exact (walk_congr hway).2
    have hway' : SameWay s' s'' w := by
      apply h'.keep
      rw [h.entryAt_of_sameWay hway]
      exact hmiss.imp_right And.right
    intro q hq
    rw [hway' q (hpath ▸ hq), hway q hq]

/-! Changing the entry of a page -/

section

variable {r : Route} (hr : s.routeAt v = some r) (e : PageTableEntry)

theorem routeAt_setEntryAt (w : Nat) : (s.setEntryAt hr e).routeAt w = s.routeAt w :=
  (tableAt_set s.tree trivial hr e trivial).1

theorem entryAt_setEntryAt (h : SamePage v w) : (s.setEntryAt hr e).entryAt w = some e := by
  rw [entryAt, routeAt_setEntryAt, routeAt, ← h.routeTo_eq]
  refine (congrArg (Option.map _) hr).trans (congrArg some ?_)
  exact Tables.set_self ..

theorem sameWay_setEntryAt (h : ¬ SamePage v w) : SameWay s (s.setEntryAt hr e) w := by
  intro q hq
  refine Tables.set_ne _ (fun heq => h ?_) e
  apply samePage_of_mem_path s.tree trivial hr trivial
  rw [← heq]
  exact hq

end

theorem entryAt_congr (h : SamePage v w) : s.entryAt v = s.entryAt w := by
  rw [entryAt, entryAt, routeAt, routeAt, h.routeTo_eq]

section

variable {op : Nat → Nat → Tables → Tables} (hop : EntryCall op g)

theorem call_of_no_route (hnone : s.routeAt v = none) : s.call hop v = s := by
  have htables : op s.root v s.tables = s.tables := by
    rw [hop, Tables.edit_of_no_route hnone]
  simp only [call, htables]

theorem call_of_route {r : Route} (hr : s.routeAt v = some r) :
    s.call hop v = s.setEntryAt hr (g (s.tables r.frame r.index)) := by
  have htables : op s.root v s.tables =
      s.tables.set r.frame r.index (g (s.tables r.frame r.index)) := by
    rw [hop, Tables.edit_of_route hr]
  simp only [call, setEntryAt, htables]

theorem edited_call (s : AddressSpace) (v : Nat) : Edited g s (s.call hop v) [v] := by
  cases hr : s.routeAt v with
  | none =>
    rw [call_of_no_route hop hr]
    apply Edited.self
    rintro w ⟨p, hp, hpage⟩
    obtain rfl := List.mem_singleton.mp hp
    rw [← entryAt_congr hpage, entryAt, hr]
    rfl
  | some r =>
    rw [call_of_route hop hr]
    have hentry : s.entryAt v = some (s.tables r.frame r.index) := by
      rw [entryAt, hr, Option.map_some]
    refine ⟨rfl, rfl, routeAt_setEntryAt hr _, ?_, fun w hmiss => ?_⟩
    · rintro w ⟨p, hp, hpage⟩
      obtain rfl := List.mem_singleton.mp hp
      rw [entryAt_setEntryAt hr _ hpage, ← entryAt_congr hpage, hentry, Option.map_some]
    · apply sameWay_setEntryAt
      intro hpage
      rcases hmiss with hnone | hother
      · rw [← entryAt_congr hpage, hentry] at hnone
        cases hnone
      · exact hother v (List.mem_singleton_self v) hpage

end

theorem Edited.of_samePage (h : Edited g s s' [v]) (hpage : SamePage v w) : Edited g s s' [w] where
  vmas := h.vmas
  root := h.root
  route := h.route
  hit u hex := by
    obtain ⟨p, hp, hu⟩ := hex
    obtain rfl := List.mem_singleton.mp hp
    exact h.hit u ⟨v, List.mem_singleton_self v, hpage.trans hu⟩
  keep u hmiss := by
    refine h.keep u (hmiss.imp_right fun hother p hp hu => ?_)
    obtain rfl := List.mem_singleton.mp hp
    exact hother w (List.mem_singleton_self w) (hpage.symm.trans hu)

theorem edited_callRange [Mapper] [Mapper.FindsPages] {op : Nat → Nat → Tables → Tables}
    {hop : EntryCall op g} (hg : Settles g) {start stop : Nat}
    (h : s.callRange hop start stop = some s') :
    Edited g s s' (stepPages start stop) ∧ ∀ a ∈ stepPages start stop, virtAddrNew a ≠ none := by
  rw [callRange] at h
  generalize stepPages start stop = pages at h ⊢
  induction pages generalizing s with
  | nil =>
    obtain rfl := Option.some.inj h
    exact ⟨.self (by simp), by simp⟩
  | cons addr rest ih =>
    rw [List.foldlM_cons] at h
    obtain ⟨s₁, hfirst, hrest⟩ := Option.bind_eq_some_iff.mp h
    obtain ⟨a, ha, hfirst⟩ := Option.bind_eq_some_iff.mp hfirst
    obtain ⟨mapped, hmapped, rfl⟩ := Option.map_eq_some_iff.mp hfirst
    obtain ⟨hedited, haddrs⟩ := ih hrest
    have hround : Edited g s (if mapped then s.call hop (pageStart a) else s) [addr] := by
      apply Edited.of_samePage _ (samePage_of_virtAddrNew ha)
      cases mapped with
      | true => exact edited_call hop s (pageStart a)
      | false =>
        -- an entry that `translate_addr` does not find is not in use
        apply Edited.self
        rintro w ⟨p, hp, hpage⟩
        obtain rfl := List.mem_singleton.mp hp
        rw [← entryAt_congr hpage, entryAt]
        cases hr : s.routeAt (pageStart a) with
        | none => rfl
        | some r =>
          rw [Mapper.translateAddr_of_route hr] at hmapped
          have hunused : s.tables r.frame r.index = .unused := by simpa using hmapped
          rw [Option.map_some, Option.map_some, hunused, hg.unused]
    refine ⟨hround.trans hg hedited, ?_⟩
    rw [List.forall_mem_cons]
    exact ⟨by rw [ha]; exact Option.some_ne_none a, haddrs⟩

theorem canonical_of_mem_stepPages {start stop a : Nat} (hstop : Canonical stop)
    (haddrs : ∀ a ∈ stepPages start stop, virtAddrNew a ≠ none)
    (ha : a ∈ stepPages start stop) : Canonical a := by
  obtain ⟨hle, hlt, -⟩ := mem_stepPages.mp ha
  by_contra hcan
  unfold Canonical at hstop hcan
  -- the loop would come past the first address above the gap
  have hgap : start + 4096 * ((2 ^ 48 - start + 4095) / 4096) ∈ stepPages start stop := by
    rw [mem_stepPages]
    omega
  apply haddrs _ hgap
  rw [virtAddrNew, if_neg (by omega), if_neg (by omega)]

/-! What is found at the pages -/

def rightsAt (s : AddressSpace) (a : Nat) : Option Rights :=
  (s.leafAt a).map fun l => ⟨l.user, l.writable, executableAlong s.tables a 4 s.root⟩

structure Kept (s s' : AddressSpace) (w : Nat) : Prop where
  leaf : s'.leafAt w = s.leafAt w
  rights : s'.rightsAt w = s.rightsAt w
  entry : pageEntry s'.tables w s'.root = pageEntry s.tables w s.root

section

variable {r : Route} {e : PageTableEntry}

section

variable (hr : s.routeAt w = some r)
include hr

theorem leafAt_of_route (he : s.tables r.frame r.index = e) :
    s.leafAt w = if e.flags.present then
        some ⟨e.addr * 4096 + w % 4096, r.user && e.flags.userAccessible,
          r.writable && e.flags.writable⟩
      else none := by
  rw [leafAt, walk_of_routeTo hr, he]

theorem rightsAt_of_route (he : s.tables r.frame r.index = e) :
    s.rightsAt w = r.rights e := by
  rw [rightsAt, leafAt_of_route hr he, executableAlong_of_routeTo hr, he, Route.rights]
  split <;> rfl

theorem pageEntry_of_route (he : s.tables r.frame r.index = e) :
    pageEntry s.tables w s.root = e.inUse := by
  rw [pageEntry_of_routeTo hr, he]

theorem kept_of_route (hr' : s'.routeAt w = some r)
    (he : s'.tables r.frame r.index = s.tables r.frame r.index) : Kept s s' w where
  leaf := by rw [leafAt_of_route hr rfl, leafAt_of_route hr' he]
  rights := by rw [rightsAt_of_route hr rfl, rightsAt_of_route hr' he]
  entry := by rw [pageEntry_of_route hr rfl, pageEntry_of_route hr' he]

end

theorem kept_of_sameWay (hroot : s'.root = s.root) (h : SameWay s s' w) : Kept s s' w := by
  have hleaf : s'.leafAt w = s.leafAt w := by
    rw [leafAt, leafAt, hroot]
    exact (walk_congr h).1
  refine ⟨hleaf, ?_, ?_⟩
  · rw [rightsAt, rightsAt, hleaf, hroot, executableAlong_congr h]
  · rw [hroot]
    exact pageEntry_congr fun j hj f hf => h (f, _) (mem_path_iff.mpr ⟨j, hj, hf, rfl⟩)

end

theorem Edited.kept (h : Edited g s s' pages)
    (hmiss : (∀ p ∈ pages, ¬ SamePage p w) ∨ ∀ e, s.entryAt w = some e → g e = e) :
    Kept s s' w := by
  by_cases hex : ∃ p ∈ pages, SamePage p w
  · cases he : s.entryAt w with
    | none => exact kept_of_sameWay h.root (h.keep w (.inl he))
    | some e =>
      have hg : g e = e := by
        rcases hmiss with hother | hstay
        · obtain ⟨p, hp, hpage⟩ := hex
          exact absurd hpage (hother p hp)
        · exact hstay e he
      have hentry := h.hit w hex
      rw [he, Option.map_some, hg] at hentry
      obtain ⟨r, hr, hre⟩ := entryAt_eq_some_iff.mp he
      obtain ⟨r', hr', hre'⟩ := entryAt_eq_some_iff.mp hentry
      obtain rfl : r = r' := Option.some.inj (by rw [← hr, ← hr', h.route])
      exact kept_of_route hr hr' (by rw [hre, hre'])
  · exact kept_of_sameWay h.root (h.keep w (.inr fun p hp hpage => hex ⟨p, hp, hpage⟩))

theorem Edited.entry_of_hit (h : Edited g s s' pages) (hex : ∃ p ∈ pages, SamePage p w)
    {r : Route} (hr : s.routeAt w = some r) :
    s'.routeAt w = some r ∧ s'.tables r.frame r.index = g (s.tables r.frame r.index) := by
  have hr' := (h.route w).trans hr
  have hentry := h.hit w hex
  rw [entryAt, entryAt, hr, hr', Option.map_some, Option.map_some, Option.map_some,
    Option.some.injEq] at hentry
  exact ⟨hr', hentry⟩

/-- The address is mapped by the entry of a 4 KiB page from which `unmap` takes a frame. -/
def Small (s : AddressSpace) (a : Nat) : Prop :=
  ∃ e, s.entryAt a = some e ∧ e.frame.isSome

theorem Small.congr (hsmall : s.Small v) (h : SamePage v w) : s.Small w := by
  rwa [Small, ← entryAt_congr h]

theorem not_small_iff : ¬ s.Small w ↔ ∀ e, s.entryAt w = some e → cleared e = e := by
  rw [Small]
  constructor
  · intro h e he
    exact if_neg fun hframe => h ⟨e, he, hframe⟩
  · rintro h ⟨e, he, hframe⟩
    have htaken := h e he
    rw [cleared, if_pos hframe] at htaken
    rw [← htaken] at hframe
    cases hframe

theorem Edited.leafAt_unmapped (h : Edited cleared s s' pages) (hsmall : s.Small w)
    (hex : ∃ p ∈ pages, SamePage p w) : s'.leafAt w = none ∧
      pageEntry s'.tables w s'.root = none := by
  obtain ⟨e, he, hframe⟩ := hsmall
  obtain ⟨r, hr, rfl⟩ := entryAt_eq_some_iff.mp he
  obtain ⟨hr', he'⟩ := h.entry_of_hit hex hr
  rw [cleared, if_pos hframe] at he'
  exact ⟨leafAt_of_route hr' he', pageEntry_of_route hr' he'⟩

end AddressSpace

end ZiqaKernel
