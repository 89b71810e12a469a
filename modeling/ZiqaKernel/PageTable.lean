/-
Four-level page tables and the frames they live in (`memory/paging.rs`).  A
frame is known by its number; it can be looked at as a page table or as 4096
bytes.  The flags that no modelled function tests are left out.
-/
import ZiqaKernel.ByteImage

namespace ZiqaKernel

open Function

/-- The flags of a page-table entry; `compressed` is `BIT_9`. -/
structure PageTableFlags where
  present : Bool
  writable : Bool
  userAccessible : Bool
  hugePage : Bool
  compressed : Bool
  noExecute : Bool
deriving DecidableEq

def PageTableFlags.empty : PageTableFlags :=
  ⟨false, false, false, false, false, false⟩

structure PageTableEntry where
  addr : Nat
  flags : PageTableFlags
deriving DecidableEq

namespace PageTableEntry

def unused : PageTableEntry := ⟨0, .empty⟩

/-- `PageTableEntry::frame`: there is no frame behind an entry that is not
present or that maps a huge page. -/
def frame (e : PageTableEntry) : Option Nat :=
  if e.flags.present && !e.flags.hugePage then some e.addr else none

/-- The entry without the `WRITABLE` flag. -/
def readonly (e : PageTableEntry) : PageTableEntry :=
  { e with flags := { e.flags with writable := false } }

def isUser (e : PageTableEntry) : Bool := e.flags.present && e.flags.userAccessible

@[simp]
theorem readonly_readonly (e : PageTableEntry) : e.readonly.readonly = e.readonly := rfl

theorem readonly_eq_self {e : PageTableEntry} (h : e.flags.writable = false) : e.readonly = e := by
  rw [readonly, ← h]

end PageTableEntry

abbrev Tables : Type := Nat → Nat → PageTableEntry

def Tables.set (t : Tables) (f i : Nat) (e : PageTableEntry) : Tables :=
  fun g j => if g = f ∧ j = i then e else t g j

variable (t : Tables)

theorem Tables.set_self (f i : Nat) (e : PageTableEntry) : t.set f i e f i = e :=
  if_pos ⟨rfl, rfl⟩

theorem Tables.set_ne {f g i j : Nat} (h : (g, j) ≠ (f, i))
    (e : PageTableEntry) : t.set f i e g j = t g j :=
  if_neg fun hgj => h (Prod.ext hgj.1 hgj.2)

theorem Tables.set_ne_frame {f g : Nat} (h : g ≠ f) (i : Nat)
    (e : PageTableEntry) : t.set f i e g = t g := by
  funext j
  exact if_neg fun hgj => h hgj.1

theorem Tables.set_ne_index (f : Nat) {i j : Nat} (h : j ≠ i)
    (e : PageTableEntry) : t.set f i e f j = t f j :=
  if_neg fun hfj => h hfj.2

/-- The index of address `v` in its table of the given level, as in
`(vaddr >> 39) & 0x1FF` for level four. -/
def pageIndex (level v : Nat) : Nat := v / 4096 / 512 ^ (level - 1) % 512

theorem pageIndex_lt (level v : Nat) : pageIndex level v < 512 :=
  Nat.mod_lt _ (by decide)

theorem pageIndex_low {k n v v' : Nat} (hk : k < n)
    (h : v % (4096 * 512 ^ n) = v' % (4096 * 512 ^ n)) :
    pageIndex (k + 1) v = pageIndex (k + 1) v' := by
  have hlow : ∀ u, pageIndex (k + 1) u = u % (4096 * 512 ^ n) / (4096 * 512 ^ k) % 512 := by
    intro u
    obtain ⟨j, rfl⟩ : ∃ j, n = k + (j + 1) := ⟨n - k - 1, by omega⟩
    rw [pow_add, ← mul_assoc, Nat.mod_mul_right_div_self,
      Nat.mod_mod_of_dvd _ (dvd_pow_self 512 (Nat.succ_ne_zero j)), pageIndex,
      Nat.div_div_eq_div_mul, Nat.add_sub_cancel]
  rw [hlow v, hlow v', h]

theorem exists_address (n v : Nat) {i : Nat} (hi : i < 512) : ∃ v', pageIndex (n + 1) v' = i ∧
      v' % (4096 * 512 ^ n) = v % (4096 * 512 ^ n) := by
  have hpos : 0 < 4096 * 512 ^ n := by positivity
  refine ⟨v % (4096 * 512 ^ n) + 4096 * 512 ^ n * i, ?_, ?_⟩
  · rw [pageIndex, Nat.div_div_eq_div_mul, Nat.add_sub_cancel,
      Nat.add_mul_div_left _ _ hpos, Nat.div_eq_of_lt (Nat.mod_lt _ hpos),
      Nat.zero_add, Nat.mod_eq_of_lt hi]
  · rw [Nat.add_mul_mod_self_left, Nat.mod_mod]

/-- What the hardware finds for an address: the physical address, and whether
user code may access it and write to it. -/
structure Leaf where
  phys : Nat
  user : Bool
  writable : Bool
deriving DecidableEq

/-- An entry above a page restricts what may be done with the page. -/
def Leaf.under (e : PageTableEntry) (l : Leaf) : Leaf :=
  { l with
    user := e.flags.userAccessible && l.user
    writable := e.flags.writable && l.writable }

/-- The leaf that an entry of a table of level `n + 1` maps. -/
def PageTableEntry.leaf (e : PageTableEntry) (n v : Nat) : Leaf where
  phys := e.addr / 512 ^ n * 512 ^ n * 4096 + v % (4096 * 512 ^ n)
  user := e.flags.userAccessible
  writable := e.flags.writable

/-- Does an entry of a table of level `n + 1` map a page? -/
def PageTableEntry.isLeaf (e : PageTableEntry) (n : Nat) : Bool :=
  n = 0 || e.flags.hugePage

/-- The walk of the hardware from an entry of a table of level `n + 1`, when
`next` is the walk from the table below.  There are no huge pages at level
four. -/
def walkEntry (v n : Nat) (next : Nat → Option Leaf) (e : PageTableEntry) : Option Leaf :=
  if e.flags.present then
    if e.isLeaf n then if n < 3 then some (e.leaf n v) else none
    else (next e.addr).map (Leaf.under e)
  else none

def walk (t : Tables) (v : Nat) : Nat → Nat → Option Leaf
  | 0, _ => none
  | n + 1, f => walkEntry v n (walk t v n) (t f (pageIndex (n + 1) v))

/-- The entries that the walk looks at, given by frame and index, below an entry
of a table of level `n + 1`. -/
def pathEntry (n : Nat) (next : Nat → List (Nat × Nat)) (e : PageTableEntry) : List (Nat × Nat) :=
  if e.flags.present && !e.isLeaf n then next e.addr else []

def path (t : Tables) (v : Nat) : Nat → Nat → List (Nat × Nat)
  | 0, _ => []
  | n + 1, f => (f, pageIndex (n + 1) v) :: pathEntry n (path t v n) (t f (pageIndex (n + 1) v))

/-- `get_leaf_entry_mut_in`: the entry of the 4 KiB page at `v`, given by frame
and index.  `get_leaf_entry_mut` starts from the table in `Cr3`. -/
def leafEntry (t : Tables) (v : Nat) : Nat → Nat → Option (Nat × Nat)
  | 0, _ => none
  | 1, f => if (t f (pageIndex 1 v)).flags.present then some (f, pageIndex 1 v)
      else none
  | n + 2, f => (t f (pageIndex (n + 2) v)).frame.bind (leafEntry t v (n + 1))

/-- The physical address that user code reaches at `v`. -/
def userView (w : Option Leaf) : Option Nat :=
  w.bind fun l => if l.user then some l.phys else none

def UserWritable (w : Option Leaf) : Prop :=
  ∃ l, w = some l ∧ l.user = true ∧ l.writable = true

section

variable {t t' : Tables} {v n f : Nat} {e : PageTableEntry} {next next' : Nat → Option Leaf}

theorem walkEntry_of_not_present (h : e.flags.present = false) : walkEntry v n next e = none := by
  simp [walkEntry, h]

theorem walkEntry_of_isLeaf (hp : e.flags.present = true) (hl : e.isLeaf n = true) :
    walkEntry v n next e = if n < 3 then some (e.leaf n v) else none := by
  simp [walkEntry, hp, hl]

theorem walkEntry_of_table (hp : e.flags.present = true) (hl : e.isLeaf n = false) :
    walkEntry v n next e = (next e.addr).map (Leaf.under e) := by
  simp [walkEntry, hp, hl]

theorem pathEntry_of_table {next : Nat → List (Nat × Nat)}
    (hp : e.flags.present = true) (hl : e.isLeaf n = false) :
    pathEntry n next e = next e.addr := by
  simp [pathEntry, hp, hl]

theorem path_frames {P : Nat → Prop} (hf : P f)
    (hnext : ∀ f i g, P f → (t f i).frame = some g → P g) :
    ∀ q ∈ path t v n f, P q.1 := by
  induction n generalizing f with
  | zero => exact fun q hq => absurd hq List.not_mem_nil
  | succ n ih =>
    intro q hq
    rcases List.mem_cons.mp hq with rfl | hq
    · exact hf
    · unfold pathEntry at hq
      split at hq
      · next hcond =>
        have hframe : (t f (pageIndex (n + 1) v)).frame =
            some (t f (pageIndex (n + 1) v)).addr := by
          simp only [PageTableEntry.isLeaf, Bool.not_or, Bool.and_eq_true] at hcond
          simp only [PageTableEntry.frame, hcond.1, hcond.2.2, Bool.and_self, ↓reduceIte]
        exact ih (hnext _ _ _ hf hframe) q hq
      · cases hq

theorem path_low {v' : Nat} (h : ∀ k < n, pageIndex (k + 1) v = pageIndex (k + 1) v') :
    path t v n f = path t v' n f := by
  induction n generalizing f with
  | zero => rfl
  | succ n ih =>
    have hrec : path t v n = path t v' n := by
      funext g
      exact ih fun k hk => h k (Nat.lt_succ_of_lt hk)
    rw [path, path, h n (Nat.lt_succ_self n), hrec]

theorem walk_congr (h : ∀ q ∈ path t v n f, t' q.1 q.2 = t q.1 q.2) :
    walk t' v n f = walk t v n f ∧ path t' v n f = path t v n f := by
  induction n generalizing f with
  | zero => exact ⟨rfl, rfl⟩
  | succ n ih =>
    have hentry : t' f (pageIndex (n + 1) v) = t f (pageIndex (n + 1) v) :=
      h _ List.mem_cons_self
    simp only [walk, path, hentry]
    by_cases hp : (t f (pageIndex (n + 1) v)).flags.present = true
    · by_cases hl : (t f (pageIndex (n + 1) v)).isLeaf n = true
      · simp [walkEntry, pathEntry, hp, hl]
      · rw [Bool.not_eq_true] at hl
        obtain ⟨hwalk, hpath⟩ := ih fun q hq =>
          h q (List.mem_cons_of_mem _ (by rwa [pathEntry_of_table hp hl]))
        rw [walkEntry_of_table hp hl, walkEntry_of_table hp hl,
          pathEntry_of_table hp hl, pathEntry_of_table hp hl, hwalk, hpath]
        exact ⟨rfl, rfl⟩
    · simp [walkEntry, pathEntry, hp]

theorem walkEntry_congr (h : ∀ q ∈ pathEntry n (path t v n) e, t' q.1 q.2 = t q.1 q.2) :
    walkEntry v n (walk t' v n) e = walkEntry v n (walk t v n) e ∧
      pathEntry n (path t' v n) e = pathEntry n (path t v n) e := by
  by_cases htable : e.flags.present = true ∧ e.isLeaf n = false
  · obtain ⟨hp, hl⟩ := htable
    rw [pathEntry_of_table hp hl] at h
    obtain ⟨hwalk, hpath⟩ := walk_congr h
    rw [walkEntry_of_table hp hl, walkEntry_of_table hp hl,
      pathEntry_of_table hp hl, pathEntry_of_table hp hl, hwalk, hpath]
    exact ⟨rfl, rfl⟩
  · rw [not_and, Bool.not_eq_false] at htable
    by_cases hp : e.flags.present = true
    · simp [walkEntry, pathEntry, hp, htable hp]
    · simp [walkEntry, pathEntry, hp]

variable {l : Leaf}

theorem walkEntry_not_user (he : e.flags.userAccessible = false)
    (h : walkEntry v n next e = some l) : l.user = false := by
  unfold walkEntry at h
  split_ifs at h
  · rw [Option.some.injEq] at h
    rw [← h]
    exact he
  · rw [Option.map_eq_some_iff] at h
    obtain ⟨k, -, rfl⟩ := h
    simp [Leaf.under, he]

/-- The page that a walk finds is accessible and writable when every entry on
the way says so. -/
theorem walk_flags (h : walk t v n f = some l) : (l.user = true ↔ ∀ q ∈ path t v n f,
      (t q.1 q.2).flags.userAccessible = true) ∧
    (l.writable = true ↔ ∀ q ∈ path t v n f, (t q.1 q.2).flags.writable = true) ∧
    ∀ q ∈ path t v n f, (t q.1 q.2).flags.present = true := by
  induction n generalizing f l with
  | zero => cases h
  | succ n ih =>
    rw [walk] at h
    rw [path]
    generalize he : t f (pageIndex (n + 1) v) = e at h
    by_cases hp : e.flags.present = true
    · by_cases hl : e.isLeaf n = true
      · rw [walkEntry_of_isLeaf hp hl] at h
        split at h
        · rw [Option.some.injEq] at h
          subst h
          simp [pathEntry, hl, he, hp, PageTableEntry.leaf]
        · cases h
      · rw [Bool.not_eq_true] at hl
        rw [walkEntry_of_table hp hl, Option.map_eq_some_iff] at h
        obtain ⟨l', hl', rfl⟩ := h
        obtain ⟨huser, hwritable, hpresent⟩ := ih hl'
        rw [pathEntry_of_table hp hl]
        simp only [List.forall_mem_cons, he, Leaf.under, Bool.and_eq_true, huser, hwritable]
        exact ⟨trivial, trivial, hp, hpresent⟩
    · rw [Bool.not_eq_true] at hp
      rw [walkEntry_of_not_present hp] at h
      cases h

theorem PageTableEntry.frame_eq_some {g : Nat} (h : e.frame = some g) :
    e.flags.present = true ∧ e.flags.hugePage = false ∧ e.addr = g := by
  unfold PageTableEntry.frame at h
  split at h
  · next hcond =>
    rw [Bool.and_eq_true, Bool.not_eq_true'] at hcond
    exact ⟨hcond.1, hcond.2, Option.some.inj h⟩
  · cases h

theorem PageTableEntry.isLeaf_of_frame {g : Nat} (h : e.frame = some g) :
    e.isLeaf (n + 1) = false := by
  simp [PageTableEntry.isLeaf, (PageTableEntry.frame_eq_some h).2.1]

theorem leafEntry_spec {q : Nat × Nat} (h : leafEntry t v n f = some q) :
    q ∈ path t v n f ∧ ∃ l, walk t v n f = some l ∧
      l.phys = (t q.1 q.2).addr * 4096 + v % 4096 := by
  induction n generalizing f with
  | zero => cases h
  | succ n ih =>
    cases n with
    | zero =>
      rw [leafEntry] at h
      split at h
      · next hp =>
        obtain rfl := Option.some.inj h
        refine ⟨List.mem_cons_self, _, walkEntry_of_isLeaf hp rfl, ?_⟩
        simp [PageTableEntry.leaf]
      · cases h
    | succ n =>
      rw [leafEntry, Option.bind_eq_some_iff] at h
      obtain ⟨g, hframe, h⟩ := h
      obtain ⟨hp, -, haddr⟩ := PageTableEntry.frame_eq_some hframe
      have hleaf := PageTableEntry.isLeaf_of_frame (n := n) hframe
      obtain ⟨hmem, l, hwalk, hphys⟩ := ih h
      rw [path, walk, pathEntry_of_table hp hleaf, walkEntry_of_table hp hleaf, haddr, hwalk]
      exact ⟨List.mem_cons_of_mem _ hmem, _, rfl, hphys⟩

theorem leafEntry_present {q : Nat × Nat} (h : leafEntry t v n f = some q) :
    (t q.1 q.2).flags.present = true := by
  obtain ⟨hq, l, hwalk, -⟩ := leafEntry_spec h
  exact (walk_flags hwalk).2.2 q hq

theorem exists_leafEntry (h : walk t v n f = some l)
    (hhuge : ∀ q ∈ path t v n f, (t q.1 q.2).flags.hugePage = false) :
    ∃ q, leafEntry t v n f = some q := by
  induction n generalizing f l with
  | zero => cases h
  | succ n ih =>
    have hp := (walk_flags h).2.2 _ List.mem_cons_self
    have hh := hhuge _ List.mem_cons_self
    cases n with
    | zero => exact ⟨_, if_pos hp⟩
    | succ n =>
      have hframe : (t f (pageIndex (n + 2) v)).frame = some (t f (pageIndex (n + 2) v)).addr := by
        simp only [PageTableEntry.frame, hp, hh, Bool.not_false, Bool.and_self, ↓reduceIte]
      have hleaf := PageTableEntry.isLeaf_of_frame (n := n) hframe
      rw [walk, walkEntry_of_table hp hleaf, Option.map_eq_some_iff] at h
      obtain ⟨k, hk, -⟩ := h
      rw [path, pathEntry_of_table hp hleaf] at hhuge
      obtain ⟨q, hq⟩ := ih hk fun q hq => hhuge q (List.mem_cons_of_mem _ hq)
      exact ⟨q, by rw [leafEntry, hframe, Option.bind_some, hq]⟩

end

/-- The frames of the machine, seen as tables and as bytes, with the frames that
the allocator will hand out, in order. -/
structure PhysMemory where
  tables : Tables
  pages : Nat → Image 4096
  free : List Nat

namespace PhysMemory

def setEntry (m : PhysMemory) (f i : Nat) (e : PageTableEntry) : PhysMemory :=
  { m with tables := m.tables.set f i e }

/-- `allocate_frame`.  The frame is zeroed by the allocator. -/
def allocateFrame (m : PhysMemory) : Option (Nat × PhysMemory) :=
  match m.free with
  | [] => none
  | f :: rest => some (f, {
      tables := update m.tables f fun _ => .unused
      pages := update m.pages f Image.zero
      free := rest })

theorem allocateFrame_spec {m m' : PhysMemory} {f : Nat} (h : m.allocateFrame = some (f, m')) :
    m.free = f :: m'.free ∧ (∀ i, m'.tables f i = .unused) ∧
      ∀ g, g ≠ f → m'.tables g = m.tables g := by
  unfold allocateFrame at h
  split at h
  · cases h
  · next g rest hfree =>
    obtain ⟨rfl, rfl⟩ := Prod.mk.inj (Option.some.inj h)
    refine ⟨hfree, fun i => ?_, fun f hf => ?_⟩
    · dsimp only
      rw [update_self]
    · exact update_of_ne hf ..

theorem pages_allocateFrame {m m' : PhysMemory} {f g : Nat} (h : m.allocateFrame = some (f, m'))
    (hg : g ≠ f) : m'.pages g = m.pages g := by
  unfold allocateFrame at h
  split at h
  · cases h
  · obtain ⟨rfl, rfl⟩ := Prod.mk.inj (Option.some.inj h)
    exact update_of_ne hg ..

end PhysMemory

end ZiqaKernel
