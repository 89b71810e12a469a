/-
The pages in the lower half of the addresses, when the tables that lead to them form a
tree, and what it means that one page has been added to them.
-/
import ZiqaKernel.PageTree

namespace ZiqaKernel

def LowerHalf (v : Nat) : Prop := pageIndex 4 v < 256

theorem lowerHalf_of_lt {v : Nat} (h : v < 0x800000000000) : LowerHalf v := by
  simp only [LowerHalf, pageIndex]
  omega

theorem SamePage.lowerHalf {v w : Nat} (h : SamePage v w) (hv : LowerHalf v) : LowerHalf w := by
  have hindex := samePage_iff.mp h 0 (by decide)
  unfold LowerHalf
  rwa [← hindex]

def PageTableEntry.inUse (e : PageTableEntry) : Option PageTableEntry :=
  if e = .unused then none else some e

/-- The entry of the 4 KiB page at `v`, if it is in use. -/
def pageEntry (t : Tables) (v root : Nat) : Option PageTableEntry :=
  (tableAt t v 4 root 3).bind fun f => (t f (pageIndex 1 v)).inUse

/-- The first `n` entries on the way to the page at `v` let user code pass. -/
def UserWay (t : Tables) (v root n : Nat) : Prop :=
  ∀ j < n, ∀ f, tableAt t v 4 root j = some f →
    (t f (pageIndex (4 - j) v)).flags.userAccessible = true

/-- The tables of the lower half at `root` are a tree: each entry above level one leads to a
table of its own or is not in use.  The frames that the allocator will hand out are neither
tables of it nor mapped there. -/
structure PageSpace (m : PhysMemory) (root : Nat) : Prop where
  tree : TreeShaped LowerHalf m.tables root
  leads : ∀ v, LowerHalf v → ∀ j < 3, ∀ f, tableAt m.tables v 4 root j = some f →
    m.tables f (pageIndex (4 - j) v) = .unused ∨
      ∃ g, (m.tables f (pageIndex (4 - j) v)).frame = some g
  fresh : ∀ v, LowerHalf v → ∀ j < 4, ∀ f ∈ m.free, tableAt m.tables v 4 root j ≠ some f
  nodup : m.free.Nodup
  data : ∀ v e, LowerHalf v → pageEntry m.tables v root = some e → e.addr ∉ m.free

/-- From `m` to `m'` the allocator has handed out `f`, which is no table of the tree. -/
structure FrameTaken (m m' : PhysMemory) (root f : Nat) : Prop where
  space : PageSpace m' root
  taken : f ∉ m'.free
  way : ∀ w, LowerHalf w → ∀ j < 4, tableAt m'.tables w 4 root j = tableAt m.tables w 4 root j ∧
    ∀ x, tableAt m.tables w 4 root j = some x → m'.tables x = m.tables x
  unreached : ∀ w, LowerHalf w → ∀ j < 4, tableAt m'.tables w 4 root j ≠ some f

/-- From `m` to `m'` the page of `v` has got the entry `e`, for which at most `n` frames
were taken. -/
structure PageEntryAdded (m m' : PhysMemory) (root v : Nat) (e : PageTableEntry) (n : Nat) :
    Prop where
  space : PageSpace m' root
  vacant : pageEntry m.tables v root = none
  entry : ∀ w, LowerHalf w → pageEntry m'.tables w root =
    if SamePage v w then some e else pageEntry m.tables w root
  pages : ∀ x, x ∉ m.free → m'.pages x = m.pages x
  user : ∀ w, SamePage v w → e.flags.userAccessible = true → UserWay m'.tables w root 3
  userKept : ∀ w, LowerHalf w → (pageEntry m.tables w root).isSome → UserWay m.tables w root 3 →
    UserWay m'.tables w root 3
  room : m.free.length ≤ m'.free.length + n

section

variable {t t' : Tables} {v w root n f : Nat} {r : Route}

theorem SamePage.tableAt_eq (h : SamePage v w) (root : Nat) {j : Nat} (hj : j ≤ 4) :
    tableAt t v 4 root j = tableAt t w 4 root j := by
  induction j with
  | zero => rfl
  | succ j ih => rw [tableAt_succ hj, tableAt_succ hj, ih (Nat.le_of_succ_le hj),
      samePage_iff.mp h j hj]

theorem SamePage.pageEntry_eq (h : SamePage v w) (root : Nat) :
    pageEntry t v root = pageEntry t w root := by
  rw [pageEntry, pageEntry, h.tableAt_eq root (by decide), samePage_iff.mp h 3 (by decide)]

theorem SamePage.userWay (h : SamePage v w) (hway : UserWay t v root 3) : UserWay t w root 3 := by
  intro j hj f hf
  rw [← samePage_iff.mp h j (by omega)]
  exact hway j hj f ((h.tableAt_eq root (by omega)).trans hf)

theorem pageEntry_of_routeTo (h : routeTo t v 4 root = some r) :
    pageEntry t v root = (t r.frame r.index).inUse := by
  obtain ⟨hframe, hindex⟩ := tableAt_of_routeTo h
  rw [pageEntry, hframe, Option.bind_some, hindex]

theorem pageEntry_congr (h : ∀ j < 4, ∀ f, tableAt t v 4 root j = some f →
      t' f (pageIndex (4 - j) v) = t f (pageIndex (4 - j) v)) :
    pageEntry t' v root = pageEntry t v root := by
  rw [pageEntry, pageEntry, (routeTo_congr fun j hj => h j (by omega)).2 3 le_rfl]
  exact Option.bind_congr fun f hf => congrArg _ (h 3 (by decide) f hf)

theorem pageEntry_of_unused (h : ∀ i, t root i = .unused) : pageEntry t w root = none := by
  simp [pageEntry, tableAt, h, PageTableEntry.unused, PageTableEntry.frame, PageTableFlags.empty]

theorem routeTo_of_tableAt {g : Nat} (h : tableAt t v (n + 1) f n = some g) :
    ∃ r, routeTo t v (n + 1) f = some r ∧ ((∀ j < n, ∀ x, tableAt t v (n + 1) f j = some x →
      (t x (pageIndex (n + 1 - j) v)).flags.userAccessible = true) → r.user = true) := by
  induction n generalizing f with
  | zero => exact ⟨_, rfl, fun _ => rfl⟩
  | succ n ih =>
    rw [tableAt, Option.bind_eq_some_iff] at h
    obtain ⟨k, hframe, h⟩ := h
    obtain ⟨r, hr, huser⟩ := ih h
    refine ⟨Route.under (t f (pageIndex (n + 2) v)) r, by simp [routeTo, hframe, hr], ?_⟩
    intro hway
    rw [Route.under, Bool.and_eq_true]
    refine ⟨hway 0 (Nat.succ_pos n) f rfl, huser fun j hj x hx => ?_⟩
    have hbelow := hway (j + 1) (Nat.succ_lt_succ hj) x (by
      rw [tableAt, hframe, Option.bind_some, hx])
    rwa [Nat.add_sub_add_right] at hbelow

theorem walk_of_pageEntry {e : PageTableEntry} (h : pageEntry t v root = some e)
    (hpresent : e.flags.present = true) (huser : e.flags.userAccessible = true)
    (hway : UserWay t v root 3) :
    ∃ l, walk t v 4 root = some l ∧ l.phys = e.addr * 4096 + v % 4096 ∧ l.user = true := by
  obtain ⟨f, hf, he⟩ := Option.bind_eq_some_iff.mp h
  obtain ⟨r, hr, hpass⟩ := routeTo_of_tableAt hf
  rw [← Option.bind_some (f := fun f => (t f (pageIndex 1 v)).inUse), ← hf] at he
  have hentry := (pageEntry_of_routeTo hr).symm.trans he
  rw [PageTableEntry.inUse] at hentry
  split at hentry
  · cases hentry
  · obtain rfl := Option.some.inj hentry
    rw [walk_of_routeTo hr, if_pos hpresent]
    exact ⟨_, rfl, rfl, by rw [hpass hway, huser]; rfl⟩

theorem FrameTaken.entry {m m' : PhysMemory} (h : FrameTaken m m' root f) (w : Nat)
    (hw : LowerHalf w) : pageEntry m'.tables w root = pageEntry m.tables w root :=
  pageEntry_congr fun j hj _ hx => congrFun ((h.way w hw j hj).2 _ hx) _

theorem FrameTaken.userWay {m m' : PhysMemory} (h : FrameTaken m m' root f) (hw : LowerHalf w)
    (hn : n ≤ 3) (hway : UserWay m.tables w root n) : UserWay m'.tables w root n := by
  intro j hj x hx
  obtain ⟨htable, htables⟩ := h.way w hw j (by omega)
  rw [htable] at hx
  rw [htables x hx]
  exact hway j hj x hx

theorem PageSpace.allocate {m m' : PhysMemory} (h : PageSpace m root)
    (halloc : m.allocateFrame = some (f, m')) : FrameTaken m m' root f := by
  obtain ⟨hfree, -, hkeep⟩ := PhysMemory.allocateFrame_spec halloc
  have hrest : ∀ x ∈ m'.free, x ∈ m.free := fun x hx => hfree ▸ List.mem_cons_of_mem _ hx
  have hfresh : ∀ w, LowerHalf w → ∀ j < 4, tableAt m.tables w 4 root j ≠ some f := fun w hw j hj =>
    h.fresh w hw j hj f (hfree ▸ List.mem_cons_self)
  have hsame : ∀ w, LowerHalf w → ∀ j < 4, ∀ x, tableAt m.tables w 4 root j = some x →
      m'.tables x = m.tables x := by
    intro w hw j hj x hx
    apply hkeep
    rintro rfl
    exact hfresh w hw j hj hx
  have htable : ∀ w, LowerHalf w → ∀ j < 4,
      tableAt m'.tables w 4 root j = tableAt m.tables w 4 root j := fun w hw j hj =>
    (routeTo_congr fun k hk x hx => congrFun (hsame w hw k (by omega) x hx) _).2 j (by omega)
  have hnodup := h.nodup
  rw [hfree, List.nodup_cons] at hnodup
  refine ⟨⟨fun u w hu hw j hj k hk x hux hwx => ?_, fun w hw j hj x hx => ?_,
    fun w hw j hj x hx => ?_, hnodup.2, fun w e hw he hx => ?_⟩, hnodup.1,
    fun w hw j hj => ⟨htable w hw j hj, hsame w hw j hj⟩, fun w hw j hj => ?_⟩
  · rw [htable u hu j hj] at hux
    rw [htable w hw k hk] at hwx
    exact h.tree u w hu hw j hj k hk x hux hwx
  · rw [htable w hw j (by omega)] at hx
    rw [hsame w hw j (by omega) x hx]
    exact h.leads w hw j hj x hx
  · rw [htable w hw j hj]
    exact h.fresh w hw j hj x (hrest x hx)
  · rw [pageEntry_congr fun j hj x hx => congrFun (hsame w hw j hj x hx) _] at he
    exact h.data w e hw he (hrest _ hx)
  · rw [htable w hw j hj]
    exact hfresh w hw j hj

end

end ZiqaKernel
