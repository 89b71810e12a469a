/-
The page-table side of `fork` (`memory/paging.rs`): the pages of the parent are
write-protected and its tables are cloned for the child.
-/
import ZiqaKernel.PageTable

namespace ZiqaKernel

open PageTableEntry Tables Function

/-- The inner loop of `make_user_leaf_readonly` over a table of level one. -/
def protectTable (t : Tables) (f : Nat) : Tables :=
  (List.range 512).foldl (fun t i =>
    if (t f i).isUser && (t f i).flags.writable then t.set f i (t f i).readonly
    else t) t

/-- A loop of `make_user_leaf_readonly` over the first `count` entries of a
table above level one.  The loops over levels four and two skip huge pages; the
loop over level three leaves that to `frame`. -/
def visitTables (count : Nat) (skipHuge : Bool) (visit : Tables → Nat → Tables)
    (t : Tables) (f : Nat) : Tables :=
  (List.range count).foldl (fun t i =>
    if (t f i).isUser then
      if skipHuge && (t f i).flags.hugePage then t
      else
        match (t f i).frame with
        | some g => visit t g
        | none => t
    else t) t

/-- `make_user_leaf_readonly`. -/
def makeUserLeafReadonly (t : Tables) (root : Nat) : Tables :=
  visitTables 256 true (visitTables 512 false (visitTables 512 true protectTable)) t root

/-- One round of the loop of `clone_user_table_tree`, for a table of level
`level` at `src` and its copy at `new`; `clone` copies the tables below. -/
def cloneEntry (clone : Nat → PhysMemory → Option Nat × PhysMemory)
    (level src new : Nat) (m : PhysMemory) (i : Nat) : PhysMemory :=
  let e := m.tables src i
  if level = 4 ∧ 256 ≤ i then m.setEntry new i e
  else if !e.flags.present then m
  else if !e.flags.userAccessible then m
  else if 1 < level ∧ e.flags.hugePage then m.setEntry new i e.readonly
  else if level = 1 then m.setEntry new i e.readonly
  else
    match e.frame with
    | none => m
    | some child =>
      match clone child m with
      | (some cloned, m') =>
        m'.setEntry new i ⟨cloned, (m'.tables src i).flags⟩
      | (none, m') => m'.setEntry new i (m'.tables src i)

/-- `clone_user_table_tree` for a table of level `n + 1`. -/
def cloneUserTableTree : Nat → Nat → PhysMemory → Option Nat × PhysMemory
  | 0, _, m => (none, m)
  | n + 1, src, m =>
    match m.allocateFrame with
    | none => (none, m)
    | some (new, m') =>
      (some new, (List.range 512).foldl (cloneEntry (cloneUserTableTree n) (n + 1) src new) m')

/-- `cow_fork_parent`, with the root table that `Cr3` holds. -/
def cowForkParent (root : Nat) (m : PhysMemory) : Option Nat × PhysMemory :=
  cloneUserTableTree 4 root { m with tables := makeUserLeafReadonly m.tables root }

/-! Write protection -/

section

variable {t t' t'' : Tables} {S S' : Nat × Nat → Prop}

/-- From `t` to `t'` the entries in `S` have lost their `WRITABLE` flag. -/
structure Clears (S : Nat × Nat → Prop) (t t' : Tables) : Prop where
  inside : ∀ f i, S (f, i) → t' f i = (t f i).readonly
  outside : ∀ f i, ¬ S (f, i) → t' f i = t f i

theorem Clears.nothing (t : Tables) : Clears (fun _ => False) t t :=
  ⟨fun _ _ h => h.elim, fun _ _ _ => rfl⟩

theorem Clears.congr (h : Clears S t t') (hS : ∀ q, S' q ↔ S q) : Clears S' t t' :=
  ⟨fun f i hq => h.inside f i ((hS _).mp hq),
    fun f i hq => h.outside f i fun hq' => hq ((hS _).mpr hq')⟩

theorem Clears.trans (h : Clears S t t') (h' : Clears S' t' t'') :
    Clears (fun q => S q ∨ S' q) t t'' := by
  classical
  refine ⟨fun f i hq => ?_, fun f i hq => ?_⟩
  · by_cases hS' : S' (f, i)
    · rw [h'.inside f i hS']
      by_cases hS : S (f, i)
      · rw [h.inside f i hS, readonly_readonly]
      · rw [h.outside f i hS]
    · rw [h'.outside f i hS', h.inside f i (hq.resolve_right hS')]
  · rw [h'.outside f i fun hS' => hq (Or.inr hS'), h.outside f i fun hS => hq (Or.inl hS)]

/-- Two tables that differ in `WRITABLE` flags only. -/
def SameShape (t t' : Tables) : Prop := ∀ f i, (t' f i).readonly = (t f i).readonly

theorem Clears.sameShape (h : Clears S t t') : SameShape t t' := by
  classical
  intro f i
  by_cases hq : S (f, i)
  · rw [h.inside f i hq, readonly_readonly]
  · rw [h.outside f i hq]

theorem SameShape.isUser (h : SameShape t t') (f i : Nat) : (t' f i).isUser = (t f i).isUser := by
  have heq : (t' f i).readonly.isUser = (t f i).readonly.isUser := by rw [h f i]
  exact heq

theorem SameShape.frame (h : SameShape t t') (f i : Nat) : (t' f i).frame = (t f i).frame := by
  have heq : (t' f i).readonly.frame = (t f i).readonly.frame := by rw [h f i]
  exact heq

/-- A loop each round of which clears flags clears those of all rounds, when the
flags a round clears are known from the shape. -/
theorem Clears.foldl {step : Tables → Nat → Tables} {S : Tables → Nat → Nat × Nat → Prop}
    (hstep : ∀ t i, Clears (S t i) t (step t i))
    (hshape : ∀ t t' i q, SameShape t t' → (S t' i q ↔ S t i q))
    (items : List Nat) (t : Tables) :
    Clears (fun q => ∃ i ∈ items, S t i q) t (items.foldl step t) := by
  induction items generalizing t with
  | nil => exact (Clears.nothing t).congr (by simp)
  | cons i items ih =>
    have hfirst := hstep t i
    refine (hfirst.trans (ih (step t i))).congr fun q => ?_
    simp only [List.exists_mem_cons_iff, hshape t _ _ q hfirst.sameShape]

def tableEntries (t : Tables) (f : Nat) (q : Nat × Nat) : Prop :=
  ∃ i < 512, (t f i).isUser = true ∧ q = (f, i)

/-- The entries `inner` of the tables that the first `count` entries of a table
lead user code to. -/
def entriesBelow (count : Nat) (inner : Tables → Nat → Nat × Nat → Prop)
    (t : Tables) (f : Nat) (q : Nat × Nat) : Prop :=
  ∃ i < count, (t f i).isUser = true ∧ ∃ g, (t f i).frame = some g ∧ inner t g q

/-- The entries of the 4 KiB pages of user code in the lower half. -/
def UserPageEntry (t : Tables) (root : Nat) : Nat × Nat → Prop :=
  entriesBelow 256 (entriesBelow 512 (entriesBelow 512 tableEntries)) t root

/-- A family of sets of entries that is known from the shape of the tables. -/
def ShapeOnly (inner : Tables → Nat → Nat × Nat → Prop) : Prop :=
  ∀ t t' f q, SameShape t t' → (inner t' f q ↔ inner t f q)

theorem tableEntries_shapeOnly : ShapeOnly tableEntries := by
  intro t t' f q h
  simp only [tableEntries, h.isUser]

variable {inner : Tables → Nat → Nat × Nat → Prop}

theorem entriesBelow_shapeOnly (hinner : ShapeOnly inner) (count : Nat) :
    ShapeOnly (entriesBelow count inner) := by
  intro t t' f q h
  simp only [entriesBelow, h.isUser, h.frame, hinner t t' _ q h]

theorem protectEntry_clears (t : Tables) (f i : Nat) :
    Clears (fun q => (t f i).isUser = true ∧ q = (f, i)) t
      (if (t f i).isUser && (t f i).flags.writable then t.set f i (t f i).readonly
      else t) := by
  by_cases hwrite : ((t f i).isUser && (t f i).flags.writable) = true
  · rw [if_pos hwrite]
    rw [Bool.and_eq_true] at hwrite
    refine ⟨fun g j hq => ?_, fun g j hq => set_ne t ?_ _⟩
    · obtain ⟨rfl, rfl⟩ := Prod.mk.inj hq.2
      exact t.set_self g j _
    · exact fun heq => hq ⟨hwrite.1, heq⟩
  · rw [if_neg hwrite]
    refine ⟨fun g j hq => ?_, fun _ _ _ => rfl⟩
    obtain ⟨rfl, rfl⟩ := Prod.mk.inj hq.2
    rw [hq.1, Bool.true_and, Bool.not_eq_true] at hwrite
    exact (PageTableEntry.readonly_eq_self hwrite).symm

theorem protectTable_clears (t : Tables) (f : Nat) :
    Clears (tableEntries t f) t (protectTable t f) := by
  refine (Clears.foldl (fun t i => protectEntry_clears t f i) ?_ _ t).congr fun q => ?_
  · intro t t' i q h
    rw [h.isUser]
  · simp only [tableEntries, List.mem_range]

theorem visitTables_clears {visit : Tables → Nat → Tables} (count : Nat) (skipHuge : Bool)
    (hvisit : ∀ t f, Clears (inner t f) t (visit t f))
    (hinner : ShapeOnly inner) (t : Tables) (f : Nat) :
    Clears (entriesBelow count inner t f) t (visitTables count skipHuge visit t f) := by
  refine (Clears.foldl (S := fun t i q => (t f i).isUser = true ∧
    ∃ g, (t f i).frame = some g ∧ inner t g q) (fun t i => ?_) ?_ _ t).congr fun q => ?_
  · by_cases huser : (t f i).isUser = true
    · cases hframe : (t f i).frame with
      | none => simpa [huser] using Clears.nothing t
      | some g =>
        -- an entry with a frame does not map a huge page
        have hhuge : (t f i).flags.hugePage = false := by
          by_contra hhuge
          rw [Bool.not_eq_false] at hhuge
          simp [PageTableEntry.frame, hhuge] at hframe
        simpa [huser, hhuge] using hvisit t g
    · simpa [huser] using Clears.nothing t
  · intro t t' i q h
    simp only [h.isUser, h.frame, hinner t t' _ q h]
  · simp only [entriesBelow, List.mem_range]

/-- `make_user_leaf_readonly` clears the `WRITABLE` flag of the entries of 4 KiB
user pages, and nothing else. -/
theorem makeUserLeafReadonly_clears (t : Tables) (root : Nat) :
    Clears (UserPageEntry t root) t (makeUserLeafReadonly t root) := by
  have hlow := tableEntries_shapeOnly
  have hmid := entriesBelow_shapeOnly hlow 512
  exact visitTables_clears 256 true (visitTables_clears 512 false
    (visitTables_clears 512 true protectTable_clears hlow) hmid)
      (entriesBelow_shapeOnly hmid 512) t root

variable {v n f : Nat}

theorem SameShape.entry (h : SameShape t t') (f i : Nat) : (t' f i).addr = (t f i).addr ∧
      (t' f i).flags.present = (t f i).flags.present ∧
      (t' f i).flags.userAccessible = (t f i).flags.userAccessible ∧
      (t' f i).flags.hugePage = (t f i).flags.hugePage := by
  have heq := h f i
  simp only [readonly, mk.injEq, PageTableFlags.mk.injEq] at heq
  exact ⟨heq.1, heq.2.1, heq.2.2.2.1, heq.2.2.2.2.1⟩

theorem SameShape.walk_eq (h : SameShape t t') : path t' v n f = path t v n f ∧
      (walk t' v n f).map (fun l => (l.phys, l.user)) =
        (walk t v n f).map (fun l => (l.phys, l.user)) := by
  induction n generalizing f with
  | zero => exact ⟨rfl, rfl⟩
  | succ n ih =>
    obtain ⟨haddr, hpresent, huser, hhuge⟩ := h.entry f (pageIndex (n + 1) v)
    rw [path, path, walk, walk]
    generalize t' f (pageIndex (n + 1) v) = e' at *
    generalize t f (pageIndex (n + 1) v) = e at *
    have hleaf : e'.isLeaf n = e.isLeaf n := by
      rw [isLeaf, hhuge, isLeaf]
    by_cases hp : e.flags.present = true
    · by_cases hl : e.isLeaf n = true
      · simp [pathEntry, walkEntry, hpresent, hp, hleaf, hl, leaf, haddr, huser]
      · rw [Bool.not_eq_true] at hl
        obtain ⟨hpath, hwalk⟩ := ih (f := e.addr)
        rw [pathEntry_of_table (hpresent.trans hp) (hleaf.trans hl), pathEntry_of_table hp hl,
          walkEntry_of_table (hpresent.trans hp) (hleaf.trans hl),
          walkEntry_of_table hp hl, haddr, hpath]
        have hunder := congrArg (Option.map fun l =>
          (l.1, e.flags.userAccessible && l.2)) hwalk
        simp only [Option.map_map] at hunder ⊢
        simpa [Function.comp_def, Leaf.under, huser] using hunder
    · simp [pathEntry, walkEntry, hpresent, hp]

theorem SameShape.userView_eq (h : SameShape t t') :
    userView (walk t' v n f) = userView (walk t v n f) := by
  have hview : ∀ w, userView w = (w.map fun l => (l.phys, l.user)).bind
      fun p => if p.2 then some p.1 else none := by
    intro w
    cases w <;> rfl
  rw [hview, hview, h.walk_eq.2]

/-- What stays writable for user code: the pages on the way to which no entry
has been cleared. -/
theorem Clears.userWritable_iff (h : Clears S t t') : UserWritable (walk t' v n f) ↔
      UserWritable (walk t v n f) ∧ ∀ q ∈ path t v n f, ¬ S q := by
  obtain ⟨hpath, hmap⟩ := h.sameShape.walk_eq (v := v) (n := n) (f := f)
  have hkept : ∀ q ∈ path t v n f, (t' q.1 q.2).flags.writable = true ↔
      (t q.1 q.2).flags.writable = true ∧ ¬ S q := by
    intro q _
    by_cases hq : S q
    · simp [h.inside q.1 q.2 hq, readonly, hq]
    · simp [h.outside q.1 q.2 hq, hq]
  have hall : (∀ q ∈ path t' v n f, (t' q.1 q.2).flags.writable = true) ↔
      (∀ q ∈ path t v n f, (t q.1 q.2).flags.writable = true) ∧ ∀ q ∈ path t v n f, ¬ S q := by
    rw [hpath, ← forall₂_and]
    exact forall₂_congr hkept
  constructor
  · rintro ⟨l', hwalk', huser', hwritable'⟩
    rw [hwalk', Option.map_some, eq_comm, Option.map_eq_some_iff] at hmap
    obtain ⟨l, hwalk, hl⟩ := hmap
    have hentries := hall.mp ((walk_flags hwalk').2.1.mp hwritable')
    exact ⟨⟨l, hwalk, (Prod.mk.inj hl).2.trans huser',
      (walk_flags hwalk).2.1.mpr hentries.1⟩, hentries.2⟩
  · rintro ⟨⟨l, hwalk, huser, hwritable⟩, hclear⟩
    rw [hwalk, Option.map_some, Option.map_eq_some_iff] at hmap
    obtain ⟨l', hwalk', hl⟩ := hmap
    have hentries := hall.mpr ⟨(walk_flags hwalk).2.1.mp hwritable, hclear⟩
    exact ⟨l', hwalk', (Prod.mk.inj hl).2.trans huser, (walk_flags hwalk').2.1.mpr hentries⟩

theorem isUser_of_walk {l : Leaf} (h : walk t v n f = some l) (huser : l.user = true) :
    ∀ q ∈ path t v n f, (t q.1 q.2).isUser = true := by
  obtain ⟨hiff, -, hpresent⟩ := walk_flags h
  intro q hq
  rw [isUser, Bool.and_eq_true]
  exact ⟨hpresent q hq, hiff.mp huser q hq⟩

theorem tableEntries_of_leafEntry {q : Nat × Nat} (h : leafEntry t v 1 f = some q)
    (huser : ∀ q ∈ path t v 1 f, (t q.1 q.2).isUser = true) : tableEntries t f q := by
  rw [leafEntry] at h
  split at h
  · exact ⟨pageIndex 1 v, pageIndex_lt 1 v, huser _ List.mem_cons_self, (Option.some.inj h).symm⟩
  · cases h

theorem entriesBelow_of_leafEntry {q : Nat × Nat} {count : Nat}
    (hinner : ∀ g, leafEntry t v (n + 1) g = some q →
      (∀ q ∈ path t v (n + 1) g, (t q.1 q.2).isUser = true) → inner t g q)
    (h : leafEntry t v (n + 2) f = some q)
    (huser : ∀ q ∈ path t v (n + 2) f, (t q.1 q.2).isUser = true)
    (hcount : pageIndex (n + 2) v < count) : entriesBelow count inner t f q := by
  rw [leafEntry, Option.bind_eq_some_iff] at h
  obtain ⟨g, hframe, h⟩ := h
  obtain ⟨hp, -, haddr⟩ := frame_eq_some hframe
  refine ⟨pageIndex (n + 2) v, hcount, huser _ List.mem_cons_self, g, hframe,
    hinner g h fun q hq => huser q ?_⟩
  rw [path, pathEntry_of_table hp (isLeaf_of_frame hframe), haddr]
  exact List.mem_cons_of_mem _ hq

/-- The entry of a 4 KiB user page in the lower half is one that
`make_user_leaf_readonly` reaches. -/
theorem userPageEntry_of_leafEntry {root : Nat} {q : Nat × Nat} {l : Leaf}
    (h : leafEntry t v 4 root = some q) (hwalk : walk t v 4 root = some l)
    (huser : l.user = true) (hlow : pageIndex 4 v < 256) : UserPageEntry t root q :=
  entriesBelow_of_leafEntry (fun _ h3 huser3 =>
    entriesBelow_of_leafEntry (fun _ h2 huser2 =>
      entriesBelow_of_leafEntry (fun _ h1 huser1 =>
        tableEntries_of_leafEntry h1 huser1) h2 huser2 (pageIndex_lt 2 v))
      h3 huser3 (pageIndex_lt 3 v)) h (isUser_of_walk hwalk huser) hlow

end

/-! Cloning -/

section

variable {t t' : Tables} {v n f : Nat} {e e' : PageTableEntry}

/-- One walk shows user code what another one shows, and lets it write at most
where the other one does. -/
structure Mirrors (w' w : Option Leaf) : Prop where
  view : userView w' = userView w
  writable : UserWritable w' → UserWritable w

theorem Mirrors.refl (w : Option Leaf) : Mirrors w w := ⟨rfl, id⟩

theorem mirrors_none {w : Option Leaf} (h : ∀ l, w = some l → l.user = false) : Mirrors none w where
  view := by
    cases w with
    | none => rfl
    | some l => simp [userView, h l rfl]
  writable := by
    rintro ⟨l, hl, -⟩
    cases hl

theorem Mirrors.under {w w' : Option Leaf} (h : Mirrors w' w)
    (hflags : e'.flags = e.flags) (huser : e.flags.userAccessible = true) :
    Mirrors (w'.map (Leaf.under e')) (w.map (Leaf.under e)) where
  view := by
    have hview : ∀ (d : PageTableEntry) (u : Option Leaf),
        d.flags.userAccessible = true → userView (u.map (Leaf.under d)) = userView u := by
      intro d u hd
      cases u with
      | none => rfl
      | some l => simp [userView, Leaf.under, hd]
    rw [hview e' w' (hflags ▸ huser), hview e w huser, h.view]
  writable := by
    rintro ⟨l, hl, hluser, hlwritable⟩
    rw [Option.map_eq_some_iff] at hl
    obtain ⟨k, hk, rfl⟩ := hl
    simp only [Leaf.under, hflags, Bool.and_eq_true] at hluser hlwritable
    obtain ⟨k', hk', hkuser, hkwritable⟩ := h.writable ⟨k, hk, hluser.2, hlwritable.2⟩
    refine ⟨_, by rw [hk', Option.map_some], ?_, ?_⟩
    · simp [Leaf.under, huser, hkuser]
    · simp [Leaf.under, hlwritable.1, hkwritable]

theorem mirrors_readonly {next next' : Nat → Option Leaf} (hleaf : e.isLeaf n = true) :
    Mirrors (walkEntry v n next' e.readonly) (walkEntry v n next e) := by
  have hleaf' : e.readonly.isLeaf n = true := hleaf
  by_cases hp : e.flags.present = true
  · have hp' : e.readonly.flags.present = true := hp
    rw [walkEntry_of_isLeaf hp hleaf, walkEntry_of_isLeaf hp' hleaf']
    split
    · refine ⟨rfl, ?_⟩
      rintro ⟨l, hl, -, hwritable⟩
      rw [Option.some.injEq] at hl
      subst hl
      cases hwritable
    · exact Mirrors.refl none
  · rw [Bool.not_eq_true] at hp
    have hp' : e.readonly.flags.present = false := hp
    rw [walkEntry_of_not_present hp, walkEntry_of_not_present hp']
    exact Mirrors.refl none

/-- From `m` to `m'` frames have been taken from the free list, and no others have
changed. -/
structure Allocates (m m' : PhysMemory) : Prop where
  suffix : m'.free <:+ m.free
  tables : ∀ f, f ∉ m.free → m'.tables f = m.tables f

theorem Allocates.refl (m : PhysMemory) : Allocates m m :=
  ⟨List.suffix_rfl, fun _ _ => rfl⟩

theorem Allocates.not_mem {m m' : PhysMemory} (h : Allocates m m') {f : Nat}
    (hf : f ∉ m.free) : f ∉ m'.free :=
  fun hmem => hf (h.suffix.subset hmem)

/-- A copy of the entry on the way from `src` to `v`, in a copy of the table at `new`.  The
copied tables below it lie outside the frames that the rest of the copy will write. -/
structure CopiedEntry (m m' : PhysMemory) (n src new v : Nat) (e : PageTableEntry) : Prop where
  mirrors : Mirrors (walkEntry v n (walk m'.tables v n) e) (walk m.tables v (n + 1) src)
  away : ∀ q ∈ pathEntry n (path m'.tables v n) e, q.1 ≠ new ∧ q.1 ∉ m'.free
  origin : ∀ q ∈ pathEntry n (path m'.tables v n) e,
    q.1 ∈ m.free ∨ q ∈ path m.tables v (n + 1) src

/-- The copy of the table `src` of level `n + 1` at `new`, when the entries
`done` have been copied. -/
structure Cloning (m m' : PhysMemory) (n src new : Nat) (done : List Nat) : Prop where
  suffix : m'.free <:+ m.free
  tables : ∀ f, f ∉ m.free → f ≠ new → m'.tables f = m.tables f
  todo : ∀ i, i ∉ done → m'.tables new i = .unused
  copied : ∀ v, pageIndex (n + 1) v ∈ done →
    CopiedEntry m m' n src new v (m'.tables new (pageIndex (n + 1) v))
  kernel : ∀ i ∈ done, n = 3 → 256 ≤ i → m'.tables new i = m.tables src i

variable {m m' m'' : PhysMemory} {src new i : Nat} {done : List Nat}

/-- The rest of the copy leaves a copied entry alone. -/
theorem CopiedEntry.frame (h : CopiedEntry m m' n src new v e) (hfree : m''.free <:+ m'.free)
    (htables : ∀ f, f ≠ new → f ∉ m'.free → m''.tables f = m'.tables f) :
    CopiedEntry m m'' n src new v e := by
  obtain ⟨hwalk, hpath⟩ : walkEntry v n (walk m''.tables v n) e =
      walkEntry v n (walk m'.tables v n) e ∧
      pathEntry n (path m''.tables v n) e = pathEntry n (path m'.tables v n) e :=
    walkEntry_congr fun q hq => congrFun (htables q.1 (h.away q hq).1 (h.away q hq).2) q.2
  refine ⟨hwalk ▸ h.mirrors, hpath ▸ fun q hq => ?_, hpath ▸ h.origin⟩
  exact ⟨(h.away q hq).1, fun hmem => (h.away q hq).2 (hfree.subset hmem)⟩

/-- The source table and the new frame: the tables that the source leads to are
not free, and the new frame is neither free nor one of them. -/
structure CloneSetup (m : PhysMemory) (n src new : Nat) : Prop where
  nodup : m.free.Nodup
  fresh : new ∉ m.free
  source : ∀ v, ∀ q ∈ path m.tables v (n + 1) src, q.1 ≠ new ∧ q.1 ∉ m.free

theorem CloneSetup.src_away (h : CloneSetup m n src new) : src ≠ new ∧ src ∉ m.free :=
  h.source 0 (src, pageIndex (n + 1) 0) List.mem_cons_self

section

variable (h : Cloning m m' n src new done)
include h

theorem Cloning.source_eq
    (hset : CloneSetup m n src new) (v : Nat) :
    walk m'.tables v (n + 1) src = walk m.tables v (n + 1) src ∧
      path m'.tables v (n + 1) src = path m.tables v (n + 1) src :=
  walk_congr fun q hq => by
    obtain ⟨hne, hfree⟩ := hset.source v q hq
    rw [h.tables q.1 hfree hne]

theorem Cloning.entry_eq
    (hset : CloneSetup m n src new) (i : Nat) : m'.tables src i = m.tables src i := by
  rw [h.tables src hset.src_away.2 hset.src_away.1]

theorem Cloning.skip (hi : i ∉ done) (hkernel : n = 3 → ¬ 256 ≤ i)
    (hnone : ∀ v l, pageIndex (n + 1) v = i →
      walk m.tables v (n + 1) src = some l → l.user = false) :
    Cloning m m' n src new (i :: done) where
  suffix := h.suffix
  tables := h.tables
  todo j hj := h.todo j fun hmem => hj (List.mem_cons_of_mem i hmem)
  copied v hv := by
    rcases List.mem_cons.mp hv with hv | hv
    · rw [hv, h.todo i hi]
      refine ⟨?_, ?_, ?_⟩
      · rw [walkEntry_of_not_present rfl]
        exact mirrors_none fun l => hnone v l hv
      · exact fun q hq => absurd hq List.not_mem_nil
      · exact fun q hq => absurd hq List.not_mem_nil
    · exact h.copied v hv
  kernel j hj hn := by
    rcases List.mem_cons.mp hj with rfl | hj
    · exact fun hle => absurd hle (hkernel hn)
    · exact h.kernel j hj hn

theorem Cloning.setEntry
    (hset : CloneSetup m n src new) (halloc : Allocates m' m'') (hi : i ∉ done)
    {e : PageTableEntry}
    (hcopied : ∀ v, pageIndex (n + 1) v = i → CopiedEntry m m'' n src new v e)
    (hkernel : n = 3 → 256 ≤ i → e = m.tables src i) :
    Cloning m (m''.setEntry new i e) n src new (i :: done) := by
  have hfree : new ∉ m'.free := fun hmem => hset.fresh (h.suffix.subset hmem)
  have hnew : m''.tables new = m'.tables new := halloc.tables new hfree
  have hold : ∀ j ∈ done, (m''.setEntry new i e).tables new j = m'.tables new j := by
    intro j hj
    have hne : j ≠ i := fun heq => hi (heq ▸ hj)
    exact (set_ne_index _ _ hne e).trans (congrFun hnew _)
  -- what is copied stays copied when the entry is set
  have hframe : ∀ {v : Nat} {d : PageTableEntry}, CopiedEntry m m'' n src new v d →
      CopiedEntry m (m''.setEntry new i e) n src new v d := fun hcopy =>
    hcopy.frame List.suffix_rfl fun f hf _ => set_ne_frame _ hf i e
  refine ⟨halloc.suffix.trans h.suffix, fun f hf hne => ?_, fun j hj => ?_,
    fun v hv => ?_, fun j hj hn hle => ?_⟩
  · have hf' : f ∉ m'.free := fun hmem => hf (h.suffix.subset hmem)
    rw [← h.tables f hf hne, ← halloc.tables f hf']
    exact set_ne_frame _ hne i e
  · rw [List.mem_cons, not_or] at hj
    rw [← h.todo j hj.2, ← congrFun hnew j]
    exact set_ne_index _ _ hj.1 e
  · apply hframe
    rcases List.mem_cons.mp hv with hv | hv
    · have hself : (m''.setEntry new i e).tables new i = e := set_self ..
      rw [hv, hself]
      exact hcopied v hv
    · rw [hold _ hv]
      exact (h.copied v hv).frame halloc.suffix fun f _ => halloc.tables f
  · rcases List.mem_cons.mp hj with rfl | hj
    · exact (set_self ..).trans (hkernel hn hle)
    · rw [← h.kernel j hj hn hle, hold j hj]

theorem Cloning.share
    (hset : CloneSetup m n src new) (halloc : Allocates m' m'') (hi : i ∉ done) :
    Cloning m (m''.setEntry new i (m''.tables src i)) n src new (i :: done) := by
  have hsrc : m''.tables src i = m.tables src i := by
    have hfree : src ∉ m'.free := fun hmem =>
      hset.src_away.2 (h.suffix.subset hmem)
    rw [halloc.tables src hfree, h.entry_eq hset]
  -- the tables below the entry are those of the source
  have hsame : ∀ v, pageIndex (n + 1) v = i → walkEntry v n (walk m''.tables v n) (m.tables src i) =
          walkEntry v n (walk m.tables v n) (m.tables src i) ∧
        pathEntry n (path m''.tables v n) (m.tables src i) =
          pathEntry n (path m.tables v n) (m.tables src i) := by
    intro v hv
    refine walkEntry_congr fun q hq => ?_
    obtain ⟨hne, hfree⟩ := hset.source v q (List.mem_cons_of_mem _ (hv ▸ hq))
    have hfree' : q.1 ∉ m'.free := fun hmem => hfree (h.suffix.subset hmem)
    rw [halloc.tables q.1 hfree', h.tables q.1 hfree hne]
  rw [hsrc]
  have hpath : ∀ v, pageIndex (n + 1) v = i →
      ∀ q ∈ pathEntry n (path m''.tables v n) (m.tables src i),
        q ∈ path m.tables v (n + 1) src := by
    intro v hv q hq
    rw [(hsame v hv).2] at hq
    exact List.mem_cons_of_mem _ (hv ▸ hq)
  refine h.setEntry hset halloc hi (fun v hv => ⟨?_, fun q hq => ?_,
    fun q hq => Or.inr (hpath v hv q hq)⟩) fun _ _ => rfl
  · rw [(hsame v hv).1, walk, hv]
    exact Mirrors.refl _
  · obtain ⟨hne, hfree⟩ := hset.source v q (hpath v hv q hq)
    exact ⟨hne, halloc.not_mem fun hmem => hfree (h.suffix.subset hmem)⟩

end

/-- What a copy of a table of level `n` is. -/
structure Cloned (m m' : PhysMemory) (n src new : Nat) : Prop where
  fresh : new ∉ m'.free
  mirrors : ∀ v, Mirrors (walk m'.tables v n new) (walk m.tables v n src)
  away : ∀ v, ∀ q ∈ path m'.tables v n new, q.1 ∉ m'.free
  origin : ∀ v, ∀ q ∈ path m'.tables v n new, q.1 ∈ m.free ∨ q ∈ path m.tables v n src
  kernel : n = 4 → ∀ i, 256 ≤ i → i < 512 → m'.tables new i = m.tables src i

/-- What the copy of the tables below level `n + 1` has to do. -/
def Clones (n : Nat) (clone : Nat → PhysMemory → Option Nat × PhysMemory) : Prop :=
  ∀ src m, m.free.Nodup → (∀ v, ∀ q ∈ path m.tables v n src, q.1 ∉ m.free) →
    Allocates m (clone src m).2 ∧
      ∀ new, (clone src m).1 = some new → Cloned m (clone src m).2 n src new

variable {clone : Nat → PhysMemory → Option Nat × PhysMemory}

theorem Cloning.copyPage (h : Cloning m m' n src new done)
    (hset : CloneSetup m n src new) (hi : i ∉ done)
    (hkernel : n = 3 → ¬ 256 ≤ i) (hleaf : (m.tables src i).isLeaf n = true) :
    Cloning m (m'.setEntry new i (m.tables src i).readonly) n src new (i :: done) := by
  have hpath : ∀ v, pathEntry n (path m'.tables v n) (m.tables src i).readonly = [] := by
    intro v
    have hleaf' : (m.tables src i).readonly.isLeaf n = true := hleaf
    simp [pathEntry, hleaf']
  refine h.setEntry hset (Allocates.refl m') hi (fun v hv => ⟨?_, fun q hq => ?_,
    fun q hq => ?_⟩) fun hn hle => absurd hle (hkernel hn)
  · rw [walk, hv]
    exact mirrors_readonly hleaf
  · rw [hpath] at hq
    cases hq
  · rw [hpath] at hq
    cases hq

theorem Cloning.copyTable (h : Cloning m m' n src new done)
    (hset : CloneSetup m n src new) (hi : i ∉ done)
    (hkernel : n = 3 → ¬ 256 ≤ i) (hp : (m.tables src i).flags.present = true)
    (huser : (m.tables src i).flags.userAccessible = true)
    (hleaf : (m.tables src i).isLeaf n = false) (halloc : Allocates m' m'')
    {cloned : Nat} (hcloned : Cloned m' m'' n (m.tables src i).addr cloned) :
    Cloning m (m''.setEntry new i ⟨cloned, (m.tables src i).flags⟩) n src new (i :: done) := by
  have hwalk : ∀ v, pageIndex (n + 1) v = i → walk m.tables v (n + 1) src =
          (walk m'.tables v n (m.tables src i).addr).map (Leaf.under (m.tables src i)) ∧
        ∀ q ∈ path m'.tables v n (m.tables src i).addr, q ∈ path m.tables v (n + 1) src := by
    intro v hv
    have hsource := h.source_eq hset v
    rw [← hsource.1, ← hsource.2, walk, path, hv, h.entry_eq hset,
      walkEntry_of_table hp hleaf, pathEntry_of_table hp hleaf]
    exact ⟨rfl, fun q hq => List.mem_cons_of_mem _ hq⟩
  have hpath : ∀ v, pathEntry n (path m''.tables v n)
      ⟨cloned, (m.tables src i).flags⟩ = path m''.tables v n cloned :=
    fun v => pathEntry_of_table hp hleaf
  have horigin : ∀ v, pageIndex (n + 1) v = i → ∀ q ∈ path m''.tables v n cloned,
      q.1 ∈ m'.free ∨ q ∈ path m.tables v (n + 1) src := fun v hv q hq =>
    (hcloned.origin v q hq).imp_right fun hmem => (hwalk v hv).2 q hmem
  refine h.setEntry hset halloc hi (fun v hv => ⟨?_, fun q hq => ?_, fun q hq => ?_⟩)
    fun hn hle => absurd hle (hkernel hn)
  · have hentry : walkEntry v n (walk m''.tables v n)
        ⟨cloned, (m.tables src i).flags⟩ = (walk m''.tables v n cloned).map
          (Leaf.under ⟨cloned, (m.tables src i).flags⟩) :=
      walkEntry_of_table hp hleaf
    rw [hentry, (hwalk v hv).1]
    exact (hcloned.mirrors v).under rfl huser
  · rw [hpath] at hq
    refine ⟨?_, hcloned.away v q hq⟩
    rcases horigin v hv q hq with hmem | hmem
    · rintro rfl
      exact hset.fresh (h.suffix.subset hmem)
    · exact (hset.source v q hmem).1
  · rw [hpath] at hq
    exact (horigin v hv q hq).imp_left fun hmem => h.suffix.subset hmem

theorem cloneEntry_cloning (hclone : Clones n clone)
    (hset : CloneSetup m n src new) (h : Cloning m m' n src new done)
    (hi : i ∉ done) (hlt : i < 512) :
    Cloning m (cloneEntry clone (n + 1) src new m' i) n src new (i :: done) := by
  have hentry := h.entry_eq hset i
  unfold cloneEntry
  simp only [hentry]
  by_cases hkernel : n + 1 = 4 ∧ 256 ≤ i
  · rw [if_pos hkernel, ← hentry]
    exact h.share hset (Allocates.refl m') hi
  have hkernel' : n = 3 → ¬ 256 ≤ i := fun hn hle => hkernel ⟨by omega, hle⟩
  rw [if_neg hkernel]
  cases hp : (m.tables src i).flags.present with
  | false =>
    refine h.skip hi hkernel' fun v l hv hwalk => ?_
    rw [walk, hv, walkEntry_of_not_present hp] at hwalk
    cases hwalk
  | true =>
  cases huser : (m.tables src i).flags.userAccessible with
  | false =>
    refine h.skip hi hkernel' fun v l hv hwalk => ?_
    rw [walk, hv] at hwalk
    exact walkEntry_not_user huser hwalk
  | true =>
  cases hleaf : (m.tables src i).isLeaf n with
  | true =>
    -- a page: either a huge one or one of a table of level one
    have hcopy := h.copyPage hset hi hkernel' hleaf
    simp only [isLeaf, Bool.or_eq_true, decide_eq_true_eq] at hleaf
    by_cases hhuge : 1 < n + 1 ∧ (m.tables src i).flags.hugePage = true
    · simpa [hhuge] using hcopy
    · have hlevel : n = 0 := by
        by_contra hne
        exact hhuge ⟨by omega, hleaf.resolve_left hne⟩
      subst hlevel
      simpa using hcopy
  | false =>
    obtain ⟨hlevel, hhuge⟩ : n ≠ 0 ∧ (m.tables src i).flags.hugePage = false := by
      simpa [isLeaf] using hleaf
    have hframe : (m.tables src i).frame = some (m.tables src i).addr := by
      simp [frame, hp, hhuge]
    have hnodup : m'.free.Nodup := h.suffix.sublist.nodup hset.nodup
    have hsource : ∀ v, ∀ q ∈ path m'.tables v n (m.tables src i).addr, q.1 ∉ m'.free := by
      intro v q hq
      obtain ⟨v', hv', hmod⟩ := exists_address n v hlt
      rw [path_low fun k hk => (pageIndex_low hk hmod).symm] at hq
      have hmem : q ∈ path m.tables v' (n + 1) src := by
        rw [← (h.source_eq hset v').2, path, hv', h.entry_eq hset, pathEntry_of_table hp hleaf]
        exact List.mem_cons_of_mem _ hq
      exact fun hfree => (hset.source v' q hmem).2 (h.suffix.subset hfree)
    obtain ⟨halloc, hsome⟩ := hclone (m.tables src i).addr m' hnodup hsource
    have hsrc : ∀ m'', Allocates m' m'' → m''.tables src i = m.tables src i :=
      fun m'' halloc => by
        have hfree : src ∉ m'.free := fun hmem =>
          hset.src_away.2 (h.suffix.subset hmem)
        rw [halloc.tables src hfree, hentry]
    have hone : n + 1 ≠ 1 := by omega
    simp only [hhuge, hframe, hone, Bool.not_true, Bool.false_eq_true, and_false, ↓reduceIte]
    cases hres : clone (m.tables src i).addr m' with
    | mk r m'' =>
      rw [hres] at halloc hsome
      cases r with
      | none => exact h.share hset halloc hi
      | some cloned =>
        simp only [hsrc m'' halloc]
        exact h.copyTable hset hi hkernel' hp huser hleaf halloc (hsome cloned rfl)

theorem cloneEntries_cloning (hclone : Clones n clone)
    (hset : CloneSetup m n src new) (items : List Nat)
    (h : Cloning m m' n src new done) (hnodup : (items.reverse ++ done).Nodup)
    (hlt : ∀ i ∈ items, i < 512) :
    Cloning m (items.foldl (cloneEntry clone (n + 1) src new) m') n src new
      (items.reverse ++ done) := by
  induction items generalizing m' done with
  | nil => exact h
  | cons i items ih =>
    rw [List.reverse_cons, List.append_assoc, List.singleton_append] at hnodup ⊢
    have hi : i ∉ done := (List.nodup_cons.mp (List.nodup_append.mp hnodup).2.1).1
    exact ih (cloneEntry_cloning hclone hset h hi (hlt i List.mem_cons_self)) hnodup
      fun j hj => hlt j (List.mem_cons_of_mem i hj)

theorem cloneTable_cloned {items : List Nat} (hclone : Clones n clone) (hnodup : m.free.Nodup)
    (hsource : ∀ v, ∀ q ∈ path m.tables v (n + 1) src, q.1 ∉ m.free)
    (halloc : m.allocateFrame = some (new, m')) (hitems : items.Nodup)
    (hall : ∀ i, i ∈ items ↔ i < 512)
    (hfinal : items.foldl (cloneEntry clone (n + 1) src new) m' = m'') :
    Allocates m m'' ∧ Cloned m m'' (n + 1) src new := by
  obtain ⟨hfree, hzero, hkeep⟩ := PhysMemory.allocateFrame_spec halloc
  rw [hfree] at hnodup hsource
  obtain ⟨hnew, hrest⟩ := List.nodup_cons.mp hnodup
  -- the tables of the source lie outside the frame that has been zeroed
  have hne : ∀ v, ∀ q ∈ path m.tables v (n + 1) src, q.1 ≠ new ∧ q.1 ∉ m'.free :=
    fun v q hq => not_or.mp (List.mem_cons.not.mp (hsource v q hq))
  have hsame : ∀ v, walk m'.tables v (n + 1) src = walk m.tables v (n + 1) src ∧
      path m'.tables v (n + 1) src = path m.tables v (n + 1) src := fun v =>
    walk_congr fun q hq => congrFun (hkeep q.1 (hne v q hq).1) q.2
  have hset : CloneSetup m' n src new :=
    ⟨hrest, hnew, fun v q hq => hne v q ((hsame v).2 ▸ hq)⟩
  have hstart : Cloning m' m' n src new [] :=
    { suffix := List.suffix_rfl
      tables := fun _ _ _ => rfl
      todo := fun i _ => hzero i
      copied := fun _ h => absurd h List.not_mem_nil
      kernel := fun _ h => absurd h List.not_mem_nil }
  have hend := cloneEntries_cloning hclone hset items hstart
    (by simpa using hitems) fun i hi => (hall i).mp hi
  rw [hfinal, List.append_nil] at hend
  have hdone : ∀ i < 512, i ∈ items.reverse := fun i hi =>
    List.mem_reverse.mpr ((hall i).mpr hi)
  have hcopied := fun v => hend.copied v (hdone _ (pageIndex_lt _ v))
  have hnew2 : new ∉ m''.free := fun hmem => hnew (hend.suffix.subset hmem)
  refine ⟨⟨?_, fun f hf => ?_⟩, hnew2, fun v => ?_, fun v q hq => ?_,
    fun v q hq => ?_, fun hn i hle hlt => ?_⟩
  · rw [hfree]
    exact hend.suffix.trans (List.suffix_cons new m'.free)
  · rw [hfree, List.mem_cons, not_or] at hf
    rw [hend.tables f hf.2 hf.1, hkeep f hf.1]
  · rw [← (hsame v).1]
    exact (hcopied v).mirrors
  · rcases List.mem_cons.mp hq with rfl | hq
    · exact hnew2
    · exact ((hcopied v).away q hq).2
  · rw [hfree, ← (hsame v).2]
    rcases List.mem_cons.mp hq with rfl | hq
    · exact Or.inl List.mem_cons_self
    · exact ((hcopied v).origin q hq).imp_left (List.mem_cons_of_mem new)
  · rw [hend.kernel i (hdone i hlt) (by omega) hle, hkeep src (hne 0 _ List.mem_cons_self).1]

theorem cloneUserTableTree_clones (n : Nat) : Clones n (cloneUserTableTree n) := by
  induction n with
  | zero => exact fun src m _ _ => ⟨Allocates.refl m, fun _ h => nomatch h⟩
  | succ n ih =>
    intro src m hnodup hsource
    rw [cloneUserTableTree]
    cases halloc : m.allocateFrame with
    | none => exact ⟨Allocates.refl m, fun _ h => nomatch h⟩
    | some p =>
      obtain ⟨new, m'⟩ := p
      dsimp only
      generalize hfinal : (List.range 512).foldl
        (cloneEntry (cloneUserTableTree n) (n + 1) src new) m' = m''
      obtain ⟨hallocates, hcloned⟩ := cloneTable_cloned ih hnodup hsource
        halloc List.nodup_range (fun i => List.mem_range) hfinal
      refine ⟨hallocates, fun g hg => ?_⟩
      obtain rfl := Option.some.inj hg
      exact hcloned

end

/-! Isolation -/

section

variable {m m' : PhysMemory} {root child : Nat}

/-- The allocator hands out every frame once, and none that the walks from `root`
use as a table. -/
structure FreshFrames (m : PhysMemory) (root : Nat) : Prop where
  nodup : m.free.Nodup
  unused : ∀ v, ∀ q ∈ path m.tables v 4 root, q.1 ∉ m.free

/-- What a fork from `t` to `t'` should give: user code of neither process can
write, both see what the parent saw, and the kernel entries are as before. -/
structure Isolated (t t' : Tables) (parent child : Nat) : Prop where
  readonly : ∀ v, ¬ UserWritable (walk t' v 4 parent) ∧ ¬ UserWritable (walk t' v 4 child)
  translates : ∀ v, userView (walk t' v 4 parent) = userView (walk t v 4 parent) ∧
    userView (walk t' v 4 child) = userView (walk t v 4 parent)
  kernel : ∀ i, 256 ≤ i → i < 512 → t' parent i = t parent i ∧ t' child i = t parent i

/-- The way to every page that user code can write leads over an entry of a
4 KiB user page in the lower half, as it does for those pages themselves, and no
kernel entry is such an entry with a flag to lose. -/
structure Protectable (t : Tables) (root : Nat) : Prop where
  pages : ∀ v, UserWritable (walk t v 4 root) → ∃ q ∈ path t v 4 root, UserPageEntry t root q
  kernel : ∀ i, 256 ≤ i → i < 512 → UserPageEntry t root (root, i) →
    (t root i).flags.writable = false

section

variable (hfresh : FreshFrames m root)
include hfresh

theorem FreshFrames.readonly :
    ∀ v, ∀ q ∈ path (makeUserLeafReadonly m.tables root) v 4 root, q.1 ∉ m.free := by
  intro v q hq
  rw [(makeUserLeafReadonly_clears m.tables root).sameShape.walk_eq.1] at hq
  exact hfresh.unused v q hq

section

variable (h : cowForkParent root m = (some child, m'))
include h

theorem cowForkParent_cloned :
    Allocates { m with tables := makeUserLeafReadonly m.tables root } m' ∧
      Cloned { m with tables := makeUserLeafReadonly m.tables root } m' 4 root child := by
  have hunused := hfresh.readonly
  unfold cowForkParent at h
  generalize makeUserLeafReadonly m.tables root = t at *
  obtain ⟨halloc, hsome⟩ := cloneUserTableTree_clones 4 root { m with tables := t }
    hfresh.nodup hunused
  rw [h] at halloc hsome
  exact ⟨halloc, hsome child rfl⟩

/-- The fork in terms of the tables before it: the parent's tables have lost
flags, the child's tables mirror them. -/
theorem cowForkParent_spec :
    (∀ v, walk m'.tables v 4 root = walk (makeUserLeafReadonly m.tables root) v 4 root) ∧
      (∀ v, Mirrors (walk m'.tables v 4 child)
        (walk (makeUserLeafReadonly m.tables root) v 4 root)) ∧
      m'.tables root = makeUserLeafReadonly m.tables root root ∧
      ∀ i, 256 ≤ i → i < 512 → m'.tables child i = makeUserLeafReadonly m.tables root root i := by
  obtain ⟨halloc, hcloned⟩ := cowForkParent_cloned hfresh h
  have hunused := hfresh.readonly
  generalize makeUserLeafReadonly m.tables root = t at *
  refine ⟨fun v => ?_, hcloned.mirrors, ?_, hcloned.kernel rfl⟩
  · exact (walk_congr fun q hq => congrFun (halloc.tables q.1 (hunused v q hq)) q.2).1
  · exact halloc.tables root (hunused 0 (root, _) List.mem_cons_self)

theorem cowForkParent_fresh :
    FreshFrames m' root ∧ FreshFrames m' child := by
  obtain ⟨halloc, hcloned⟩ := cowForkParent_cloned hfresh h
  have hunused := hfresh.readonly
  generalize makeUserLeafReadonly m.tables root = t at *
  have hnodup := hfresh.nodup.sublist halloc.suffix.sublist
  refine ⟨⟨hnodup, fun v q hq => ?_⟩, ⟨hnodup, hcloned.away⟩⟩
  have hpath := (walk_congr fun q hq =>
    congrFun (halloc.tables q.1 (hunused v q hq)) q.2).2
  rw [hpath] at hq
  exact halloc.not_mem (hunused v q hq)

/-- In the parent a page stays writable exactly when no entry on the way to it is
one that `make_user_leaf_readonly` reaches. -/
theorem cowForkParent_userWritable_iff (v : Nat) :
    UserWritable (walk m'.tables v 4 root) ↔ UserWritable (walk m.tables v 4 root) ∧
      ∀ q ∈ path m.tables v 4 root, ¬ UserPageEntry m.tables root q := by
  rw [(cowForkParent_spec hfresh h).1 v]
  exact (makeUserLeafReadonly_clears m.tables root).userWritable_iff

end

end

/-- A fork isolates parent and child exactly when every page that user code can
write is one that `make_user_leaf_readonly` reaches. -/
theorem cowForkParent_isolated_iff (m m' : PhysMemory) (root child : Nat)
    (hfresh : FreshFrames m root)
    (h : cowForkParent root m = (some child, m')) :
    Isolated m.tables m'.tables root child ↔ Protectable m.tables root := by
  obtain ⟨hparent, hchild, hroot, hkernel⟩ := cowForkParent_spec hfresh h
  have hclears := makeUserLeafReadonly_clears m.tables root
  have hwritable := cowForkParent_userWritable_iff hfresh h
  constructor
  · intro hiso
    refine ⟨fun v hv => ?_, fun i hle hlt hentry => ?_⟩
    · by_contra hnone
      rw [not_exists] at hnone
      exact (hiso.readonly v).1 ((hwritable v).mpr ⟨hv, fun q hq hentry => hnone q ⟨hq, hentry⟩⟩)
    · have hsame := (hiso.kernel i hle hlt).1
      rw [hroot, hclears.inside root i hentry] at hsame
      rw [← hsame]
      rfl
  · intro hprot
    have hno : ∀ v, ¬ UserWritable (walk m'.tables v 4 root) := by
      intro v hv
      obtain ⟨hbefore, hclear⟩ := (hwritable v).mp hv
      obtain ⟨q, hq, hentry⟩ := hprot.pages v hbefore
      exact hclear q hq hentry
    have hview : ∀ v, userView (walk m'.tables v 4 root) = userView (walk m.tables v 4 root) := by
      intro v
      rw [hparent v, hclears.sameShape.userView_eq]
    have hentries : ∀ i, 256 ≤ i → i < 512 →
        makeUserLeafReadonly m.tables root root i = m.tables root i := by
      intro i hle hlt
      by_cases hentry : UserPageEntry m.tables root (root, i)
      · rw [hclears.inside root i hentry,
          readonly_eq_self (hprot.kernel i hle hlt hentry)]
      · exact hclears.outside root i hentry
    refine ⟨fun v => ⟨hno v, fun hv => ?_⟩, fun v => ⟨hview v, ?_⟩, fun i hle hlt => ⟨?_, ?_⟩⟩
    · have hmirror := (hchild v).writable hv
      rw [← hparent v] at hmirror
      exact hno v hmirror
    · rw [(hchild v).view, ← hparent v, hview v]
    · rw [hroot, hentries i hle hlt]
    · rw [hkernel i hle hlt, hentries i hle hlt]

end

theorem eq_mk_snd {α β : Type} {x : α × β} {a : α} (h : x.1 = a) : x = (a, x.2) :=
  Prod.ext h rfl

def userFlags : PageTableFlags := ⟨true, true, true, false, false, false⟩

/-- Tables in frames 0 to 3 that map the page at address zero to frame 4. -/
def onePageTables : Tables := fun f i =>
  if i = 0 ∧ f < 4 then ⟨f + 1, userFlags⟩ else .unused

def hugePageTables : Tables :=
  onePageTables.set 2 0 ⟨512, { userFlags with hugePage := true }⟩

def memoryOf (t : Tables) : PhysMemory where
  tables := t
  pages := fun _ => Image.zero
  free := [5, 6, 7, 8]

theorem freshFrames_memoryOf {t : Tables} (h : ∀ f i g, f < 5 → (t f i).frame = some g → g < 5) :
    FreshFrames (memoryOf t) 0 where
  nodup := (by decide : [5, 6, 7, 8].Nodup)
  unused v q hq hmem := by
    have hlt : q.1 < 5 := path_frames (by decide) h q hq
    have hge : ∀ f ∈ [5, 6, 7, 8], ¬ f < 5 := by decide
    exact hge q.1 hmem hlt

theorem onePageTables_frame {f i g : Nat} (h : (onePageTables f i).frame = some g) :
    g = f + 1 ∧ f < 4 := by
  unfold onePageTables at h
  split at h
  · next hi => exact ⟨(Option.some.inj h).symm, hi.2⟩
  · cases h

theorem hugePageTables_frame {f i g : Nat} (h : (hugePageTables f i).frame = some g) :
    g = f + 1 ∧ f < 4 ∧ f ≠ 2 := by
  by_cases hhuge : (f, i) = (2, 0)
  · obtain ⟨rfl, rfl⟩ := Prod.mk.inj hhuge
    cases h
  · rw [hugePageTables, set_ne _ hhuge] at h
    refine ⟨(onePageTables_frame h).1, (onePageTables_frame h).2, ?_⟩
    rintro rfl
    have hi : i ≠ 0 := fun hi => hhuge (by rw [hi])
    rw [onePageTables, if_neg fun hcond => hi hcond.1] at h
    cases h

theorem freshFrames_onePage : FreshFrames (memoryOf onePageTables) 0 :=
  freshFrames_memoryOf fun f i g _ h => by
    have := onePageTables_frame h
    omega

theorem freshFrames_hugePage : FreshFrames (memoryOf hugePageTables) 0 :=
  freshFrames_memoryOf fun f i g _ h => by
    have := hugePageTables_frame h
    omega

theorem hugePageTables_userPageEntry (q : Nat × Nat) : ¬ UserPageEntry hugePageTables 0 q := by
  rintro ⟨_, -, -, f, hf, _, -, -, g, hg, _, -, -, h, hh, -⟩
  have hf := (hugePageTables_frame hf).1
  have hg := (hugePageTables_frame hg).1
  have hne := (hugePageTables_frame hh).2.2
  omega

theorem onePageTables_user {f i : Nat} (h : (onePageTables f i).flags.present = true) :
    i = 0 ∧ (onePageTables f i).flags.hugePage = false := by
  unfold onePageTables at h ⊢
  split at h
  · next hi =>
    rw [if_pos hi]
    exact ⟨hi.1, rfl⟩
  · cases h

theorem onePageTables_protectable : Protectable onePageTables 0 where
  pages v := by
    rintro ⟨l, hwalk, huser, -⟩
    have hpresent := (walk_flags hwalk).2.2
    obtain ⟨q, hq⟩ := exists_leafEntry hwalk fun q hq =>
      (onePageTables_user (hpresent q hq)).2
    have hindex : pageIndex 4 v = 0 :=
      (onePageTables_user (hpresent (0, pageIndex 4 v) List.mem_cons_self)).1
    exact ⟨q, (leafEntry_spec hq).1, userPageEntry_of_leafEntry hq hwalk huser (by omega)⟩
  kernel i hle _ _ := by
    have hne : ¬ (i = 0 ∧ 0 < 4) := by omega
    rw [onePageTables, if_neg hne]
    rfl

/-- A fork of a process with one page. -/
theorem cowForkParent_isolated_onePage :
    ∃ m', cowForkParent 0 (memoryOf onePageTables) = (some 5, m') ∧
      Isolated onePageTables m'.tables 0 5 := by
  have hchild : (cowForkParent 0 (memoryOf onePageTables)).1 = some 5 := rfl
  have hrun := eq_mk_snd hchild
  exact ⟨_, hrun, (cowForkParent_isolated_iff _ _ 0 5 freshFrames_onePage hrun).mpr
    onePageTables_protectable⟩

/-- After a fork the parent can still write to a huge page. -/
theorem cowForkParent_hugePage_writable :
    ∃ m', cowForkParent 0 (memoryOf hugePageTables) = (some 5, m') ∧
      UserWritable (walk m'.tables 0 4 0) := by
  have hchild : (cowForkParent 0 (memoryOf hugePageTables)).1 = some 5 := rfl
  have hrun := eq_mk_snd hchild
  have hbefore : walk hugePageTables 0 4 0 = some ⟨2097152, true, true⟩ := by decide
  exact ⟨_, hrun, (cowForkParent_userWritable_iff freshFrames_hugePage hrun 0).mpr
    ⟨⟨_, hbefore, rfl, rfl⟩, fun q _ => hugePageTables_userPageEntry q⟩⟩

end ZiqaKernel
