/-
A mapper that goes through the tables level by level, as the one of the `x86_64` crate
does.  It meets the hypotheses about the mapper, and concrete runs are made with it.
-/
import ZiqaKernel.Mapper

namespace ZiqaKernel

open PhysMemory Tables PageTableFlags

/-! The mapper -/

/-- The flags that `map_to` gives to the tables above a page. -/
def PageTableFlags.parent (flags : PageTableFlags) : PageTableFlags :=
  { PageTableFlags.empty with
    present := flags.present
    writable := flags.writable
    userAccessible := flags.userAccessible }

/-- The entry with the flags `flags` added. -/
def PageTableEntry.insert (e : PageTableEntry) (flags : PageTableFlags) :
    PageTableEntry where
  addr := e.addr
  flags := {
    present := e.flags.present || flags.present
    writable := e.flags.writable || flags.writable
    userAccessible := e.flags.userAccessible || flags.userAccessible
    hugePage := e.flags.hugePage || flags.hugePage
    compressed := e.flags.compressed || flags.compressed
    noExecute := e.flags.noExecute || flags.noExecute }

namespace LevelMapper

/-- `create_next_table` of the mapper: the table that entry `i` of the table at `f`
leads to.  The flags are always those of `parent`. -/
def createNextTable (f i : Nat) (flags : PageTableFlags) (m : PhysMemory) :
    Except MapToError Nat × PhysMemory :=
  if m.tables f i = .unused then
    match m.allocateFrame with
    | none => (.error .frameAllocationFailed, m)
    | some (g, m') => (.ok g, m'.setEntry f i ⟨g, flags⟩)
  else
    let m' := m.setEntry f i ((m.tables f i).insert flags)
    if (m.tables f i).flags.hugePage then (.error .parentEntryHugePage, m')
    else (.ok (m.tables f i).addr, m')

/-- `map_to` for a 4 KiB page, from a table of the given level. -/
def mapTo (v frame : Nat) (flags : PageTableFlags) :
    Nat → Nat → PhysMemory → Except MapToError Unit × PhysMemory
  | 0, _, m => (.ok (), m)
  | 1, f, m =>
    if m.tables f (pageIndex 1 v) = .unused then
      (.ok (), m.setEntry f (pageIndex 1 v) ⟨frame, flags⟩)
    else (.error .pageAlreadyMapped, m)
  | n + 2, f, m =>
    match createNextTable f (pageIndex (n + 2) v) flags.parent m with
    | (.error e, m') => (.error e, m')
    | (.ok g, m') => mapTo v frame flags (n + 1) g m'

/-- `translate_addr(..).is_some()` of the mapper, from a table of the given level.  An
entry of level one that is in use counts, present or not; a huge page at level four
panics. -/
def translated (t : Tables) (v : Nat) : Nat → Nat → Option Bool
  | 0, _ => some false
  | 1, f => some (t f (pageIndex 1 v) ≠ .unused)
  | n + 2, f =>
    if !(t f (pageIndex (n + 2) v)).flags.present then some false
    else if (t f (pageIndex (n + 2) v)).flags.hugePage then
      if n + 2 = 4 then none else some true
    else translated t v (n + 1) (t f (pageIndex (n + 2) v)).addr

/-! Pages that are mapped already -/

section

variable {t t' : Tables} {v n f : Nat} {m : PhysMemory}

def SameRoute (t t' : Tables) : Prop :=
  ∀ f i, (t' f i).addr = (t f i).addr ∧
    (t' f i).flags.present = (t f i).flags.present ∧
    (t' f i).flags.hugePage = (t f i).flags.hugePage

theorem SameRoute.walk_isSome (h : SameRoute t t') :
    (walk t' v n f).isSome = (walk t v n f).isSome := by
  induction n generalizing f with
  | zero => rfl
  | succ n ih =>
    obtain ⟨haddr, hpresent, hhuge⟩ := h f (pageIndex (n + 1) v)
    rw [walk, walk, walkEntry, walkEntry, PageTableEntry.isLeaf, PageTableEntry.isLeaf,
      haddr, hpresent, hhuge]
    split
    · split
      · split
        · rw [Option.isSome_some, Option.isSome_some]
        · rw [Option.isSome_none]
      · rw [Option.isSome_map, Option.isSome_map, ih]
    · rfl

theorem sameRoute_insert {i : Nat} (h : (t f i).flags.present = true)
    (flags : PageTableFlags) :
    SameRoute t (t.set f i ((t f i).insert flags.parent)) := by
  intro g j
  by_cases hgj : (g, j) = (f, i)
  · obtain ⟨rfl, rfl⟩ := Prod.mk.inj hgj
    rw [set_self]
    refine ⟨rfl, ?_, Bool.or_false _⟩
    rw [PageTableEntry.insert, h]
    rfl
  · rw [set_ne _ hgj]
    exact ⟨rfl, rfl, rfl⟩

theorem mapTo_of_mapped (frame : Nat) (flags : PageTableFlags)
    (h : (walk m.tables v n f).isSome = true) :
    ∃ e m', mapTo v frame flags n f m = (.error e, m') := by
  induction n generalizing f m with
  | zero => cases h
  | succ n ih =>
    obtain ⟨l, hwalk⟩ := Option.isSome_iff_exists.mp h
    have hp := (walk_flags hwalk).2.2 _ List.mem_cons_self
    have hused : m.tables f (pageIndex (n + 1) v) ≠ .unused := by
      intro hunused
      rw [hunused] at hp
      cases hp
    cases n with
    | zero => exact ⟨_, _, by rw [mapTo, if_neg hused]⟩
    | succ n =>
      rw [mapTo, createNextTable, if_neg hused]
      by_cases hhuge : (m.tables f (pageIndex (n + 2) v)).flags.hugePage = true
      · simp only [hhuge, ↓reduceIte]
        exact ⟨_, _, rfl⟩
      · simp only [hhuge, Bool.false_eq_true, ↓reduceIte]
        apply ih
        rw [PhysMemory.setEntry, (sameRoute_insert hp flags).walk_isSome]
        have hleaf : (m.tables f (pageIndex (n + 2) v)).isLeaf (n + 1) = false := by
          simp [PageTableEntry.isLeaf, hhuge]
        rw [walk, walkEntry_of_table hp hleaf, Option.isSome_map] at h
        exact h

end

/-! Adding a page -/

theorem frame_insert {e : PageTableEntry} {g : Nat} (h : e.frame = some g)
    (flags : PageTableFlags) : (e.insert flags.parent).frame = some g := by
  obtain ⟨hpresent, hhuge, haddr⟩ := PageTableEntry.frame_eq_some h
  simp [PageTableEntry.frame, PageTableEntry.insert, parent,
    empty, hpresent, hhuge, haddr]

theorem PageTableEntry.inUse_of_present {e : PageTableEntry} (h : e.flags.present = true) :
    e.inUse = some e := by
  refine if_neg fun hunused => ?_
  rw [hunused] at h
  cases h

/-- From `m` to `m'` the way to `v` has been made to go on to the table at `g` after `j + 1`
steps. -/
structure TableOpened (m m' : PhysMemory) (root v j g : Nat) (user : Bool) : Prop where
  space : PageSpace m' root
  table : tableAt m'.tables v 4 root (j + 1) = some g
  entry : ∀ w, LowerHalf w → pageEntry m'.tables w root = pageEntry m.tables w root
  pages : ∀ x, x ∉ m.free → m'.pages x = m.pages x
  user : user = true → UserWay m.tables v root j → UserWay m'.tables v root (j + 1)
  userKept : ∀ w, LowerHalf w → (pageEntry m.tables w root).isSome → UserWay m.tables w root 3 →
    UserWay m'.tables w root 3
  free : m'.free <:+ m.free
  room : m.free.length ≤ m'.free.length + 1

section

variable {m m' : PhysMemory} {root v j f g : Nat} {flags : PageTableFlags}
  (h : PageSpace m root) (hv : LowerHalf v) (hj : j < 3)
  (hf : tableAt m.tables v 4 root j = some f)
include h hv hj hf

/-- The entry gets the table at `g`, to which it led before or to which nothing led. -/
theorem opened_setEntry {e : PageTableEntry} (he : e.frame = some g) (hfree : g ∉ m.free)
    (hlink : (m.tables f (pageIndex (4 - j) v)).frame = some g ∨
      m.tables f (pageIndex (4 - j) v) = .unused ∧ (∀ k, m.tables g k = .unused) ∧
        ∀ w, LowerHalf w → ∀ k < 4, tableAt m.tables w 4 root k ≠ some g)
    (huser : flags.userAccessible = true → e.flags.userAccessible = true)
    (hgrows : (m.tables f (pageIndex (4 - j) v)).flags.userAccessible = true →
      e.flags.userAccessible = true) :
    TableOpened m (m.setEntry f (pageIndex (4 - j) v) e) root v j g flags.userAccessible := by
  generalize hi : pageIndex (4 - j) v = i at *
  generalize hm : m.setEntry f i e = m'
  obtain ⟨hfree', hpages, ht⟩ : m'.free = m.free ∧ m'.pages = m.pages ∧
      m'.tables = m.tables.set f i e := hm ▸ ⟨rfl, rfl, rfl⟩
  have hself : m'.tables f i = e := ht ▸ set_self ..
  have hset : ∀ w, LowerHalf w → ∀ k < 4, ∀ x, tableAt m.tables w 4 root k = some x →
      ∀ l, m'.tables x l = m.tables x l ∨ k = j ∧ x = f ∧ l = i := by
    intro w hw k hk x hx l
    by_cases hxl : (x, l) = (f, i)
    · obtain ⟨rfl, rfl⟩ := Prod.mk.inj hxl
      exact .inr ⟨(h.tree v w hv hw j (by omega) k hk _ hf hx).1.symm, rfl, rfl⟩
    · exact .inl (ht ▸ set_ne _ hxl _)
  -- the ways through the entry went on to `g`, or ended at the entry
  have hthrough : ∀ w, tableAt m.tables w 4 root j = some f → pageIndex (4 - j) w = i →
      tableAt m.tables w 4 root (j + 1) = (m.tables f i).frame := by
    intro w hw hindex
    rw [tableAt_succ (by omega), hw, Option.bind_some, hindex]
  have hbelow : ∀ w, tableAt m.tables w 4 root j = some f → pageIndex (4 - j) w = i → ∀ k,
      (m'.tables g k).inUse = (tableAt m.tables w 4 root (j + 1)).bind
          (fun x => (m.tables x k).inUse) ∧
        (m'.tables g k).frame = (tableAt m.tables w 4 root (j + 1)).bind
          (fun x => (m.tables x k).frame) := by
    intro w hw hindex k
    rw [hthrough w hw hindex]
    rcases hlink with hg | ⟨hunused, hempty, hfresh⟩
    · have hgv := (hthrough v hf hi).trans hg
      rcases hset v hv (j + 1) (by omega) g hgv k with heq | ⟨hk, -⟩
      · rw [hg, heq]
        exact ⟨rfl, rfl⟩
      · omega
    · have hgf : g ≠ f := by
        rintro rfl
        exact hfresh v hv j (by omega) hf
      rw [hunused, ht, set_ne_frame _ hgf, hempty]
      exact ⟨rfl, rfl⟩
  have htable : ∀ w, LowerHalf w → ∀ k ≤ 3, tableAt m'.tables w 4 root k =
      if k = j + 1 ∧ tableAt m.tables w 4 root j = some f ∧ pageIndex (4 - j) w = i then some g
      else tableAt m.tables w 4 root k := by
    intro w hw k hk
    induction k with
    | zero => rw [if_neg (by omega), tableAt_zero, tableAt_zero]
    | succ k ih =>
      rw [tableAt_succ (by omega), ih (by omega), tableAt_succ (by omega)]
      split
      · next hway =>
        obtain ⟨rfl, hway⟩ := hway
        rw [if_neg (by omega), Option.bind_some, (hbelow w hway.1 hway.2 _).2]
      · split
        · next hway =>
          obtain ⟨hkj, hway, hindex⟩ := hway
          obtain rfl := Nat.succ.inj hkj
          rw [hway, Option.bind_some, hindex, hself, he]
        · next hnot =>
          refine Option.bind_congr fun x hx => ?_
          rcases hset w hw k (by omega) x hx (pageIndex (4 - k) w) with heq | ⟨rfl, rfl, hl⟩
          · rw [heq]
          · exact absurd ⟨rfl, hx, hl⟩ hnot
  have hcases : ∀ w, LowerHalf w → ∀ k < 4, ∀ x, tableAt m'.tables w 4 root k = some x →
      tableAt m.tables w 4 root k = some x ∨
        (∀ u, LowerHalf u → ∀ l < 4, tableAt m.tables u 4 root l ≠ some g) ∧
        (∀ l, m'.tables g l = .unused) ∧ k = j + 1 ∧ x = g ∧
        tableAt m.tables w 4 root j = some f ∧ pageIndex (4 - j) w = i := by
    intro w hw k hk x hx
    rw [htable w hw k (by omega)] at hx
    split at hx
    · next hway =>
      obtain ⟨rfl, hway, hindex⟩ := hway
      obtain rfl := Option.some.inj hx
      rcases hlink with hg | ⟨hunused, hempty, hfresh⟩
      · exact .inl ((hthrough w hway hindex).trans hg)
      · refine .inr ⟨hfresh, fun l => ?_, rfl, rfl, hway, hindex⟩
        rw [ht, set_ne_frame _, hempty]
        rintro rfl
        exact hfresh v hv j (by omega) hf
    · exact .inl hx
  have hentry : ∀ w, LowerHalf w → pageEntry m'.tables w root = pageEntry m.tables w root := by
    intro w hw
    rw [pageEntry, pageEntry, htable w hw 3 le_rfl]
    split
    · next hway => rw [Option.bind_some, hway.1, (hbelow w hway.2.1 hway.2.2 _).1]
    · refine Option.bind_congr fun x hx => ?_
      rcases hset w hw 3 (by decide) x hx (pageIndex 1 w) with heq | ⟨hk, -⟩
      · rw [heq]
      · omega
  -- what let user code pass lets it pass still
  have hpass : ∀ w, LowerHalf w → ∀ k < 3, ∀ x, tableAt m.tables w 4 root k = some x →
      (m.tables x (pageIndex (4 - k) w)).flags.userAccessible = true →
      (m'.tables x (pageIndex (4 - k) w)).flags.userAccessible = true := by
    intro w hw k hk x hx hold
    rcases hset w hw k (by omega) x hx (pageIndex (4 - k) w) with heq | ⟨-, rfl, hl⟩
    · rwa [heq]
    · rw [hl, hself]
      exact hgrows (hl ▸ hold)
  refine ⟨⟨fun u w hu hw k hk l hl x hx hx' => ?_, fun w hw k hk x hx => ?_,
    fun w hw k hk x hxfree hx => ?_, hfree' ▸ h.nodup, fun w e hw he => ?_⟩, ?_, hentry,
    fun _ _ => by rw [hpages], fun hflag hold k hk x hx => ?_,
    fun w hw hsome hold k hk x hx => ?_, by rw [hfree'], by rw [hfree']; omega⟩
  · rcases hcases u hu k hk x hx with hold | ⟨hfresh, -, rfl, rfl, hux, hui⟩
    · rcases hcases w hw l hl x hx' with hold' | ⟨hfresh, -, rfl, rfl, -⟩
      · exact h.tree u w hu hw k hk l hl x hold hold'
      · exact absurd hold (hfresh u hu k hk)
    · rcases hcases w hw l hl x hx' with hold' | ⟨-, -, rfl, -, hwx, hwi⟩
      · exact absurd hold' (hfresh w hw l hl)
      · refine ⟨rfl, fun a ha => ?_⟩
        rcases Nat.lt_succ_iff_lt_or_eq.mp ha with hlt | rfl
        · exact (h.tree u w hu hw j (by omega) j (by omega) f hux hwx).2 a hlt
        · rw [hui, hwi]
  · rcases hcases w hw k (by omega) x hx with hold | ⟨-, hempty, -, rfl, -⟩
    · rcases hset w hw k (by omega) x hold (pageIndex (4 - k) w) with heq | ⟨-, rfl, hl⟩
      · rw [heq]
        exact h.leads w hw k hk x hold
      · exact .inr ⟨g, by rw [hl, hself, he]⟩
    · exact .inl (hempty _)
  · rw [hfree'] at hxfree
    rcases hcases w hw k hk x hx with hold | ⟨-, -, -, rfl, -⟩
    · exact h.fresh w hw k hk x hxfree hold
    · exact hfree hxfree
  · rw [hfree']
    exact h.data w e hw ((hentry w hw).symm.trans he)
  · rw [htable v hv _ hj, if_pos ⟨rfl, hf, hi⟩]
  · rcases hcases v hv k (by omega) x hx with hx | ⟨-, -, rfl, -⟩
    · rcases Nat.lt_succ_iff_lt_or_eq.mp hk with hlt | rfl
      · exact hpass v hv k (by omega) x hx (hold k hlt x hx)
      · obtain rfl := Option.some.inj (hf.symm.trans hx)
        rw [hi, hself]
        exact huser hflag
    · exact absurd hk (Nat.lt_irrefl _)
  · rcases hcases w hw k (by omega) x hx with hx | ⟨hfresh, -, -, -, hway, hindex⟩
    · exact hpass w hw k hk x hx (hold k hk x hx)
    · -- a page that is there is not behind the entry
      have hpast : (tableAt m.tables w 4 root (j + 1)).isSome :=
        tableAt_isSome_of_le hj (by decide) (Option.isSome_of_isSome_bind hsome)
      rw [hthrough w hway hindex] at hpast
      rcases hlink with hg | ⟨hunused, -⟩
      · exact absurd ((hthrough v hf hi).trans hg) (hfresh v hv _ (by omega))
      · rw [hunused] at hpast
        cases hpast

/-- An entry that is not in use gets a new table. -/
theorem opened_allocate {m₀ : PhysMemory} (hpresent : flags.present = true)
    (hunused : m.tables f (pageIndex (4 - j) v) = .unused)
    (halloc : m.allocateFrame = some (g, m₀)) :
    TableOpened m (m₀.setEntry f (pageIndex (4 - j) v) ⟨g, flags.parent⟩) root v j g
      flags.userAccessible := by
  obtain ⟨hfree, hzero, -⟩ := allocateFrame_spec halloc
  have hnew := h.allocate halloc
  obtain ⟨htable, htables⟩ := hnew.way v hv j (by omega)
  have hopen : TableOpened m₀ (m₀.setEntry f (pageIndex (4 - j) v) ⟨g, flags.parent⟩) root v j g
      flags.userAccessible :=
    opened_setEntry hnew.space hv hj (htable.trans hf)
      (by simp [PageTableEntry.frame, parent, empty, hpresent]) hnew.taken
      (.inr ⟨(htables f hf).symm ▸ hunused, hzero, hnew.unreached⟩) id
      (by rw [htables f hf, hunused]; exact Bool.noConfusion)
  refine ⟨hopen.space, hopen.table, fun w hw => (hopen.entry w hw).trans (hnew.entry w hw),
    fun x hx => ?_, fun huser hway => hopen.user huser (hnew.userWay hv (by omega) hway),
    fun w hw hsome hway => hopen.userKept w hw ((hnew.entry w hw).symm ▸ hsome)
      (hnew.userWay hw le_rfl hway), ⟨[g], hfree.symm⟩, by rw [hfree]; rfl⟩
  change m₀.pages x = m.pages x
  exact pages_allocateFrame halloc fun heq => hx (heq ▸ hfree ▸ List.mem_cons_self)

theorem createNextTable_spec (hpresent : flags.present = true) :
    (∃ g m', createNextTable f (pageIndex (4 - j) v) flags.parent m = (.ok g, m') ∧
      TableOpened m m' root v j g flags.userAccessible) ∨
    ∃ err, createNextTable f (pageIndex (4 - j) v) flags.parent m = (.error err, m) ∧
      m.free = [] := by
  rw [createNextTable]
  rcases h.leads v hv j hj f hf with hunused | ⟨g, hg⟩
  · rw [if_pos hunused]
    cases halloc : m.allocateFrame with
    | none =>
      refine .inr ⟨_, rfl, ?_⟩
      by_contra hfree
      obtain ⟨x, rest, hcons⟩ := List.exists_cons_of_ne_nil hfree
      rw [allocateFrame, hcons] at halloc
      cases halloc
    | some r => exact .inl ⟨_, _, rfl, opened_allocate h hv hj hf hpresent hunused halloc⟩
  · obtain ⟨hp, hhuge, haddr⟩ := PageTableEntry.frame_eq_some hg
    have hused : m.tables f (pageIndex (4 - j) v) ≠ .unused := by
      intro hunused
      rw [hunused] at hp
      cases hp
    have hnext : tableAt m.tables v 4 root (j + 1) = some g := by
      rw [tableAt_succ (by omega), hf, Option.bind_some, hg]
    rw [if_neg hused]
    dsimp only
    rw [if_neg (by rw [hhuge]; decide), haddr]
    refine .inl ⟨_, _, rfl, opened_setEntry h hv hj hf (frame_insert hg flags)
      (fun hx => h.fresh v hv _ (by omega) g hx hnext) (.inl hg) (fun huser => ?_) fun hold => ?_⟩
    · exact (congrArg (_ || ·) huser).trans (Bool.or_true _)
    · exact (congrArg (· || _) hold).trans (Bool.true_or _)

end

/-- The page is added below a table that has been opened on the way to it. -/
theorem TableOpened.added {m m₁ m' : PhysMemory} {root v j g n : Nat} {user : Bool}
    {e : PageTableEntry} (hopen : TableOpened m m₁ root v j g user) (hv : LowerHalf v)
    (h : PageEntryAdded m₁ m' root v e n) : PageEntryAdded m m' root v e (n + 1) where
  space := h.space
  vacant := (hopen.entry v hv).symm.trans h.vacant
  entry w hw := by rw [h.entry w hw, hopen.entry w hw]
  pages x hx := by rw [h.pages x fun hx' => hx (hopen.free.subset hx'), hopen.pages x hx]
  user := h.user
  userKept w hw hsome hway :=
    h.userKept w hw (by rwa [hopen.entry w hw]) (hopen.userKept w hw hsome hway)
  room := by
    have := hopen.room
    have := h.room
    omega

/-- The entry of the page itself. -/
theorem added_setEntry {m : PhysMemory} {root v frame f : Nat} {flags : PageTableFlags}
    (h : PageSpace m root) (hv : LowerHalf v) (hframe : frame ∉ m.free)
    (hpresent : flags.present = true) (hf : tableAt m.tables v 4 root 3 = some f)
    (hvacant : pageEntry m.tables v root = none)
    (hway : flags.userAccessible = true → UserWay m.tables v root 3) :
    PageEntryAdded m (m.setEntry f (pageIndex 1 v) ⟨frame, flags⟩) root v ⟨frame, flags⟩ 0 := by
  obtain ⟨r, hr, -⟩ := routeTo_of_tableAt hf
  obtain ⟨hrframe, hindex⟩ := tableAt_of_routeTo hr
  obtain rfl : f = r.frame := Option.some.inj (hf.symm.trans hrframe)
  rw [← hindex]
  generalize hm : m.setEntry r.frame r.index ⟨frame, flags⟩ = m'
  obtain ⟨hfree, hpages, ht⟩ : m'.free = m.free ∧ m'.pages = m.pages ∧
      m'.tables = m.tables.set r.frame r.index ⟨frame, flags⟩ := hm ▸ ⟨rfl, rfl, rfl⟩
  have htable : ∀ w, LowerHalf w → ∀ k ≤ 3,
      tableAt m'.tables w 4 root k = tableAt m.tables w 4 root k := fun w hw =>
    ht ▸ (tableAt_set h.tree hv hr _ hw).2
  have habove : ∀ w, LowerHalf w → ∀ k < 3, ∀ x, tableAt m'.tables w 4 root k = some x →
      tableAt m.tables w 4 root k = some x ∧ ∀ i, m'.tables x i = m.tables x i := by
    intro w hw k hk x hx
    rw [htable w hw k (by omega)] at hx
    exact ⟨hx, fun i => ht ▸ set_of_tableAt h.tree hv hr _ hw hk hx i⟩
  have hentry : ∀ w, LowerHalf w → pageEntry m'.tables w root =
      if SamePage v w then some ⟨frame, flags⟩ else pageEntry m.tables w root := by
    intro w hw
    rw [pageEntry, htable w hw 3 le_rfl]
    split
    · next hsame =>
      rw [← hsame.tableAt_eq root (by decide), hf, Option.bind_some,
        ← samePage_iff.mp hsame 3 (by decide), ← hindex, ht, set_self]
      exact PageTableEntry.inUse_of_present hpresent
    · next hother =>
      refine Option.bind_congr fun x hx => ?_
      rw [ht, set_ne]
      intro heq
      apply hother
      apply samePage_of_mem_path h.tree hv hr hw
      rw [← heq]
      exact mem_path_iff.mpr ⟨3, by decide, hx, rfl⟩
  refine ⟨⟨?_, fun w hw k hk x hx => ?_, fun w hw k hk => ?_, hfree ▸ h.nodup,
    fun w e hw he => ?_⟩, hvacant, hentry, fun _ _ => by rw [hpages], fun w hsame huser => ?_,
    fun w hw _ hold k hk x hx => ?_, by rw [hfree]; rfl⟩
  · rw [ht]
    exact treeShaped_set h.tree hv hr _
  · obtain ⟨hx, hsame⟩ := habove w hw k hk x hx
    rw [hsame]
    exact h.leads w hw k hk x hx
  · rw [htable w hw k (by omega), hfree]
    exact h.fresh w hw k hk
  · rw [hentry w hw] at he
    rw [hfree]
    split at he
    · obtain rfl := Option.some.inj he
      exact hframe
    · exact h.data w e hw he
  · refine hsame.userWay fun k hk x hx => ?_
    obtain ⟨hx, hsame⟩ := habove v hv k hk x hx
    rw [hsame]
    exact hway huser k hk x hx
  · obtain ⟨hx, hsame⟩ := habove w hw k hk x hx
    rw [hsame]
    exact hold k hk x hx

theorem mapTo_spec {m : PhysMemory} {root v frame n j f : Nat} {flags : PageTableFlags}
    (h : PageSpace m root) (hv : LowerHalf v) (hframe : frame ∉ m.free)
    (hpresent : flags.present = true) (hn : j + n = 3)
    (hf : tableAt m.tables v 4 root j = some f)
    (hway : flags.userAccessible = true → UserWay m.tables v root j) :
    (∃ m', mapTo v frame flags (n + 1) f m = (.ok (), m') ∧
      PageEntryAdded m m' root v ⟨frame, flags⟩ n) ∨
    ∃ err m', mapTo v frame flags (n + 1) f m = (.error err, m') ∧
      (m.free.length < n ∨ (pageEntry m.tables v root).isSome) := by
  induction n generalizing m j f with
  | zero =>
    obtain rfl : j = 3 := hn
    have hpage : pageEntry m.tables v root = (m.tables f (pageIndex 1 v)).inUse := by
      rw [pageEntry, hf, Option.bind_some]
    rw [mapTo]
    by_cases hunused : m.tables f (pageIndex 1 v) = .unused
    · rw [if_pos hunused]
      rw [hunused] at hpage
      exact .inl ⟨_, rfl, added_setEntry h hv hframe hpresent hf hpage hway⟩
    · rw [if_neg hunused]
      refine .inr ⟨_, _, rfl, .inr ?_⟩
      rw [hpage, PageTableEntry.inUse, if_neg hunused]
      rfl
  | succ n ih =>
    rw [mapTo, show n + 2 = 4 - j by omega]
    rcases createNextTable_spec h hv (by omega) hf hpresent with
      ⟨g, m₁, hcall, hnext⟩ | ⟨err, hcall, hfree⟩
    · rw [hcall]
      rcases ih hnext.space (fun hx => hframe (hnext.free.subset hx)) (by omega) hnext.table
        fun huser => hnext.user huser (hway huser) with ⟨m', hrec, hadded⟩ | ⟨err, m', hrec, hwhy⟩
      · exact .inl ⟨m', hrec, hnext.added hv hadded⟩
      · rw [hnext.entry v hv] at hwhy
        have hroom := hnext.room
        exact .inr ⟨err, m', hrec, hwhy.imp_left fun hfew => by omega⟩
    · rw [hcall, hfree]
      exact .inr ⟨_, _, rfl, .inl (Nat.succ_pos n)⟩

section

variable {m m' : PhysMemory} {root v frame : Nat} {flags : PageTableFlags} (h : PageSpace m root)
  (hv : LowerHalf v) (hframe : frame ∉ m.free) (hpresent : flags.present = true)
include h hv hframe hpresent

theorem mapTo_cases : (∃ m', mapTo v frame flags 4 root m = (.ok (), m') ∧
      PageEntryAdded m m' root v ⟨frame, flags⟩ 3) ∨
    ∃ err m', mapTo v frame flags 4 root m = (.error err, m') ∧
      (m.free.length < 3 ∨ (pageEntry m.tables v root).isSome) :=
  mapTo_spec h hv hframe hpresent (Nat.zero_add 3) rfl
    fun _ j hj => absurd hj (Nat.not_lt_zero j)

theorem mapTo_adds (hmap : mapTo v frame flags 4 root m = (.ok (), m')) :
    PageEntryAdded m m' root v ⟨frame, flags⟩ 3 := by
  rcases mapTo_cases h hv hframe hpresent with ⟨m₁, hcall, hadded⟩ | ⟨err, m₁, hcall, -⟩
  · rw [hmap] at hcall
    obtain ⟨-, rfl⟩ := Prod.mk.inj hcall
    exact hadded
  · rw [hmap] at hcall
    cases hcall

theorem mapTo_isOk (hroom : 3 ≤ m.free.length) (hpage : pageEntry m.tables v root = none) :
    ∃ m', mapTo v frame flags 4 root m = (.ok (), m') := by
  rcases mapTo_cases h hv hframe hpresent with ⟨m', hcall, -⟩ | ⟨err, m', -, hfew | hsome⟩
  · exact ⟨m', hcall⟩
  · omega
  · rw [hpage] at hsome
    cases hsome

end

theorem translated_of_routeTo {t : Tables} {v n f : Nat} {r : Route}
    (h : routeTo t v (n + 1) f = some r) :
    translated t v (n + 1) f = some (decide (t r.frame r.index ≠ .unused)) := by
  induction n generalizing f r with
  | zero =>
    obtain rfl := Option.some.inj h
    rfl
  | succ n ih =>
    rw [routeTo, Option.bind_eq_some_iff] at h
    obtain ⟨g, hframe, h⟩ := h
    obtain ⟨r', hr', rfl⟩ := Option.map_eq_some_iff.mp h
    obtain ⟨hpresent, hhuge, haddr⟩ := PageTableEntry.frame_eq_some hframe
    have hnext := ih hr'
    rw [translated, hpresent, hhuge, haddr]
    exact hnext

end LevelMapper

/-- The mapper of concrete runs. -/
@[reducible] def levelMapper : Mapper where
  mapTo root v frame flags := LevelMapper.mapTo v frame flags 4 root
  translateAddr root v t := LevelMapper.translated t v 4 root
  unmap root v t := t.edit (fun e => if e.frame.isSome then .unused else e) root v
  updateFlags root v flags t :=
    t.edit (fun e => if e = .unused then e else ⟨e.addr, flags⟩) root v

instance : @Mapper.RefusesMapped levelMapper :=
  @Mapper.RefusesMapped.mk levelMapper LevelMapper.mapTo_of_mapped

instance : @Mapper.MapsPages levelMapper :=
  @Mapper.MapsPages.mk levelMapper LevelMapper.mapTo_adds LevelMapper.mapTo_isOk

instance : @Mapper.FindsPages levelMapper :=
  @Mapper.FindsPages.mk levelMapper LevelMapper.translated_of_routeTo

instance : @Mapper.UnmapsPages levelMapper :=
  @Mapper.UnmapsPages.mk levelMapper
    (fun h hframe => (edit_of_route h).trans (congrArg _ (if_pos hframe)))
    (fun h => edit_eq_self fun r hr => if_neg (by rw [h r hr]; decide))

instance : @Mapper.UpdatesFlags levelMapper :=
  @Mapper.UpdatesFlags.mk levelMapper
    (fun _ h hused => (edit_of_route h).trans (congrArg _ (if_neg hused)))
    (fun _ h => edit_eq_self fun r hr => if_pos (h r hr))

end ZiqaKernel
