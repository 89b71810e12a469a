/-
What a process finds at its addresses, as a map from addresses to bytes.  Mapping a
new page with `demand_page_for_root` (`memory/paging.rs`) changes this map at the
addresses of the page only.
-/
import ZiqaKernel.PageFault

namespace ZiqaKernel

def viewAt (m : PhysMemory) (root w : Nat) : Option (PageTableFlags × UInt8) :=
  (pageEntry m.tables w root).map fun e => (e.flags, (m.pages e.addr).get (w % 4096))

variable {m : PhysMemory}

theorem viewAt_eq_none_iff {root w : Nat} :
    viewAt m root w = none ↔ pageEntry m.tables w root = none :=
  Option.map_eq_none_iff

theorem viewAt_eq_none_congr {root v w : Nat} (h : SamePage v w) :
    viewAt m root v = none ↔ viewAt m root w = none := by
  rw [viewAt_eq_none_iff, viewAt_eq_none_iff, h.pageEntry_eq]

def byteForUser (m : PhysMemory) (root w : Nat) : Option UInt8 :=
  (walk m.tables w 4 root).bind fun l =>
    if l.user then some ((m.pages (l.phys / 4096)).get (l.phys % 4096)) else none

theorem byteForUser_of_viewAt {root w : Nat} {flags : PageTableFlags} {b : UInt8}
    (h : viewAt m root w = some (flags, b)) (hpresent : flags.present = true)
    (huser : flags.userAccessible = true) (hway : UserWay m.tables w root 3) :
    byteForUser m root w = some b := by
  obtain ⟨e, he, heq⟩ := Option.map_eq_some_iff.mp h
  obtain ⟨rfl, rfl⟩ := Prod.mk.inj heq
  obtain ⟨l, hl, hphys, hreach⟩ := walk_of_pageEntry he hpresent huser hway
  have hframe : (e.addr * 4096 + w % 4096) / 4096 = e.addr := by omega
  have hplace : (e.addr * 4096 + w % 4096) % 4096 = w % 4096 := by omega
  rw [byteForUser, hl, Option.bind_some, if_pos hreach, hphys, hframe, hplace]

/-- From `m` to `m'` the page of `v` has been added, with these flags and bytes. -/
structure PageAdded (m m' : PhysMemory) (root v : Nat) (flags : PageTableFlags)
    (bytes : Nat → UInt8) : Prop where
  space : PageSpace m' root
  vacant : viewAt m root v = none
  view : ∀ w, LowerHalf w → viewAt m' root w =
    if SamePage v w then some (flags, bytes (w % 4096)) else viewAt m root w
  user : ∀ w, SamePage v w → flags.userAccessible = true → UserWay m'.tables w root 3
  userKept : ∀ w, LowerHalf w → (viewAt m root w).isSome → UserWay m.tables w root 3 →
    UserWay m'.tables w root 3
  room : m.free.length ≤ m'.free.length + 4

section

variable {m m' : PhysMemory} {root v : Nat} {flags : PageTableFlags}
  {initData : Option (List UInt8)}

def filledFrame (m₀ : PhysMemory) (frame : Nat) (initData : Option (List UInt8)) : PhysMemory :=
  { m₀ with pages := Function.update m₀.pages frame (.ofFn ((initData.getD []).getD · 0)) }

theorem demandPageForRoot_eq [Mapper] {frame : Nat} {m₀ : PhysMemory}
    (halloc : m.allocateFrame = some (frame, m₀)) :
    demandPageForRoot root v flags initData m =
      match Mapper.mapTo root v frame flags (filledFrame m₀ frame initData) with
      | (.ok (), m') => (true, m')
      | (.error _, m') => (false, m') := by
  rw [demandPageForRoot, halloc]
  rfl

theorem PageSpace.filled {m₀ : PhysMemory} {frame : Nat} (h : PageSpace m₀ root)
    (initData : Option (List UInt8)) : PageSpace (filledFrame m₀ frame initData) root :=
  ⟨h.tree, h.leads, h.fresh, h.nodup, h.data⟩

theorem demandPageForRoot_added [Mapper] [Mapper.MapsPages] (h : PageSpace m root) (hv : LowerHalf v)
    (hpresent : flags.present = true)
    (hcall : demandPageForRoot root v flags initData m = (true, m')) :
    PageAdded m m' root v flags ((initData.getD []).getD · 0) := by
  cases halloc : m.allocateFrame with
  | none =>
    rw [demandPageForRoot, halloc] at hcall
    cases hcall
  | some r =>
    obtain ⟨frame, m₀⟩ := r
    have hnew := h.allocate halloc
    obtain ⟨hfree, -⟩ := PhysMemory.allocateFrame_spec halloc
    rw [demandPageForRoot_eq halloc] at hcall
    split at hcall
    · next m₂ hmap =>
      obtain rfl := (Prod.mk.inj hcall).2
      have hadded := Mapper.mapTo_adds (hnew.space.filled initData) hv hnew.taken hpresent hmap
      have hview : ∀ w, LowerHalf w → (pageEntry m.tables w root).map
          (fun e => (e.flags, (m₂.pages e.addr).get (w % 4096))) = viewAt m root w := by
        intro w hlow
        refine Option.map_congr fun e he => ?_
        have hmapped := h.data w e hlow he
        rw [hfree, List.mem_cons, not_or] at hmapped
        rw [hadded.pages e.addr hmapped.2]
        have hfilled : (filledFrame m₀ frame initData).pages e.addr = m₀.pages e.addr :=
          Function.update_of_ne hmapped.1 ..
        rw [hfilled, PhysMemory.pages_allocateFrame halloc hmapped.1]
      refine ⟨hadded.space, ?_, fun w hlow => ?_, hadded.user, fun w hlow hsome hw => ?_, ?_⟩
      · rw [viewAt_eq_none_iff, ← hnew.entry v hv]
        exact hadded.vacant
      · rw [viewAt, hadded.entry w hlow]
        split
        · rw [Option.map_some, hadded.pages frame hnew.taken]
          have hfilled : (filledFrame m₀ frame initData).pages frame =
              .ofFn ((initData.getD []).getD · 0) := Function.update_self ..
          rw [hfilled, Image.get_ofFn, if_pos (Nat.mod_lt _ (by decide))]
        · rw [← hview w hlow, ← hnew.entry w hlow]
          rfl
      · apply hadded.userKept w hlow
        · rw [viewAt, Option.isSome_map, ← hnew.entry w hlow] at hsome
          exact hsome
        · exact hnew.userWay hlow le_rfl hw
      · have hroom : m₀.free.length ≤ m₂.free.length + 3 := hadded.room
        rw [hfree, List.length_cons]
        omega
    · cases hcall

theorem demandPageForRoot_isOk [Mapper] [Mapper.MapsPages] (initData : Option (List UInt8))
    (h : PageSpace m root) (hv : LowerHalf v) (hpresent : flags.present = true)
    (hroom : 4 ≤ m.free.length)
    (hvacant : viewAt m root v = none) :
    ∃ m', demandPageForRoot root v flags initData m = (true, m') := by
  obtain ⟨frame, rest, hfree⟩ := List.exists_cons_of_length_pos (Nat.zero_lt_of_lt hroom)
  obtain ⟨m₀, halloc⟩ : ∃ m₀, m.allocateFrame = some (frame, m₀) := by
    rw [PhysMemory.allocateFrame, hfree]
    exact ⟨_, rfl⟩
  have hnew := h.allocate halloc
  obtain ⟨hfree', -⟩ := PhysMemory.allocateFrame_spec halloc
  rw [hfree', List.length_cons] at hroom
  obtain ⟨m', hmap⟩ := Mapper.mapTo_isOk (hnew.space.filled initData) hv hnew.taken hpresent
    (Nat.le_of_succ_le_succ hroom) ((hnew.entry v hv).trans (viewAt_eq_none_iff.mp hvacant))
  exact ⟨m', by rw [demandPageForRoot_eq halloc, hmap]⟩

end

end ZiqaKernel
