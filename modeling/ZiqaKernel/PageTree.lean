/-
Page tables that form a tree: no table is reached in two ways.  Then the entry
of a page lies on the way to that page only, and changing it changes nothing for
the others.
-/
import ZiqaKernel.PageTable

namespace ZiqaKernel

open PageTableEntry

/-- The table that is reached from the table of level `n` at `f` after `j` steps down. -/
def tableAt (t : Tables) (v : Nat) : Nat → Nat → Nat → Option Nat
  | _, f, 0 => some f
  | 0, _, _ + 1 => none
  | n + 1, f, j + 1 => (t f (pageIndex (n + 1) v)).frame.bind fun g => tableAt t v n g j

/-- The way to the entry of a 4 KiB page: where the entry is, and what the entries above
it allow. -/
structure Route where
  frame : Nat
  index : Nat
  user : Bool
  writable : Bool
  executable : Bool
deriving DecidableEq

def Route.under (e : PageTableEntry) (r : Route) : Route :=
  { r with
    user := e.flags.userAccessible && r.user
    writable := e.flags.writable && r.writable
    executable := !e.flags.noExecute && r.executable }

/-- The way to the entry of the 4 KiB page at `v`, from a table of level `n` on.  There is
none past an entry that is not present or stands for a huge page. -/
def routeTo (t : Tables) (v : Nat) : Nat → Nat → Option Route
  | 0, _ => none
  | 1, f => some ⟨f, pageIndex 1 v, true, true, true⟩
  | n + 2, f => (t f (pageIndex (n + 2) v)).frame.bind fun g =>
    (routeTo t v (n + 1) g).map (Route.under (t f (pageIndex (n + 2) v)))

/-- Along the addresses of `A` no table is reached in two ways. -/
def TreeShaped (A : Nat → Prop) (t : Tables) (root : Nat) : Prop :=
  ∀ v w, A v → A w → ∀ j < 4, ∀ k < 4, ∀ g, tableAt t v 4 root j = some g →
    tableAt t w 4 root k = some g → j = k ∧ ∀ i < j, pageIndex (4 - i) v = pageIndex (4 - i) w

def SamePage (v w : Nat) : Prop := v / 4096 % 2 ^ 36 = w / 4096 % 2 ^ 36

instance (v w : Nat) : Decidable (SamePage v w) := inferInstanceAs (Decidable (_ = _))

theorem samePage_iff {v w : Nat} :
    SamePage v w ↔ ∀ i < 4, pageIndex (4 - i) v = pageIndex (4 - i) w := by
  constructor
  · intro h i hi
    unfold SamePage at h
    match i, hi with
    | 0, _ => simp only [pageIndex]; omega
    | 1, _ => simp only [pageIndex]; omega
    | 2, _ => simp only [pageIndex]; omega
    | 3, _ => simp only [pageIndex]; omega
  · intro h
    have h0 := h 0 (by decide)
    have h1 := h 1 (by decide)
    have h2 := h 2 (by decide)
    have h3 := h 3 (by decide)
    simp only [pageIndex] at h0 h1 h2 h3
    unfold SamePage
    omega

theorem SamePage.symm {v w : Nat} (h : SamePage v w) : SamePage w v := Eq.symm h

theorem SamePage.trans {u v w : Nat} (h : SamePage u v) (h' : SamePage v w) :
    SamePage u w := Eq.trans h h'

section

variable {t t' : Tables} {v w n f : Nat} {r : Route}

theorem PageTableEntry.frame_of_table {e : PageTableEntry}
    (h : (e.flags.present && !e.isLeaf n) = true) : e.frame = some e.addr := by
  simp only [isLeaf, Bool.not_or, Bool.and_eq_true] at h
  simp only [frame, h.1, h.2.2, Bool.and_self, ↓reduceIte]

theorem mem_path_iff {q : Nat × Nat} : q ∈ path t v n f ↔
    ∃ j < n, tableAt t v n f j = some q.1 ∧ q.2 = pageIndex (n - j) v := by
  induction n generalizing f with
  | zero => simp [path]
  | succ n ih =>
    rw [path, List.mem_cons]
    constructor
    · rintro (rfl | hq)
      · exact ⟨0, Nat.succ_pos n, rfl, rfl⟩
      · rw [pathEntry] at hq
        split at hq
        · next hcond =>
          obtain ⟨j, hj, htable, hindex⟩ := ih.mp hq
          refine ⟨j + 1, Nat.succ_lt_succ hj, ?_, by rwa [Nat.add_sub_add_right]⟩
          rw [tableAt, frame_of_table hcond, Option.bind_some, htable]
        · cases hq
    · rintro ⟨j, hj, htable, hindex⟩
      cases j with
      | zero => exact .inl (Prod.ext (Option.some.inj htable).symm hindex)
      | succ j =>
        rw [tableAt, Option.bind_eq_some_iff] at htable
        obtain ⟨g, hframe, htable⟩ := htable
        obtain ⟨m, rfl⟩ : ∃ m, n = m + 1 := ⟨n - 1, by omega⟩
        have hleaf := isLeaf_of_frame (n := m) hframe
        obtain ⟨hp, -, haddr⟩ := frame_eq_some hframe
        rw [pathEntry_of_table hp hleaf, haddr]
        exact .inr (ih.mpr ⟨j, Nat.lt_of_succ_lt_succ hj, htable, by
          rwa [Nat.add_sub_add_right] at hindex⟩)

@[simp]
theorem tableAt_zero (t : Tables) (v n f : Nat) : tableAt t v n f 0 = some f := by
  cases n <;> rfl

/-- The last of the steps down. -/
theorem tableAt_succ {j : Nat} (hj : j < n) : tableAt t v n f (j + 1) =
    (tableAt t v n f j).bind fun g => (t g (pageIndex (n - j) v)).frame := by
  induction j generalizing n f with
  | zero =>
    obtain ⟨n, rfl⟩ : ∃ m, n = m + 1 := ⟨n - 1, by omega⟩
    simp [tableAt]
  | succ j ih =>
    obtain ⟨n, rfl⟩ : ∃ m, n = m + 1 := ⟨n - 1, by omega⟩
    rw [tableAt, tableAt, Option.bind_assoc, Nat.add_sub_add_right]
    exact Option.bind_congr fun g _ => ih (Nat.lt_of_succ_lt_succ hj)

theorem tableAt_isSome_of_le {j k : Nat} (hjk : j ≤ k) (hk : k ≤ n)
    (h : (tableAt t v n f k).isSome) : (tableAt t v n f j).isSome := by
  induction hjk with
  | refl => exact h
  | step hjk ih =>
    rw [tableAt_succ hk] at h
    exact ih (Nat.le_of_succ_le hk) (Option.isSome_of_isSome_bind h)

theorem tableAt_of_routeTo (h : routeTo t v (n + 1) f = some r) :
    tableAt t v (n + 1) f n = some r.frame ∧ r.index = pageIndex 1 v := by
  induction n generalizing f r with
  | zero =>
    obtain rfl := Option.some.inj h
    exact ⟨rfl, rfl⟩
  | succ n ih =>
    rw [routeTo, Option.bind_eq_some_iff] at h
    obtain ⟨g, hframe, h⟩ := h
    obtain ⟨r', hr', rfl⟩ := Option.map_eq_some_iff.mp h
    obtain ⟨htable, hindex⟩ := ih hr'
    refine ⟨?_, hindex⟩
    rw [tableAt, hframe, Option.bind_some, htable]
    rfl

theorem mem_path_of_routeTo (h : routeTo t v (n + 1) f = some r) :
    (r.frame, r.index) ∈ path t v (n + 1) f := by
  obtain ⟨hframe, hindex⟩ := tableAt_of_routeTo h
  refine mem_path_iff.mpr ⟨n, Nat.lt_succ_self n, hframe, ?_⟩
  rw [hindex, Nat.add_sub_cancel_left]

theorem walk_of_routeTo (h : routeTo t v (n + 1) f = some r) : walk t v (n + 1) f =
      if (t r.frame r.index).flags.present then
        some {
          phys := (t r.frame r.index).addr * 4096 + v % 4096
          user := r.user && (t r.frame r.index).flags.userAccessible
          writable := r.writable && (t r.frame r.index).flags.writable }
      else none := by
  induction n generalizing f r with
  | zero =>
    obtain rfl := Option.some.inj h
    rw [walk, walkEntry]
    split
    · simp [isLeaf, leaf]
    · rfl
  | succ n ih =>
    rw [routeTo, Option.bind_eq_some_iff] at h
    obtain ⟨g, hframe, h⟩ := h
    obtain ⟨r', hr', rfl⟩ := Option.map_eq_some_iff.mp h
    obtain ⟨hp, -, haddr⟩ := frame_eq_some hframe
    rw [walk, walkEntry_of_table hp (isLeaf_of_frame hframe), haddr, ih hr']
    dsimp only [Route.under]
    by_cases hleaf : (t r'.frame r'.index).flags.present = true
    · simp [hleaf, Leaf.under, Bool.and_assoc]
    · simp [hleaf]

theorem routeTo_congr (h : ∀ j < n, ∀ g, tableAt t v (n + 1) f j = some g →
      t' g (pageIndex (n + 1 - j) v) = t g (pageIndex (n + 1 - j) v)) :
    routeTo t' v (n + 1) f = routeTo t v (n + 1) f ∧
      ∀ j ≤ n, tableAt t' v (n + 1) f j = tableAt t v (n + 1) f j := by
  induction n generalizing f with
  | zero =>
    refine ⟨rfl, fun j hj => ?_⟩
    obtain rfl := Nat.le_zero.mp hj
    rfl
  | succ n ih =>
    have hentry : t' f (pageIndex (n + 2) v) = t f (pageIndex (n + 2) v) :=
      h 0 (Nat.succ_pos n) f rfl
    have hnext : ∀ g, (t f (pageIndex (n + 2) v)).frame = some g →
        routeTo t' v (n + 1) g = routeTo t v (n + 1) g ∧
          ∀ j ≤ n, tableAt t' v (n + 1) g j = tableAt t v (n + 1) g j := by
      intro g hframe
      apply ih
      intro j hj k hk
      have hdown := h (j + 1) (Nat.succ_lt_succ hj) k (by
        rw [tableAt, hframe, Option.bind_some, hk])
      rwa [Nat.add_sub_add_right] at hdown
    rw [routeTo, routeTo, hentry]
    cases hframe : (t f (pageIndex (n + 2) v)).frame with
    | none =>
      refine ⟨rfl, fun j hj => ?_⟩
      cases j with
      | zero => rfl
      | succ j => rw [tableAt, tableAt, hentry, hframe, Option.bind_none, Option.bind_none]
    | some g =>
      obtain ⟨hroute, htable⟩ := hnext g hframe
      refine ⟨by rw [Option.bind_some, Option.bind_some, hroute], fun j hj => ?_⟩
      cases j with
      | zero => rfl
      | succ j =>
        rw [tableAt, tableAt, hentry, hframe, Option.bind_some, Option.bind_some,
          htable j (Nat.le_of_succ_le_succ hj)]

theorem SamePage.routeTo_eq (h : SamePage v w) (root : Nat) :
    routeTo t v 4 root = routeTo t w 4 root := by
  have hindex := samePage_iff.mp h
  have h4 := hindex 0 (by decide)
  have h3 := hindex 1 (by decide)
  have h2 := hindex 2 (by decide)
  have h1 := hindex 3 (by decide)
  simp only [Nat.reduceSub] at h1 h2 h3 h4
  simp only [routeTo, h1, h2, h3, h4]

/-! Changing the entry of a page -/

section

variable {A : Nat → Prop} {root : Nat} (htree : TreeShaped A t root) (hv : A v)
  (hr : routeTo t v 4 root = some r)
include htree hv hr

theorem samePage_of_mem_path (hw : A w) (h : (r.frame, r.index) ∈ path t w 4 root) :
    SamePage v w := by
  obtain ⟨hframe, hindex⟩ := tableAt_of_routeTo hr
  obtain ⟨k, hk, htable, hkw⟩ := mem_path_iff.mp h
  obtain ⟨rfl, habove⟩ := htree v w hv hw 3 (by decide) k hk r.frame hframe htable
  rw [samePage_iff]
  intro i hi
  rcases Nat.lt_succ_iff_lt_or_eq.mp hi with hlt | rfl
  · exact habove i hlt
  · exact hindex.symm.trans hkw

theorem set_of_tableAt (e : PageTableEntry) (hw : A w) {j g : Nat} (hj : j < 3)
    (hg : tableAt t w 4 root j = some g) (i : Nat) : t.set r.frame r.index e g i = t g i := by
  apply Tables.set_ne
  intro heq
  obtain ⟨rfl, -⟩ := Prod.mk.inj heq
  have hsame := (htree v w hv hw 3 (by decide) j (by omega) _ (tableAt_of_routeTo hr).1 hg).1
  omega

theorem tableAt_set (e : PageTableEntry) (hw : A w) :
    routeTo (t.set r.frame r.index e) w 4 root = routeTo t w 4 root ∧
      ∀ j ≤ 3, tableAt (t.set r.frame r.index e) w 4 root j = tableAt t w 4 root j :=
  routeTo_congr fun _ hj _ hg => set_of_tableAt htree hv hr e hw hj hg _

theorem treeShaped_set (e : PageTableEntry) : TreeShaped A (t.set r.frame r.index e) root := by
  intro u w hu hw j hj k hk g hug hwg
  rw [(tableAt_set htree hv hr e hu).2 j (by omega)] at hug
  rw [(tableAt_set htree hv hr e hw).2 k (by omega)] at hwg
  exact htree u w hu hw j hj k hk g hug hwg

end

/-- The tables in which `g` has changed the entry of the page at `v`, if there is a way to
it. -/
def Tables.edit (t : Tables) (g : PageTableEntry → PageTableEntry) (root v : Nat) : Tables :=
  match routeTo t v 4 root with
  | none => t
  | some r => t.set r.frame r.index (g (t r.frame r.index))

theorem Tables.edit_of_route {g : PageTableEntry → PageTableEntry} {root : Nat}
    (h : routeTo t v 4 root = some r) :
    t.edit g root v = t.set r.frame r.index (g (t r.frame r.index)) := by
  rw [edit, h]

theorem Tables.edit_of_no_route {g : PageTableEntry → PageTableEntry} {root : Nat}
    (h : routeTo t v 4 root = none) : t.edit g root v = t := by
  rw [edit, h]

theorem Tables.edit_eq_self {g : PageTableEntry → PageTableEntry} {root : Nat}
    (h : ∀ r, routeTo t v 4 root = some r → g (t r.frame r.index) = t r.frame r.index) :
    t.edit g root v = t := by
  cases hr : routeTo t v 4 root with
  | none => exact edit_of_no_route hr
  | some r =>
    rw [edit_of_route hr, h r hr]
    funext f i
    by_cases hfi : (f, i) = (r.frame, r.index)
    · obtain ⟨rfl, rfl⟩ := Prod.mk.inj hfi
      exact set_self ..
    · exact set_ne _ hfi _

theorem treeShaped_edit {A : Nat → Prop} {root : Nat} (htree : TreeShaped A t root) (hv : A v)
    (g : PageTableEntry → PageTableEntry) : TreeShaped A (t.edit g root v) root := by
  cases hr : routeTo t v 4 root with
  | none => rwa [Tables.edit_of_no_route hr]
  | some r =>
    rw [Tables.edit_of_route hr]
    exact treeShaped_set htree hv hr _

end

end ZiqaKernel
