/-
The descriptor table of a process (`process/mod.rs`): eight slots, each with a
buffer for the path that a file or scheme descriptor was opened with.
-/
import ZiqaKernel.ByteImage

namespace ZiqaKernel

inductive FdTarget where
  | stdin
  | stdout
  | stderr
  | pipeRead (channel : UInt32)
  | pipeWrite (channel : UInt32)
  | file (idx : UInt8)
  | scheme (idx : UInt8) (handle : UInt64)
deriving DecidableEq

structure FileDesc where
  target : FdTarget
  flags : UInt32
  offset : UInt64
deriving DecidableEq

structure FdTable where
  entries : Vector (Option FileDesc) 8
  paths : Vector (Image 64) 8
  pathLens : Vector (Fin 64) 8

namespace FdTable

def new : FdTable where
  entries := #v[some ⟨.stdin, 0, 0⟩, some ⟨.stdout, 0, 0⟩, some ⟨.stderr, 0, 0⟩,
    none, none, none, none, none]
  paths := Vector.replicate 8 .zero
  pathLens := Vector.replicate 8 0

def get (t : FdTable) (fd : Nat) : Option FileDesc := t.entries[fd]?.join

def offsetOf (t : FdTable) (fd : Nat) : UInt64 := ((t.get fd).map FileDesc.offset).getD 0

def setEntry (t : FdTable) (fd : Nat) (entry : Option FileDesc) : FdTable :=
  { t with entries := t.entries.setIfInBounds fd entry }

/-- An assignment through `get_mut`. -/
def modify (t : FdTable) (fd : Nat) (f : FileDesc → FileDesc) : FdTable :=
  match t.get fd with
  | none => t
  | some desc => t.setEntry fd (some (f desc))

def lowestFree (t : FdTable) : Option Nat :=
  (List.range 8).find? fun i => 3 ≤ i && (t.get i).isNone

theorem pathLen_lt (path : List UInt8) : min path.length 63 < 64 := by
  omega

/-- The path buffer of a slot after a path has been stored, with a zero byte behind it. -/
def storePath (t : FdTable) (i : Nat) (path : List UInt8) : FdTable :=
  let n := min path.length 63
  { t with
    paths := t.paths.setIfInBounds i
      (((t.paths[i]?.getD .zero).splice 0 n (path.getD · 0)).splice n 1 fun _ => 0)
    pathLens := t.pathLens.setIfInBounds i ⟨n, pathLen_lt path⟩ }

/-- The common part of `alloc_file` and `alloc_scheme`. -/
def allocPath (t : FdTable) (path : List UInt8) (flags : UInt32)
    (target : UInt8 → FdTarget) : Option (Nat × FdTable) :=
  t.lowestFree.map fun i =>
    (i, (t.storePath i path).setEntry i (some ⟨target (UInt8.ofNat i), flags, 0⟩))

def allocFile (t : FdTable) (path : List UInt8) (flags : UInt32) : Option (Nat × FdTable) :=
  t.allocPath path flags .file

def allocScheme (t : FdTable) (path : List UInt8) (flags : UInt32) (handle : UInt64) :
    Option (Nat × FdTable) :=
  t.allocPath path flags (.scheme · handle)

/-- `alloc`, for descriptors without a path. -/
def alloc (t : FdTable) (desc : FileDesc) : Option (Nat × FdTable) :=
  t.lowestFree.map fun i => (i, t.setEntry i (some desc))

def pathBytes (t : FdTable) (fd : Nat) : List UInt8 :=
  match t.paths[fd]?, t.pathLens[fd]? with
  | some buf, some len => buf.toList.take len
  | _, _ => []

def pathOf (t : FdTable) (fd : Nat) : Option (List UInt8) :=
  (t.get fd).bind fun desc =>
    match desc.target with
    | .file _ => some (t.pathBytes fd)
    | .scheme _ _ => some (t.pathBytes fd)
    | _ => none

/-- `close`: the console descriptors stay open. -/
def close (t : FdTable) (fd : Nat) : Bool × FdTable :=
  if fd < 3 then (false, t)
  else match t.get fd with
    | none => (false, t)
    | some _ => (true, { t.setEntry fd none with pathLens := t.pathLens.setIfInBounds fd 0 })

/-- The slot of a duplicate: the same target and path, from the start again. -/
def copySlot (t : FdTable) (src dst : Nat) (desc : FileDesc) : FdTable where
  entries := t.entries.setIfInBounds dst (some { desc with offset := 0 })
  paths := match t.paths[src]? with
    | none => t.paths
    | some buf => t.paths.setIfInBounds dst buf
  pathLens := match t.pathLens[src]? with
    | none => t.pathLens
    | some len => t.pathLens.setIfInBounds dst len

/-- `dup` to a given slot, or to the lowest free one. -/
def dup (t : FdTable) (src : Nat) (dst : Option Nat) : Option (Nat × FdTable) :=
  (t.get src).bind fun desc =>
    match dst with
    | some d => if d < 8 then some (d, t.copySlot src d desc) else none
    | none => t.lowestFree.map fun i => (i, t.copySlot src i desc)

/-- `clone_from`. -/
def cloneFrom (other : FdTable) : FdTable where
  entries := Vector.ofFn fun i => other.entries[i]
  paths := Vector.ofFn fun i => other.paths[i]
  pathLens := Vector.ofFn fun i => other.pathLens[i]

theorem cloneFrom_eq (other : FdTable) : cloneFrom other = other := by
  have hentries : Vector.ofFn (fun i : Fin 8 => other.entries[i]) = other.entries :=
    Vector.ext fun i hi => by simp
  have hpaths : Vector.ofFn (fun i : Fin 8 => other.paths[i]) = other.paths :=
    Vector.ext fun i hi => by simp
  have hlens : Vector.ofFn (fun i : Fin 8 => other.pathLens[i]) = other.pathLens :=
    Vector.ext fun i hi => by simp
  rw [cloneFrom, hentries, hpaths, hlens]

variable {t : FdTable} {fd : Nat} {desc : FileDesc}

theorem get_lt (h : t.get fd = some desc) : fd < 8 := by
  by_contra hlt
  rw [get, Vector.getElem?_eq_none (by omega)] at h
  cases h

theorem get_setEntry (entry : Option FileDesc) (hfd : fd < 8) (i : Nat) :
    (t.setEntry fd entry).get i = if i = fd then entry else t.get i := by
  rw [get, setEntry]
  dsimp only
  rw [Vector.getElem?_setIfInBounds]
  by_cases h : i = fd
  · rw [if_pos h.symm, if_pos hfd, if_pos h]
    rfl
  · rw [if_neg (Ne.symm h), if_neg h, get]

structure SameSlot (t t' : FdTable) (fd : Nat) : Prop where
  get : t'.get fd = t.get fd
  path : t'.pathBytes fd = t.pathBytes fd

theorem SameSlot.refl (t : FdTable) (fd : Nat) : SameSlot t t fd := ⟨rfl, rfl⟩

variable {t t' : FdTable}

theorem SameSlot.trans {t'' : FdTable} (h : SameSlot t t' fd)
    (h' : SameSlot t' t'' fd) : SameSlot t t'' fd :=
  ⟨h'.get.trans h.get, h'.path.trans h.path⟩

theorem SameSlot.offsetOf (h : SameSlot t t' fd) : t'.offsetOf fd = t.offsetOf fd := by
  rw [FdTable.offsetOf, h.get, FdTable.offsetOf]

theorem SameSlot.pathOf (h : SameSlot t t' fd) : t'.pathOf fd = t.pathOf fd := by
  rw [FdTable.pathOf, h.get, h.path, FdTable.pathOf]

theorem SameSlot.offsetOf_modify (h : SameSlot t t' fd) (f : FileDesc → FileDesc) :
    (t'.modify fd f).offsetOf fd = (t.modify fd f).offsetOf fd := by
  rw [modify, modify, h.get]
  cases hget : t.get fd with
  | none => exact h.offsetOf
  | some desc =>
    dsimp only
    rw [FdTable.offsetOf, FdTable.offsetOf, get_setEntry _ (get_lt hget),
      get_setEntry _ (get_lt hget), if_pos rfl, if_pos rfl]

theorem get_close (t : FdTable) (fd i : Nat) :
    (t.close fd).2.get i = if i = fd ∧ 3 ≤ fd then none else t.get i := by
  rw [close]
  split
  · rw [if_neg (by omega)]
  · cases hget : t.get fd with
    | none =>
      dsimp only
      split
      · next h => rw [h.1, hget]
      · rfl
    | some desc =>
      change (t.setEntry fd none).get i = _
      rw [get_setEntry _ (get_lt hget)]
      by_cases h : i = fd
      · rw [if_pos h, if_pos ⟨h, by omega⟩]
      · rw [if_neg h, if_neg fun hi => h hi.1]

theorem sameSlot_close {i : Nat} (h : i ≠ fd) : SameSlot t (t.close fd).2 i := by
  refine ⟨?_, ?_⟩
  · rw [get_close, if_neg fun hi => h hi.1]
  · rw [close]
    split
    · rfl
    · cases t.get fd with
      | none => rfl
      | some desc =>
        change pathBytes { t.setEntry fd none with
          pathLens := t.pathLens.setIfInBounds fd 0 } i = _
        rw [pathBytes, pathBytes]
        dsimp only [setEntry]
        rw [Vector.getElem?_setIfInBounds, if_neg (Ne.symm h)]

theorem get_copySlot {src dst : Nat} (hdst : dst < 8) :
    (t.copySlot src dst desc).get dst = some { desc with offset := 0 } := by
  rw [get, copySlot]
  dsimp only
  rw [Vector.getElem?_setIfInBounds_self_of_lt hdst]
  rfl

theorem pathBytes_copySlot {src dst : Nat} (hsrc : src < 8)
    (hdst : dst < 8) : (t.copySlot src dst desc).pathBytes dst = t.pathBytes src := by
  rw [pathBytes, pathBytes, copySlot]
  dsimp only
  rw [Vector.getElem?_eq_getElem hsrc, Vector.getElem?_eq_getElem hsrc]
  dsimp only
  rw [Vector.getElem?_setIfInBounds_self_of_lt hdst, Vector.getElem?_setIfInBounds_self_of_lt hdst]

theorem sameSlot_copySlot {src dst i : Nat} (hne : i ≠ dst) :
    SameSlot t (t.copySlot src dst desc) i := by
  constructor
  · rw [get, copySlot]
    dsimp only
    rw [Vector.getElem?_setIfInBounds_ne (Ne.symm hne), get]
  · rw [pathBytes, pathBytes, copySlot]
    cases hbuf : t.paths[src]? with
    | none =>
      cases hlen : t.pathLens[src]? with
      | none => rfl
      | some len =>
        dsimp only
        rw [Vector.getElem?_setIfInBounds_ne (Ne.symm hne)]
    | some buf =>
      cases hlen : t.pathLens[src]? with
      | none =>
        dsimp only
        rw [Vector.getElem?_setIfInBounds_ne (Ne.symm hne)]
      | some len =>
        dsimp only
        rw [Vector.getElem?_setIfInBounds_ne (Ne.symm hne),
          Vector.getElem?_setIfInBounds_ne (Ne.symm hne)]

theorem offsetOf_modify (h : t.get fd = some desc)
    (f : FileDesc → FileDesc) : (t.modify fd f).offsetOf fd = (f desc).offset := by
  rw [offsetOf, modify, h]
  dsimp only
  rw [get_setEntry _ (get_lt h), if_pos rfl]
  rfl

theorem lowestFree_eq_some {n : Nat} (h : t.lowestFree = some n) : t.get n = none ∧ n < 8 := by
  obtain ⟨hcond, -⟩ := List.find?_eq_some_iff_append.mp h
  have hmem := List.mem_of_find?_eq_some h
  rw [Bool.and_eq_true, Option.isNone_iff_eq_none] at hcond
  exact ⟨hcond.2, List.mem_range.mp hmem⟩

theorem lowestFree_of_allocFile {path : List UInt8} {flags : UInt32} {n : Nat}
    (h : t.allocFile path flags = some (n, t')) : t.lowestFree = some n := by
  obtain ⟨i, hi, heq⟩ := Option.map_eq_some_iff.mp h
  rw [hi, (Prod.mk.inj heq).1]

theorem get_of_allocFile {path : List UInt8} {flags : UInt32} {n : Nat}
    (h : t.allocFile path flags = some (n, t')) (i : Nat) :
    t'.get i = if i = n then some ⟨.file (UInt8.ofNat n), flags, 0⟩ else t.get i := by
  obtain ⟨j, hj, heq⟩ := Option.map_eq_some_iff.mp h
  obtain ⟨rfl, rfl⟩ := Prod.mk.inj heq
  rw [get_setEntry _ (lowestFree_eq_some hj).2]
  rfl

end FdTable

end ZiqaKernel
