/-
Mounting a ZiqaFS volume into the virtual file system (`fs/ziqafs/vfs.rs`):
the volume's tree is enumerated, and every entry is mounted as a file.
-/
import ZiqaKernel.Vfs
import ZiqaKernel.ZiqaFsRuns

namespace ZiqaKernel

open Vfs Fallible

/-- The loop of `read_dir`. -/
def readDirFrom (x : Inode) : List Nat → FsM (List (Name × UInt32))
  | [] => pure []
  | logical :: rest => do
      let (phys, _) ← inodeGetBlock x logical
      if phys = 0 then readDirFrom x rest
      else do
        let buf ← readBlock phys
        let others ← readDirFrom x rest
        pure (((direntForeach buf 4096).filter
          fun e => e.2 ≠ dotName ∧ e.2 ≠ dotDotName).map Prod.swap ++ others)

/-- `read_dir`. -/
def readDir (id : UInt32) : FsM (List (Name × UInt32)) := do
  let x ← readInode id
  if x.mode ≠ inodeModeDir then err (.other "Not a directory")
  else readDirFrom x (List.range (blocksFor x.size.toNat))

/-- One element of the list that `enumerate_dir` fills. -/
structure EnumEntry where
  path : List UInt8
  inode : UInt32
  mode : UInt16
deriving DecidableEq, Repr

def childPath (base : List UInt8) (name : Name) : List UInt8 :=
  if base = [] ∨ base = [slash] then slash :: name else base ++ slash :: name

/-- The recursive call of `enumerate_dir`, made for directories only. -/
def enumerateBelow (below : UInt32 → List UInt8 → FsM (List EnumEntry))
    (mode : UInt16) (id : UInt32) (path : List UInt8) : FsM (List EnumEntry) :=
  if mode = inodeModeDir then below id path else pure []

/-- The loop of `enumerate_dir` over the entries of one directory. -/
def enumerateEntries (below : UInt32 → List UInt8 → FsM (List EnumEntry))
    (base : List UInt8) : List (Name × UInt32) → FsM (List EnumEntry)
  | [] => pure []
  | (name, id) :: rest => do
      let path := childPath base name
      let x ← okOrNone (readInode id)
      let mode := (x.map Inode.mode).getD 0
      let inner ← enumerateBelow below mode id path
      let others ← enumerateEntries below base rest
      pure (⟨path, id, mode⟩ :: inner ++ others)

/-- `enumerate_dir`.  The recursion ends on a tree of finite depth only; a tree
deeper than `depth` counts as a panic. -/
def enumerateDir : Nat → UInt32 → List UInt8 → FsM (List EnumEntry)
  | 0, _, _ => faulted
  | depth + 1, id, base => do
      let entries ← okOrNone (readDir id)
      enumerateEntries (enumerateDir depth) base (entries.getD [])

/-- `ZiqaFsFile`: the handle of a mounted inode, with the inode as it was when
it was mounted. -/
structure ZiqaFsFile where
  inodeId : UInt32
  inode : Inode

/-- `ZiqaFsFile::read`. -/
def ZiqaFsFile.read (file : ZiqaFsFile) (offset len : Nat) : FsM (List UInt8) :=
  readFile file.inodeId offset len

/-- The loop of `mount_into_vfs`. -/
def mountEntries : List EnumEntry → Vfs ZiqaFsFile → FsM (Vfs ZiqaFsFile)
  | [], v => pure v
  | e :: rest, v => do
      let x ← okOrNone (readInode e.inode)
      match x with
      | some inode => mountEntries rest (v.mount e.path ⟨e.inode, inode⟩)
      | none => mountEntries rest v

/-- `"disk"` and `"/disk"`. -/
def diskName : Name := [100, 105, 115, 107]
def diskPath : List UInt8 := slash :: diskName

/-- `mount_into_vfs`. -/
def mountIntoVfs (depth : Nat) (v : Vfs ZiqaFsFile) : FsM (Vfs ZiqaFsFile) := do
  let entries ← enumerateDir depth rootInode []
  let v ← mountEntries entries v
  let x ← okOrNone (readInode rootInode)
  match x with
  | some inode =>
    pure ((v.mount diskPath ⟨rootInode, inode⟩).mkdirTree diskPath)
  | none => pure v

section

open Fallible

theorem okOrNone_readOnly {α : Type} {x : FsM α} (h : ReadOnly x) : ReadOnly (okOrNone x) := by
  intro fs
  have hstate := h fs
  rcases hrun : x.run fs with ⟨r, fs'⟩
  rw [hrun] at hstate
  simp only [okOrNone, hrun]
  rcases r with (e | _) | a <;> exact hstate

theorem readInode_readOnly (id : UInt32) : ReadOnly (readInode id) :=
  .of_run (readInode_run id)

theorem readDirFrom_readOnly (x : Inode) (logicals : List Nat) :
    ReadOnly (readDirFrom x logicals) := by
  induction logicals with
  | nil => exact .pure _
  | cons logical rest ih =>
    refine .bind (.of_run (inodeGetBlock_run x logical)) fun p => .ite ih ?_
    refine .bind (.of_run (readBlock_run p.1)) fun buf => ?_
    exact .bind ih fun others => .pure _

theorem readDir_readOnly (id : UInt32) : ReadOnly (readDir id) :=
  .bind (readInode_readOnly id) fun x =>
    .ite (.fail _) (readDirFrom_readOnly x _)

theorem enumerateEntries_readOnly {below : UInt32 → List UInt8 → FsM (List EnumEntry)}
    (hbelow : ∀ id path, ReadOnly (below id path)) (base : List UInt8)
    (entries : List (Name × UInt32)) :
    ReadOnly (enumerateEntries below base entries) := by
  induction entries with
  | nil => exact .pure _
  | cons entry rest ih =>
    refine .bind (okOrNone_readOnly (readInode_readOnly _)) fun x => ?_
    refine .bind (.ite (hbelow _ _) (.pure _)) fun inner => ?_
    exact .bind ih fun others => .pure _

theorem enumerateDir_readOnly (depth : Nat) (id : UInt32) (base : List UInt8) :
    ReadOnly (enumerateDir depth id base) := by
  induction depth generalizing id base with
  | zero => exact .fail _
  | succ depth ih =>
    exact .bind (okOrNone_readOnly (readDir_readOnly id)) fun entries =>
      enumerateEntries_readOnly ih base _

end

section

variable {fs : ZiqaFs}

theorem okOrNone_readInode {id : UInt32} {x : Inode} (h : loadInode fs.device id = .ok x) :
    (okOrNone (readInode id)).run fs = (.ok (some x), fs) := by
  simp only [okOrNone, readInode_run, h]

/-- The mounts of the enumerated entries, and that of the root as `/disk`. -/
def mountPoints (entries : List EnumEntry) : List (Position × UInt32) :=
  entries.map (fun e => (components e.path, e.inode)) ++ [([diskName], rootInode)]

def mountIds (mounts : List (Position × ZiqaFsFile)) : List (Position × UInt32) :=
  mounts.map fun m => (m.1, m.2.inodeId)

theorem mountEntries_run {entries : List EnumEntry}
    (hread : ∀ e ∈ entries, ∃ x, loadInode fs.device e.inode = .ok x)
    (v : Vfs ZiqaFsFile) :
    ∃ mounts, mountIds mounts = entries.map (fun e => (components e.path, e.inode)) ∧
      (mountEntries entries v).run fs = (.ok (v.mountAll mounts), fs) := by
  induction entries generalizing v with
  | nil => exact ⟨[], rfl, rfl⟩
  | cons e rest ih =>
    obtain ⟨x, hx⟩ := hread e List.mem_cons_self
    obtain ⟨mounts, hids, hrun⟩ :=
      ih (fun e he => hread e (List.mem_cons_of_mem _ he)) (v.mount e.path ⟨e.inode, x⟩)
    refine ⟨(components e.path, ⟨e.inode, x⟩) :: mounts, ?_, ?_⟩
    · rw [mountIds, List.map_cons, List.map_cons, ← hids, mountIds]
    · rw [mountEntries, run_bind_of_ok (okOrNone_readInode hx)]
      exact hrun

theorem Vfs.lastMount_map {H K : Type} (f : H → K) (mounts : List (Position × H)) (p : Position) :
    lastMount (mounts.map fun m => (m.1, f m.2)) p = (lastMount mounts p).map f := by
  simp only [lastMount, List.filter_map, List.getLast?_map, Option.map_map]
  rfl

theorem Vfs.overshadowed_map {H K : Type} (f : H → K)
    (mounts : List (Position × H)) (p : Position) :
    Overshadowed (mounts.map fun m => (m.1, f m.2)) p ↔ Overshadowed mounts p := by
  simp [Overshadowed]

def ReadAlike (fs : ZiqaFs) (a b : UInt32) : Prop :=
  ∀ offset len, ((readFile a offset len).run fs).1 = ((readFile b offset len).run fs).1

theorem ReadAlike.refl (fs : ZiqaFs) (a : UInt32) : ReadAlike fs a a :=
  fun _ _ => rfl

/-- An enumerated entry resolves: a directory to a directory, anything else to
a file that reads like the inode. -/
def Exposed (fs : ZiqaFs) (v : Vfs ZiqaFsFile) (e : EnumEntry) : Prop :=
  ∃ p, v.resolveNode e.path = .ok p ∧
    if e.mode = inodeModeDir then v.node p = some .directory
    else ∃ file, v.node p = some (.file file) ∧ ∀ offset len, ((file.read offset len).run fs).1 =
        ((readFile e.inode offset len).run fs).1

/-- What the list of mounts must look like for an entry to be exposed.  Since
every entry is itself mounted as a file, a directory can only be exposed where
its path and the parts that `resolve_node` follows differ. -/
def Unshadowed (fs : ZiqaFs) (mounts : List (Position × UInt32)) (e : EnumEntry) :
    Prop :=
  if e.mode = inodeModeDir then
    walkedParts e.path = [] ∨ (¬ Overshadowed mounts (walkedParts e.path) ∧
      (∀ m ∈ mounts, m.1 ≠ walkedParts e.path) ∧
      ∃ m ∈ mounts, walkedParts e.path <+: m.1)
  else walkedParts e.path ≠ [] ∧ ¬ Overshadowed mounts (walkedParts e.path) ∧
    ∃ id, lastMount mounts (walkedParts e.path) = some id ∧ ReadAlike fs id e.inode

theorem Vfs.resolveNode_node_iff {H : Type} (v : Vfs H) (path : List UInt8) (x : VfsNode H) :
    (∃ p, v.resolveNode path = .ok p ∧ v.node p = some x) ↔ v.node (walkedParts path) = some x := by
  constructor
  · rintro ⟨p, hp, hx⟩
    rw [← (v.resolveNode_eq_ok_iff.mp hp).1]
    exact hx
  · intro hx
    exact ⟨_, v.resolveNode_eq_ok_iff.mpr ⟨rfl, by rw [hx]; rfl⟩, hx⟩

theorem exposed_iff {mounts : List (Position × ZiqaFsFile)} {v : Vfs ZiqaFsFile}
    (h : Vfs.Shows mounts v) (e : EnumEntry) :
    Exposed fs v e ↔ Unshadowed fs (mountIds mounts) e := by
  unfold Exposed Unshadowed
  have hover := overshadowed_map ZiqaFsFile.inodeId mounts (walkedParts e.path)
  have hlast := lastMount_map ZiqaFsFile.inodeId mounts (walkedParts e.path)
  rw [← mountIds] at hover hlast
  by_cases hmode : e.mode = inodeModeDir
  · simp only [hmode, ↓reduceIte]
    have hnone : (∀ m ∈ mountIds mounts, m.1 ≠ walkedParts e.path) ↔
        lastMount mounts (walkedParts e.path) = none := by
      rw [← lastMount_eq_none_iff, hlast, Option.map_eq_none_iff]
    have hbeyond : (∃ m ∈ mountIds mounts, walkedParts e.path <+: m.1) ↔
        ∃ m ∈ mounts, walkedParts e.path <+: m.1 := by
      simp [mountIds]
    rw [v.resolveNode_node_iff, h.directory_iff, hover, hnone, hbeyond]
  · simp only [hmode, ↓reduceIte]
    constructor
    · rintro ⟨p, hp, file, hfile, hread⟩
      obtain ⟨rfl, -⟩ := v.resolveNode_eq_ok_iff.mp hp
      obtain ⟨hnil, hfree, hhere⟩ := (h.file_iff _ _).mp hfile
      refine ⟨hnil, mt hover.mp hfree, file.inodeId, ?_, hread⟩
      rw [hlast, hhere, Option.map_some]
    · rintro ⟨hnil, hfree, id, hhere, hread⟩
      rw [hlast, Option.map_eq_some_iff] at hhere
      obtain ⟨file, hfile, rfl⟩ := hhere
      have hnode := (h.file_iff _ _).mpr ⟨hnil, mt hover.mpr hfree, hfile⟩
      exact ⟨_, v.resolveNode_eq_ok_iff.mpr ⟨rfl, by rw [hnode]; rfl⟩, file, hnode, hread⟩

theorem components_diskPath : components diskPath = [diskName] := by decide

theorem Vfs.Shows.mkdirTree_disk {H : Type} {mounts : List (Position × H)}
    {v : Vfs H} {handle : H} (h : Vfs.Shows (mounts ++ [([diskName], handle)]) v) :
    v.mkdirTree diskPath = v := by
  have hwalked : walkedParts diskPath = [diskName] := by decide
  have htrim : trimSlashes diskPath = diskPath := by decide
  have hfile : v.node [diskName] = some (.file handle) := by
    refine (h.file_iff _ _).mpr ⟨by simp, ?_, by simp [lastMount_append]⟩
    rintro ⟨m, -, hnil, hm, hne⟩
    cases hm' : m.1 with
    | nil => exact hnil hm'
    | cons name rest =>
      rw [hm', List.cons_prefix_cons, List.prefix_nil] at hm
      exact hne (by rw [hm', hm.1, hm.2])
  rw [mkdirTree, htrim, if_pos]
  right
  rw [pathExists, hwalked, hfile]
  rfl

/-- On a volume whose inodes can be read, `mount_into_vfs` makes the mounts of
the enumerated entries, then that of the root. -/
theorem mountIntoVfs_run {depth : Nat} {entries : List EnumEntry}
    (henum : ((enumerateDir depth rootInode []).run fs).1 = .ok entries)
    (hread : ∀ e ∈ entries, ∃ x, loadInode fs.device e.inode = .ok x)
    (hroot : ∃ x, loadInode fs.device rootInode = .ok x) :
    ∃ mounts, mountIds mounts = mountPoints entries ∧ (mountIntoVfs depth empty).run fs =
        (.ok (mountAll empty mounts), fs) := by
  have hrun : (enumerateDir depth rootInode []).run fs = (.ok entries, fs) :=
    Prod.ext henum (enumerateDir_readOnly depth rootInode [] fs)
  obtain ⟨x, hx⟩ := hroot
  obtain ⟨mounts, hids, hmounts⟩ := mountEntries_run hread Vfs.empty
  have hall := Vfs.shows_mountAll (mounts ++ [([diskName], ⟨rootInode, x⟩)])
  have hlast : (Vfs.mountAll Vfs.empty mounts).mount diskPath ⟨rootInode, x⟩ =
      Vfs.mountAll Vfs.empty (mounts ++ [([diskName], ⟨rootInode, x⟩)]) := by
    rw [Vfs.mount, components_diskPath, Vfs.mountAll, Vfs.mountAll, List.foldl_append]
    rfl
  refine ⟨mounts ++ [([diskName], ⟨rootInode, x⟩)], ?_, ?_⟩
  · rw [mountPoints, ← hids]
    simp [mountIds]
  · rw [mountIntoVfs, run_bind_of_ok hrun, run_bind_of_ok hmounts,
      run_bind_of_ok (okOrNone_readInode hx)]
    simp only [hlast, hall.mkdirTree_disk]
    rfl

/-- Every path that `enumerate_dir` lists is exposed after `mount_into_vfs`
exactly when the list of mounts leaves every one of them unshadowed. -/
theorem mountIntoVfs_exposes_iff (fs : ZiqaFs) (depth : Nat) (entries : List EnumEntry)
    (henum : ((enumerateDir depth rootInode []).run fs).1 = .ok entries)
    (hread : ∀ e ∈ entries, ∃ x, loadInode fs.device e.inode = .ok x)
    (hroot : ∃ x, loadInode fs.device rootInode = .ok x) :
    ∃ v, (mountIntoVfs depth empty).run fs = (.ok v, fs) ∧ ((∀ e ∈ entries, Exposed fs v e) ↔
        ∀ e ∈ entries, Unshadowed fs (mountPoints entries) e) := by
  obtain ⟨mounts, hids, hrun⟩ := mountIntoVfs_run henum hread hroot
  refine ⟨_, hrun, forall₂_congr fun e _ => ?_⟩
  rw [exposed_iff (shows_mountAll mounts), hids]

end

def readable (fs : ZiqaFs) (id : UInt32) : Bool := (liveInode fs.device id).isSome

theorem exists_loadInode {fs : ZiqaFs} {id : UInt32} (h : readable fs id = true) :
    ∃ x, loadInode fs.device id = .ok x := by
  obtain ⟨x, hx⟩ := Option.isSome_iff_exists.mp h
  exact ⟨x, liveInode_eq_some_iff.mp hx⟩

/-- The tree of a volume with one file, `/f`. -/
def flatTree : List EnumEntry := [⟨[47, 102], 2, inodeModeFile⟩]

theorem volumeCreated_exposed :
    ∃ v, (mountIntoVfs 2 empty).run volumeCreated = (.ok v, volumeCreated) ∧
      ∀ e ∈ flatTree, Exposed volumeCreated v e := by
  have henum : ((enumerateDir 2 rootInode []).run volumeCreated).1 = .ok flatTree := by
    decide +kernel
  have hread : ∀ e ∈ flatTree, readable volumeCreated e.inode = true := by
    decide +kernel
  have hroot : readable volumeCreated rootInode = true := by decide +kernel
  obtain ⟨v, hrun, hiff⟩ := mountIntoVfs_exposes_iff volumeCreated 2 flatTree henum
    (fun e he => exists_loadInode (hread e he)) (exists_loadInode hroot)
  refine ⟨v, hrun, hiff.mpr fun e he => ?_⟩
  obtain rfl : e = ⟨[47, 102], 2, inodeModeFile⟩ := List.mem_singleton.mp he
  rw [Unshadowed, if_neg (by decide)]
  refine ⟨by decide, ?_, 2, by decide, ReadAlike.refl _ _⟩
  unfold Overshadowed
  decide

/-- A volume with a directory `/d` that holds a file `f`. -/
def volumeNested : ZiqaFs :=
  ((createFile 0 2 [102]).run ((createDir 0 0 1 [100]).run volumeFormatted).2).2

def nestedTree : List EnumEntry :=
  [⟨[47, 100], 2, inodeModeDir⟩, ⟨[47, 100, 47, 102], 3, inodeModeFile⟩]

/-- The directory is mounted as a file, and the mount of the file below it is
dropped. -/
theorem volumeNested_not_exposed :
    ((enumerateDir 3 rootInode []).run volumeNested).1 = .ok nestedTree ∧
      (∀ e ∈ nestedTree, readable volumeNested e.inode = true) ∧
      ∃ v, (mountIntoVfs 3 empty).run volumeNested = (.ok v, volumeNested) ∧
        (∀ e ∈ nestedTree, ¬ Exposed volumeNested v e) ∧
        ∀ p, v.resolveNode [47, 100, 47, 102] ≠ .ok p := by
  have henum : ((enumerateDir 3 rootInode []).run volumeNested).1 = .ok nestedTree := by
    decide +kernel
  have hread : ∀ e ∈ nestedTree, readable volumeNested e.inode = true := by
    decide +kernel
  have hroot : readable volumeNested rootInode = true := by decide +kernel
  obtain ⟨mounts, hids, hrun⟩ := mountIntoVfs_run henum
    (fun e he => exists_loadInode (hread e he)) (exists_loadInode hroot)
  have hshows := shows_mountAll mounts
  have hover : Overshadowed (mountPoints nestedTree) [[100], [102]] := by
    unfold Overshadowed
    decide
  refine ⟨henum, hread, _, hrun, fun e he => ?_, fun p hp => ?_⟩
  · rw [exposed_iff hshows, hids]
    rcases List.mem_pair.mp he with rfl | rfl
    · rw [Unshadowed, if_pos rfl]
      rintro (hnil | ⟨-, hnone, -⟩)
      · exact absurd hnil (by decide)
      · exact hnone ([[100]], 2) (by decide) (by decide)
    · rw [Unshadowed, if_neg (by decide)]
      exact fun h => h.2.1 hover
  · obtain ⟨rfl, hsome⟩ := (resolveNode_eq_ok_iff _).mp hp
    rw [← hids] at hover
    have hnone := hshows.node_of_overshadowed ((overshadowed_map _ _ _).mp hover)
    rw [show walkedParts [47, 100, 47, 102] = [[100], [102]] by decide, hnone] at hsome
    cases hsome

end ZiqaKernel
