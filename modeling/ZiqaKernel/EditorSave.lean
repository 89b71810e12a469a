/-
Saving in the editor (`edit.rs`) through the virtual file system (`fs/vfs.rs`)
to a RAM file (`fs/ramfs.rs`) or a file of a ZiqaFS volume (`fs/ziqafs/vfs.rs`).
`save` creates the file when it is missing and writes the buffer from offset
zero; nothing on the way shortens a file.
-/
import ZiqaKernel.VfsHeap
import ZiqaKernel.ZiqaFsMount
import ZiqaKernel.ZiqaFsWhole

namespace ZiqaKernel

open Function Vfs Fallible

structure FatFile where
  read : Nat → Nat → Except Failure (List UInt8)
  write : List UInt8 → Nat → Except Failure Nat
  size : Nat

/-- The implementations of `File`. -/
inductive FileObject where
  | ram (data : List UInt8)
  | ziqa (volume : Nat) (file : ZiqaFsFile)
  | fat (file : FatFile)

/-- The tree, the file objects its nodes point to, the volumes that files of
ZiqaFS lie on, and `ZIQAFS`. -/
structure FileSystems where
  vfs : Vfs Nat
  files : Nat → FileObject
  nextFile : Nat
  volumes : Nat → ZiqaFs
  ziqafs : Option Nat

/-- `RamFile::read`. -/
def ramRead (data : List UInt8) (offset len : Nat) : List UInt8 :=
  if offset ≥ data.length then []
  else (data.drop offset).take (min (data.length - offset) len)

/-- `RamFile::write`. -/
def ramWrite (data buf : List UInt8) (offset : Nat) : List UInt8 :=
  let newMinSize := offset + buf.length
  let grown := if newMinSize > data.length then ByteVector.resize data newMinSize else data
  grown.take offset ++ buf ++ grown.drop newMinSize

/-- `ZiqaFsFile::write`: the inode kept in the object is read again after a
write that succeeded. -/
def ZiqaFsFile.write (file : ZiqaFsFile) (now : UInt32) (buf : List UInt8) (offset : Nat) :
    FsM (Nat × ZiqaFsFile) := do
  let written ← writeFile now file.inodeId offset buf
  let x ← okOrNone (readInode file.inodeId)
  pure (written, { file with inode := x.getD file.inode })

/-- `ZiqaFsFile::size`. -/
def ZiqaFsFile.size (file : ZiqaFsFile) : FsM Nat := do
  let x ← okOrNone (readInode file.inodeId)
  pure (x.getD file.inode).size.toNat

/-- The walk of `root_lookup`. -/
def rootLookupFrom : UInt32 → List Name → FsM UInt32
  | current, [] => pure current
  | current, part :: rest => do
      let x ← readInode current
      if x.mode ≠ inodeModeDir then err (.other "Not a directory")
      else
        match ← lookupInDir x part with
        | none => err (.other "File not found")
        | some next => rootLookupFrom next rest

/-- `root_lookup`. -/
def rootLookup (path : List UInt8) : FsM UInt32 :=
  let name := trimSlashes (path.dropWhile (· = slash))
  if name = [] then err (.other "Empty path")
  else rootLookupFrom rootInode (name.splitOn slash)

/-- The bytes of `"/disk/"` and `"/fat/"`. -/
def diskPrefix : List UInt8 := [47, 100, 105, 115, 107, 47]
def fatPrefix : List UInt8 := [47, 102, 97, 116, 47]

/-- `trim_start_matches` for a text: it is taken off as often as it stands there. -/
def trimStart (pat : List UInt8) : Nat → List UInt8 → List UInt8
  | 0, text => text
  | fuel + 1, text =>
    if pat.isPrefixOf text then trimStart pat fuel (text.drop pat.length) else text

/-- The directory and the name that `save` creates a file under.  A directory
that is not found counts as inode zero. -/
def saveTarget (name : List UInt8) : FsM (UInt32 × Name) :=
  if slash ∈ name then do
    let dir := ((name.reverse.dropWhile isNotSlash).drop 1).reverse
    let parent ← okOrNone (rootLookup (diskPrefix ++ dir))
    pure (parent.getD 0, leafOf name)
  else pure (rootInode, name)

/-- The part of `save` that creates a file on the volume. -/
def createOnVolume (now : UInt32) (name : List UInt8) : FsM (Option ZiqaFsFile) := do
  let target ← saveTarget name
  match ← okOrNone (createFile now target.1 target.2) with
  | none => pure none
  | some id => do
      let inode ← okOrNone (readInode id)
      pure (inode.map fun x => ⟨id, x⟩)

namespace FileSystems

/-- `Vfs::mount` of a new file object. -/
def mountFile (s : FileSystems) (path : List UInt8) (object : FileObject) : FileSystems :=
  { s with
    vfs := s.vfs.mount path s.nextFile
    files := update s.files s.nextFile object
    nextFile := s.nextFile + 1 }

def setVolume (s : FileSystems) (v : Nat) (fs : ZiqaFs) : FileSystems :=
  { s with volumes := update s.volumes v fs }

/-- `File::read` of a file object. -/
def readObject (s : FileSystems) (n offset len : Nat) : Except Failure (List UInt8) :=
  match s.files n with
  | .ram data => .ok (ramRead data offset len)
  | .ziqa v file => ((file.read offset len).run (s.volumes v)).1
  | .fat file => file.read offset len

/-- `File::size` of a file object. -/
def objectSize (s : FileSystems) (n : Nat) : Except Failure Nat :=
  match s.files n with
  | .ram data => .ok data.length
  | .ziqa v file => (file.size.run (s.volumes v)).1
  | .fat file => .ok file.size

/-- `File::write` of a file object. -/
def writeObject (s : FileSystems) (now : UInt32) (n : Nat) (buf : List UInt8) (offset : Nat) :
    Except Failure Nat × FileSystems :=
  match s.files n with
  | .ram data =>
    (.ok buf.length,
      { s with files := update s.files n (.ram (ramWrite data buf offset)) })
  | .ziqa v file =>
    match (file.write now buf offset).run (s.volumes v) with
    | (.error e, fs) => (.error e, s.setVolume v fs)
    | (.ok (written, file'), fs) =>
      (.ok written, { s.setVolume v fs with
        files := update s.files n (.ziqa v file') })
  | .fat file => (file.write buf offset, s)

def fileAt (s : FileSystems) (path : List UInt8) : Except AbiError (Option Nat) :=
  match s.vfs.resolveNode path with
  | .error e => .error e
  | .ok p =>
    match s.vfs.node p with
    | some (.file n) => .ok (some n)
    | _ => .ok none

/-- `read_raw`. -/
def readRaw (s : FileSystems) (path : List UInt8) (offset len : Nat) :
    Except Failure (List UInt8) :=
  match s.fileAt path with
  | .error e => .error (.error e)
  | .ok none => .error (.error (.other "Is a directory"))
  | .ok (some n) => s.readObject n offset len

/-- `file_size`. -/
def fileSize (s : FileSystems) (path : List UInt8) : Except Failure (Option Nat) :=
  match s.fileAt path with
  | .error _ | .ok none => .ok none
  | .ok (some n) => (s.objectSize n).map some

/-- `read_raw_all`. -/
def readRawAll (s : FileSystems) (path : List UInt8) : Except Failure (List UInt8) :=
  match s.fileSize path with
  | .error e => .error e
  | .ok none => .error (.error (.other "File not found"))
  | .ok (some size) => readWhole (s.readRaw path) size size 0

/-- `write_raw`. -/
def writeRaw (s : FileSystems) (now : UInt32) (path buf : List UInt8) (offset : Nat) :
    Except Failure Nat × FileSystems :=
  match s.fileAt path with
  | .error e => (.error (.error e), s)
  | .ok none => (.error (.error (.other "Is a directory")), s)
  | .ok (some n) => s.writeObject now n buf offset

/-- `Vfs::create`; `fat` is what `create_file_on_disk` returns. -/
def create (s : FileSystems) (fat : List UInt8 → Option FatFile) (path : List UInt8) :
    FileSystems :=
  if s.vfs.pathExists path then s
  else if fatPrefix.isPrefixOf path then
    match fat path with
    | some file => s.mountFile path (.fat file)
    | none => s.mountFile path (.ram [])
  else s.mountFile path (.ram [])

/-- The branch of `save` for a missing file under `/disk/`. -/
def createOnDisk (s : FileSystems) (now : UInt32) (path : List UInt8) :
    Except Failure Unit × FileSystems :=
  match s.ziqafs with
  | none => (.ok (), s)
  | some v =>
    match (createOnVolume now (trimStart diskPrefix path.length path)).run (s.volumes v) with
    | (.error e, fs) => (.error e, s.setVolume v fs)
    | (.ok none, fs) => (.ok (), s.setVolume v fs)
    | (.ok (some file), fs) => (.ok (), (s.setVolume v fs).mountFile path (.ziqa v file))

/-- The first half of `save`: a file that is missing is created. -/
def ensureFile (s : FileSystems) (fat : List UInt8 → Option FatFile) (now : UInt32)
    (path : List UInt8) : Except Failure Unit × FileSystems :=
  if s.vfs.pathExists path then (.ok (), s)
  else if diskPrefix.isPrefixOf path then s.createOnDisk now path
  else (.ok (), s.create fat path)

/-- `Editor::save`, with the outcome of the write, which the source drops.  The
timer is read once when the file is created and once when it is written. -/
def save (s : FileSystems) (fat : List UInt8 → Option FatFile) (now now' : UInt32)
    (path buf : List UInt8) : Except Failure Nat × FileSystems :=
  match s.ensureFile fat now path with
  | (.error e, s1) => (.error e, s1)
  | (.ok (), s1) => s1.writeRaw now' path buf 0

end FileSystems

section

variable {data buf : List UInt8}

theorem ramWrite_zero (data buf : List UInt8) :
    ramWrite data buf 0 = buf ++ data.drop buf.length := by
  simp only [ramWrite, Nat.zero_add, List.take_zero, List.nil_append]
  split_ifs with hgrow
  · rw [List.drop_eq_nil_of_le (by rw [ByteVector.length_resize]),
      List.drop_eq_nil_of_le (by omega)]
  · rfl

theorem ramWrite_eq_iff : ramWrite data buf 0 = buf ↔ data.length ≤ buf.length := by
  rw [ramWrite_zero, List.append_right_eq_self, List.drop_eq_nil_iff]

theorem readWhole_ram (data : List UInt8) :
    readWhole (fun offset len => (.ok (ramRead data offset len) : Except Failure _))
      data.length data.length 0 = .ok data := by
  apply readWhole_eq
  · rw [ramRead]
    split_ifs with hempty
    · have hnil : data = [] := List.length_eq_zero_iff.mp (by omega)
      rw [hnil]
    · rw [Nat.sub_zero, Nat.min_self, List.drop_zero, List.take_length]
  · exact Nat.le_refl _
  · exact fun hlt => absurd hlt (Nat.lt_irrefl _)

end

namespace FileSystems

variable {s s' : FileSystems} {path buf : List UInt8} {now : UInt32} {n k : Nat}

theorem fileAt_eq_some_iff :
    s.fileAt path = .ok (some n) ↔ s.vfs.node (walkedParts path) = some (.file n) := by
  unfold fileAt
  constructor
  · intro h
    split at h
    · cases h
    · next p hp =>
      rw [((s.vfs.resolveNode_eq_ok_iff).mp hp).1] at h
      split at h
      · next m hm =>
        rw [Except.ok.injEq, Option.some.injEq] at h
        rw [hm, h]
      · cases h
  · intro h
    have hp : s.vfs.resolveNode path = .ok (walkedParts path) :=
      s.vfs.resolveNode_eq_ok_iff.mpr ⟨rfl, by rw [h]; rfl⟩
    rw [hp]
    simp only [h]

theorem readRaw_eq (h : s.fileAt path = .ok (some n)) : s.readRaw path = s.readObject n := by
  funext offset len
  rw [readRaw, h]

theorem readRawAll_eq (size : Nat) (h : s.fileAt path = .ok (some n))
    (hsize : s.objectSize n = .ok size) :
    s.readRawAll path = readWhole (s.readObject n) size size 0 := by
  rw [readRawAll, fileSize, h]
  simp only [hsize]
  rw [← readRaw_eq h]
  rfl

def ObjectReplaced (s : FileSystems) (n : Nat) (buf : List UInt8) : Prop :=
  match s.files n with
  | .ram data => data.length ≤ buf.length
  | .ziqa v file => ∀ x, loadInode (s.volumes v).device file.inodeId = .ok x →
      Replaces (s.volumes v).device x buf
  | .fat _ => True

def isFat (s : FileSystems) (path : List UInt8) : Bool :=
  match s.fileAt path with
  | .ok (some n) =>
    match s.files n with
    | .fat _ => true
    | _ => false
  | _ => false

theorem writeRaw_eq_ok {written : Nat} (h : s.writeRaw now path buf 0 = (.ok written, s')) :
    ∃ n, s.fileAt path = .ok (some n) ∧ s.writeObject now n buf 0 = (.ok written, s') := by
  unfold writeRaw at h
  split at h
  · cases h
  · cases h
  · next n hn => exact ⟨n, hn, h⟩

theorem writeObject_vfs (s : FileSystems) (now : UInt32) (n : Nat) (buf : List UInt8)
    (offset : Nat) : (s.writeObject now n buf offset).2.vfs = s.vfs := by
  unfold writeObject
  split
  · rfl
  · split <;> rfl
  · rfl

theorem fileAt_congr (h : s'.vfs = s.vfs) : s'.fileAt path = s.fileAt path := by
  unfold fileAt
  rw [h]

theorem ziqaWrite_ok {fs fs' : ZiqaFs} {file file' : ZiqaFsFile} {written : Nat}
    (h : (file.write now buf 0).run fs = (.ok (written, file'), fs')) :
    (writeFile now file.inodeId 0 buf).run fs = (.ok written, fs') ∧
      file'.inodeId = file.inodeId := by
  rw [ZiqaFsFile.write, run_bind_eq_ok_iff] at h
  obtain ⟨m, fs1, hwrite, h⟩ := h
  rw [run_bind_eq_ok_iff] at h
  obtain ⟨x, fs2, hread, h⟩ := h
  have hsame := okOrNone_readOnly (readInode_readOnly file.inodeId) fs1
  rw [hread] at hsame
  simp only [run_pure, Prod.mk.injEq, Except.ok.injEq] at h hsame
  obtain ⟨⟨rfl, rfl⟩, rfl⟩ := h
  rw [hsame]
  exact ⟨hwrite, rfl⟩

theorem ziqaSize_run {fs : ZiqaFs} {file : ZiqaFsFile} {x : Inode}
    (h : loadInode fs.device file.inodeId = .ok x) :
    (file.size.run fs).1 = .ok x.size.toNat := by
  rw [ZiqaFsFile.size, run_bind_of_ok (okOrNone_readInode h)]
  rfl

/-- After a write that succeeded the path reads as the buffer exactly when the
buffer replaces the file. -/
theorem writeRaw_iff {written : Nat} (hs : ∀ v, Sound (s.volumes v))
    (h : s.writeRaw now path buf 0 = (.ok written, s')) (hfat : s'.isFat path = false)
    (hfile : s.fileAt path = .ok (some n)) :
    s'.readRawAll path = .ok buf ↔ s.ObjectReplaced n buf := by
  obtain ⟨m, hm, hwrite⟩ := writeRaw_eq_ok h
  obtain rfl : m = n := Option.some.inj (Except.ok.inj (hm.symm.trans hfile))
  have hvfs := s.writeObject_vfs now m buf 0
  rw [hwrite] at hvfs
  have hfile' : s'.fileAt path = .ok (some m) := (fileAt_congr hvfs).trans hfile
  unfold writeObject at hwrite
  unfold ObjectReplaced
  cases hobject : s.files m with
  | ram data =>
    simp only [hobject, Prod.mk.injEq] at hwrite
    obtain ⟨-, rfl⟩ := hwrite
    simp only
    rw [readRawAll_eq (ramWrite data buf 0).length hfile' (by simp [objectSize])]
    have hread : readObject { s with
        files := update s.files m (.ram (ramWrite data buf 0)) } m =
        fun offset len => .ok (ramRead (ramWrite data buf 0) offset len) := by
      funext offset len
      simp [readObject]
    rw [hread, readWhole_ram, Except.ok.injEq]
    exact ramWrite_eq_iff
  | ziqa v file =>
    simp only [hobject] at hwrite
    split at hwrite
    · cases hwrite
    · next written' file' fs' hrun =>
      simp only [Prod.mk.injEq] at hwrite
      obtain ⟨-, rfl⟩ := hwrite
      obtain ⟨hrun, hid⟩ := ziqaWrite_ok hrun
      obtain ⟨x, -, -, -, hload, -⟩ := writeFile_ok hrun
      obtain ⟨y, hy, hiff⟩ := writeFile_whole_iff (hs v) hload hrun
      simp only
      rw [readRawAll_eq y.size.toNat hfile']
      · have hread : readObject { s.setVolume v fs' with
            files := update s.files m (.ziqa v file') } m =
            fileRead fs'.device file.inodeId := by
          funext offset len
          simp [readObject, setVolume, ZiqaFsFile.read, readFile_run, hid]
        rw [hread, hiff]
        constructor
        · intro hreplaces x' hx'
          rwa [← Except.ok.inj (hload.symm.trans hx')]
        · exact fun hall => hall x hload
      · simp only [objectSize, setVolume, update_self]
        exact ziqaSize_run (hid.symm ▸ hy)
  | fat file =>
    simp only [hobject, Prod.mk.injEq] at hwrite
    rw [← hwrite.2] at hfile' hfat
    simp [isFat, hfile', hobject] at hfat

end FileSystems

section

open Fallible

variable {fs : ZiqaFs} {now : UInt32} {name buf : List UInt8}

theorem okOrNone_spec {α : Type} {P : ZiqaFs → Prop} {x : FsM α} {Q : α → ZiqaFs → Prop}
    {E : Failure → ZiqaFs → Prop} (h : Spec P x Q E) :
    Spec P (okOrNone x) (fun r s => (∀ a, r = some a → Q a s) ∧ (r = none → ∃ e, E e s)) E := by
  refine ⟨fun s r s' hs hrun => ?_, fun s e s' hs hrun => ?_⟩
  · rcases hx : x.run s with ⟨_ | a, s1⟩
    · next e =>
      cases e with
      | fault => simp [okOrNone, hx] at hrun
      | error e =>
        simp only [okOrNone, hx, Prod.mk.injEq, Except.ok.injEq] at hrun
        obtain ⟨rfl, rfl⟩ := hrun
        exact ⟨fun a ha => (by cases ha), fun _ => ⟨_, h.error s _ s1 hs hx⟩⟩
    · simp only [okOrNone, hx, Prod.mk.injEq, Except.ok.injEq] at hrun
      obtain ⟨rfl, rfl⟩ := hrun
      refine ⟨fun b hb => ?_, fun hnone => (by cases hnone)⟩
      rw [← Option.some.inj hb]
      exact h.ok s a s1 hs hx
  · rcases hx : x.run s with ⟨_ | a, s1⟩
    · next e1 =>
      cases e1 with
      | fault =>
        simp only [okOrNone, hx, Prod.mk.injEq, Except.error.injEq] at hrun
        obtain ⟨rfl, rfl⟩ := hrun
        exact h.error s _ s1 hs hx
      | error e1 => simp [okOrNone, hx] at hrun
    · simp [okOrNone, hx] at hrun

theorem lookupInDir_readOnly (dir : Inode) (part : Name) : ReadOnly (lookupInDir dir part) := by
  intro s
  rcases hrun : (lookupInDir dir part).run s with ⟨_ | a, s'⟩
  · exact (lookupInDir_spec (P := (· = s))).error s _ s' rfl hrun
  · exact (lookupInDir_spec (P := (· = s))).ok s a s' rfl hrun

theorem rootLookupFrom_readOnly (current : UInt32) (parts : List Name) :
    ReadOnly (rootLookupFrom current parts) := by
  induction parts generalizing current with
  | nil => exact .pure _
  | cons part rest ih =>
    refine .bind (readInode_readOnly current) fun x => .ite (.fail _) ?_
    refine .bind (lookupInDir_readOnly x part) fun next => ?_
    cases next with
    | none => exact .fail _
    | some id => exact ih id

theorem saveTarget_readOnly (name : List UInt8) : ReadOnly (saveTarget name) :=
  .ite (.bind (okOrNone_readOnly (.ite (.fail _) (rootLookupFrom_readOnly _ _)))
    fun _ => .pure _) (.pure _)

/-- The slot that is taken for a new file is not the one of its directory, or
the buffer covers the directory entry that is written into it then. -/
def SlotClear (fs : ZiqaFs) (name buf : List UInt8) : Prop :=
  ∀ target, ((saveTarget name).run fs).1 = .ok target →
    nextInode fs.device = some target.1 → 4096 ≤ buf.length

structure Created (fs s : ZiqaFs) (name : List UInt8) (file : ZiqaFsFile) : Prop where
  sound : Sound s
  replaced : ∀ buf, (∀ x, loadInode s.device file.inodeId = .ok x →
    Replaces s.device x buf) ↔ SlotClear fs name buf

theorem replaces_fresh {d : Disk} {mode : UInt16} : Replaces d (freshInode mode now).stamped buf :=
  Or.inl (Nat.zero_le _)

theorem replaces_entry_iff {d : Disk} {x : Inode} (hsize : x.size = 4096)
    (hblock : x.blocks 0 ≠ 0) : Replaces d x buf ↔ 4096 ≤ buf.length := by
  have hnat : x.size.toNat = 4096 := by rw [hsize]; rfl
  rw [Replaces, hnat]
  refine ⟨?_, Or.inl⟩
  rintro (h | ⟨haligned, hhole⟩)
  · exact h
  · by_contra hshort
    have hzero : buf.length / 4096 = 0 := by omega
    have hmap : blockMap d x 0 = .ok (x.blocks 0, x.blockChecksums 0) := rfl
    rw [hzero, contents, hmap] at hhole
    simp only [hblock, ↓reduceIte] at hhole
    obtain ⟨b, -, hb⟩ := Except.map_eq_ok hhole
    cases hb

theorem createOnVolume_spec (now : UInt32) (name : List UInt8) (hs : Sound fs) :
    Spec (· = fs) (createOnVolume now name)
      (fun r s => Sound s ∧ ∀ file, r = some file → Created fs s name file)
      (fun _ => Sound) := by
  have htarget : Spec (· = fs) (saveTarget name)
      (fun target s => s = fs ∧ ((saveTarget name).run fs).1 = .ok target)
      (fun _ s => s = fs) := by
    have hsame := saveTarget_readOnly name fs
    refine ⟨?_, ?_⟩
    · rintro _ target s rfl hrun
      rw [hrun] at hsame ⊢
      exact ⟨hsame, rfl⟩
    · rintro _ e s rfl hrun
      rw [hrun] at hsame
      exact hsame
  refine htarget.andThen (fun _ _ h => h ▸ hs) fun target => ?_
  refine Spec.assume fun htarget => ?_
  refine (okOrNone_spec ((createFile_live hs.plain fun _ _ _ _ => trivial).consequence
    (fun _ h => h) (fun _ _ h => h) fun _ _ h => h.toSound)).bind fun created => ?_
  cases created with
  | none =>
    refine Spec.pure fun s h => ⟨?_, fun file hfile => by cases hfile⟩
    obtain ⟨e, hsound⟩ := h.2 rfl
    exact hsound
  | some id =>
    refine Spec.pointwise fun s1 h => ?_
    obtain ⟨⟨hs1, -⟩, hnext, hother, hsame⟩ := h.1 id rfl
    have hread : Spec (· = s1) (okOrNone (readInode id))
        (fun _ s => s = s1) (fun _ s => s = s1) := by
      have hkeep := okOrNone_readOnly (readInode_readOnly id) s1
      refine ⟨?_, ?_⟩ <;> rintro _ r s rfl hrun <;> rw [hrun] at hkeep <;> exact hkeep
    refine hread.andThen (fun _ _ h => h ▸ hs1) fun inode => ?_
    refine Spec.pure fun s hs => ?_
    subst hs
    refine ⟨hs1, fun file hfile => ⟨hs1, fun buf => ?_⟩⟩
    have hid : file.inodeId = id := by
      obtain ⟨x, -, rfl⟩ := Option.map_eq_some_iff.mp hfile
      rfl
    rw [hid]
    by_cases hparent : id = target.1
    · obtain ⟨y, hlive, hsize, hblock⟩ := hsame hparent
      have hload := liveInode_eq_some_iff.mp hlive
      have hleft : (∀ x, loadInode s.device id = .ok x → Replaces s.device x buf) ↔
          4096 ≤ buf.length := by
        rw [← replaces_entry_iff (d := s.device) hsize hblock]
        constructor
        · exact fun h => h y hload
        · intro h x hx
          rwa [← Except.ok.inj (hload.symm.trans hx)]
      rw [hleft]
      constructor
      · exact fun h _ _ _ => h
      · exact fun h => h target htarget (hparent ▸ hnext)
    · have hload := liveInode_eq_some_iff.mp (hother hparent)
      constructor
      · intro _ target' htarget' hnext'
        rw [htarget, Except.ok.injEq] at htarget'
        rw [hnext, Option.some.injEq] at hnext'
        exact absurd (htarget' ▸ hnext') hparent
      · intro _ x hx
        rw [← Except.ok.inj (hload.symm.trans hx)]
        exact replaces_fresh

end

theorem Vfs.mount_new {H : Type} {v : Vfs H} {path : List UInt8} {handle handle' : H}
    {q : Position} (hnone : v.node q = none)
    (h : (v.mount path handle).node q = some (.file handle')) : handle' = handle := by
  by_cases hparts : components path = []
  · rw [mount, hparts, mountFrom, hnone] at h
    cases h
  have hnode := node_mountFrom handle v.root_isSome hparts q
  rw [List.nil_append] at hnode
  by_cases hblocked : v.Blocked (components path)
  · rw [mount, hnode.1 hblocked, hnone] at h
    cases h
  · rw [mount, hnode.2 hblocked, mounted] at h
    split_ifs at h with hbelow habove
    · by_cases hdrop : q.drop (components path).length = []
      · rw [hdrop] at h
        cases h
        rfl
      · simp [VfsTree.newFile, VfsTree.single, hdrop] at h
    · cases h
    · rw [hnone] at h
      cases h

namespace FileSystems

variable {s s' s1 : FileSystems} {path buf : List UInt8} {now now' : UInt32} {n : Nat}
  {fat : List UInt8 → Option FatFile}

/-- The buffer replaces what stands at the path.  A new file has to stay clear
of the slot of its directory. -/
def SaveReplaces (s : FileSystems) (path buf : List UInt8) : Prop :=
  match s.vfs.node (walkedParts path) with
  | some (.file n) => s.ObjectReplaced n buf
  | some .directory => True
  | none =>
    if diskPrefix.isPrefixOf path then
      ∀ v, s.ziqafs = some v → SlotClear (s.volumes v) (trimStart diskPrefix path.length path) buf
    else True

theorem fileAt_mountFile {object : FileObject} (hnone : s.vfs.node (walkedParts path) = none)
    (h : (s.mountFile path object).fileAt path = .ok (some n)) :
    (s.mountFile path object).files n = object := by
  have hn : n = s.nextFile := mount_new hnone (fileAt_eq_some_iff.mp h)
  rw [hn]
  exact update_self _ _ _

theorem fileAt_none (hnone : s.vfs.node (walkedParts path) = none) :
    s.fileAt path ≠ .ok (some n) := by
  intro h
  rw [fileAt_eq_some_iff, hnone] at h
  cases h

theorem objectReplaced_create (hnone : s.vfs.node (walkedParts path) = none)
    (hfile : (s.create fat path).fileAt path = .ok (some n)) :
    (s.create fat path).ObjectReplaced n buf := by
  have hmissing : ¬ s.vfs.pathExists path := by simp [pathExists, hnone]
  have hram : ∀ object, (∃ file, object = .fat file) ∨ object = .ram [] →
      (s.mountFile path object).fileAt path = .ok (some n) →
      (s.mountFile path object).ObjectReplaced n buf := by
    intro object hobject hat
    rw [ObjectReplaced, fileAt_mountFile hnone hat]
    rcases hobject with ⟨file, rfl⟩ | rfl
    · trivial
    · exact Nat.zero_le _
  unfold create at hfile ⊢
  rw [if_neg hmissing] at hfile ⊢
  split_ifs at hfile ⊢ with hprefix
  · cases hmade : fat path with
    | none =>
      rw [hmade] at hfile
      exact hram _ (Or.inr rfl) hfile
    | some file =>
      rw [hmade] at hfile
      exact hram _ (Or.inl ⟨file, rfl⟩) hfile
  · exact hram _ (Or.inr rfl) hfile

theorem volumes_setVolume (hs : ∀ v, Sound (s.volumes v)) {v : Nat} {fs : ZiqaFs}
    (hfs : Sound fs) (w : Nat) : Sound ((s.setVolume v fs).volumes w) := by
  change Sound (update s.volumes v fs w)
  by_cases hw : w = v
  · rw [hw, update_self]
    exact hfs
  · rw [update_of_ne hw]
    exact hs w

theorem volumes_create : (s.create fat path).volumes = s.volumes := by
  unfold create
  split_ifs
  · rfl
  · cases fat path <;> rfl
  · rfl

theorem ensureFile_spec (hs : ∀ v, Sound (s.volumes v))
    (h : s.ensureFile fat now path = (.ok (), s1)) (hfile : s1.fileAt path = .ok (some n)) :
    (∀ v, Sound (s1.volumes v)) ∧ (s1.ObjectReplaced n buf ↔ s.SaveReplaces path buf) := by
  unfold ensureFile at h
  by_cases hexists : s.vfs.pathExists path
  · rw [if_pos hexists, Prod.mk.injEq] at h
    obtain ⟨-, rfl⟩ := h
    refine ⟨hs, ?_⟩
    rw [SaveReplaces, fileAt_eq_some_iff.mp hfile]
  have hnone : s.vfs.node (walkedParts path) = none := by
    simpa [pathExists] using hexists
  rw [if_neg hexists] at h
  rw [SaveReplaces, hnone]
  by_cases hdisk : diskPrefix.isPrefixOf path
  · rw [if_pos hdisk] at h
    simp only [hdisk, ↓reduceIte]
    unfold createOnDisk at h
    cases hziqa : s.ziqafs with
    | none =>
      simp only [hziqa, Prod.mk.injEq] at h
      exact absurd hfile (h.2 ▸ fileAt_none hnone)
    | some v =>
      simp only [hziqa] at h
      have hspec := createOnVolume_spec now (trimStart diskPrefix path.length path) (hs v)
      split at h
      · cases h
      · simp only [Prod.mk.injEq] at h
        exact absurd hfile (h.2 ▸ fileAt_none (s := s.setVolume v _) hnone)
      · next file fs hrun =>
        simp only [Prod.mk.injEq] at h
        obtain ⟨-, rfl⟩ := h
        obtain ⟨hsound, hcreated⟩ := hspec.ok _ _ _ rfl hrun
        refine ⟨volumes_setVolume hs hsound, ?_⟩
        rw [ObjectReplaced, fileAt_mountFile (s := s.setVolume v fs) hnone hfile]
        simp only [mountFile, setVolume, update_self, Option.some.injEq]
        rw [(hcreated file rfl).replaced buf]
        constructor
        · rintro hclear _ rfl
          exact hclear
        · exact fun hall => hall v rfl
  · rw [if_neg hdisk, Prod.mk.injEq] at h
    obtain ⟨-, rfl⟩ := h
    simp only [hdisk, Bool.false_eq_true, ↓reduceIte, iff_true]
    refine ⟨fun v => ?_, objectReplaced_create hnone hfile⟩
    rw [volumes_create]
    exact hs v

/-- After a save whose write succeeded, reading the whole file returns the
buffer exactly when the buffer replaces what stood at the path. -/
theorem save_readRawAll_iff (s s' : FileSystems) (fat : List UInt8 → Option FatFile)
    (now now' : UInt32) (path buf : List UInt8) (written : Nat)
    (hs : ∀ v, Sound (s.volumes v))
    (h : s.save fat now now' path buf = (.ok written, s')) (hfat : s'.isFat path = false) :
    s'.readRawAll path = .ok buf ↔ s.SaveReplaces path buf := by
  unfold save at h
  split at h
  · cases h
  · next s1 hensure =>
    obtain ⟨n, hfile, -⟩ := writeRaw_eq_ok h
    obtain ⟨hs1, hreplaced⟩ := ensureFile_spec hs hensure hfile
    rw [writeRaw_iff hs1 h hfat hfile, hreplaced]

/-- One RAM file `/f` with the text `hello`, and a ZiqaFS volume. -/
def helloSystems (fs : ZiqaFs) : FileSystems where
  vfs := empty.mount [47, 102] 0
  files _ := .ram [104, 101, 108, 108, 111]
  nextFile := 1
  volumes _ := fs
  ziqafs := some 0

/-- The new file `/disk/f` with three bytes. -/
def savedNew (fs : ZiqaFs) : Except Failure Nat × FileSystems :=
  (helloSystems fs).save (fun _ => none) 0 0 (diskPrefix ++ [102]) [1, 2, 3]

theorem sound_format {now : UInt32} {d : Disk} (h : (format now d).1 = .ok ()) :
    Sound (format now d).2 :=
  format_sound (Prod.ext h rfl)

theorem savedNew_formatted : ∃ fs, Sound fs ∧ (savedNew fs).1 = .ok 3 ∧
    (savedNew fs).2.isFat (diskPrefix ++ [102]) = false ∧
    (savedNew fs).2.readRawAll (diskPrefix ++ [102]) = .ok [1, 2, 3] := by
  have hformat : (format 0 emptyDevice).1 = .ok () := by decide +kernel
  exact ⟨(format 0 emptyDevice).2, sound_format hformat, by decide +kernel,
    by decide +kernel, by decide +kernel⟩

/-- On a formatted volume the new file reads as it was saved, and so the buffer
replaces what stood there. -/
theorem save_readRawAll_newFile : ∃ fs, Sound fs ∧ (savedNew fs).1 = .ok 3 ∧
    (savedNew fs).2.readRawAll (diskPrefix ++ [102]) = .ok [1, 2, 3] ∧
    (helloSystems fs).SaveReplaces (diskPrefix ++ [102]) [1, 2, 3] := by
  obtain ⟨fs, hs, hsave, hfat, hread⟩ := savedNew_formatted
  have hiff := save_readRawAll_iff (helloSystems fs) (savedNew fs).2 (fun _ => none) 0 0
    (diskPrefix ++ [102]) [1, 2, 3] 3 (fun _ => hs) (Prod.ext hsave rfl) hfat
  exact ⟨fs, hs, hsave, hread, hiff.mp hread⟩

/-- Saving `hi` over `hello` leaves `hillo`. -/
theorem save_hello_hi :
    ((helloSystems volumeFormatted).save (fun _ => none) 0 0 [47, 102] [104, 105]).1 = .ok 2 ∧
      ((helloSystems volumeFormatted).save (fun _ => none) 0 0 [47, 102]
        [104, 105]).2.readRawAll [47, 102] = .ok [104, 105, 108, 108, 111] := by
  decide +kernel

end FileSystems

end ZiqaKernel
