/-
The tree of the virtual file system (`fs/vfs.rs`).  A node is known by its
position, the list of names that lead to it from the root: the source shares
nodes by reference counting, and as long as every node has one parent a node
and its position are the same thing.  Paths and names are UTF-8 bytes.
-/
import ZiqaKernel.ZiqaFsFile

namespace ZiqaKernel

variable {H : Type}

/-- `VfsNode`, without the children, which the position of a node determines. -/
inductive VfsNode (H : Type) where
  | directory
  | file (handle : H)

abbrev Position : Type := List Name

/-- A node with everything below it.  Only a directory has children. -/
structure VfsTree (H : Type) where
  node : Position → Option (VfsNode H)
  root_isSome : (node []).isSome
  parent_directory : ∀ p name, (node (p ++ [name])).isSome → node p = some .directory

variable {p q : Position}

namespace VfsTree

def single (x : VfsNode H) : VfsTree H where
  node p := if p = [] then some x else none
  root_isSome := rfl
  parent_directory := by simp

/-- `VfsNode::new_dir`. -/
def newDir : VfsTree H := single .directory

def newFile (handle : H) : VfsTree H := single (.file handle)

theorem parent_of_append (t : VfsTree H) (hq : q ≠ [])
    (h : (t.node (p ++ q)).isSome) : t.node p = some .directory := by
  induction q generalizing p with
  | nil => exact absurd rfl hq
  | cons name rest ih =>
    have hstep : (t.node (p ++ [name])).isSome := by
      by_cases hrest : rest = []
      · rwa [hrest] at h
      · have hsplit : p ++ name :: rest = (p ++ [name]) ++ rest := by simp
        rw [ih hrest (hsplit ▸ h)]
        rfl
    exact t.parent_directory p name hstep

theorem node_of_isPrefix (t : VfsTree H) (hpq : p <+: q)
    (hne : p ≠ q) (h : (t.node q).isSome) : t.node p = some .directory := by
  obtain ⟨rest, rfl⟩ := hpq
  exact t.parent_of_append (fun hnil => hne (by simp [hnil])) h

end VfsTree

structure Vfs (H : Type) extends VfsTree H where
  root_directory : node [] = some .directory

variable {v : Vfs H} {dir : Position}

namespace Vfs

/-- The state after `Vfs::init`. -/
def empty : Vfs H := { VfsTree.newDir with root_directory := rfl }

/-- `VfsNode::is_dir` for the node at a position. -/
def isDirectory (v : Vfs H) (p : Position) : Bool :=
  match v.node p with
  | some .directory => true
  | _ => false

theorem isDirectory_iff : v.isDirectory p = true ↔ v.node p = some .directory := by
  unfold isDirectory
  split <;> simp_all

/-- What stands at `q` once the tree `t` hangs at `p`. -/
def graft (v : Vfs H) (p : Position) (t : VfsTree H) (q : Position) : Option (VfsNode H) :=
  if p <+: q then t.node (q.drop p.length) else v.node q

theorem graft_append (v : Vfs H) (p : Position) (t : VfsTree H) (q : Position) :
    v.graft p t (p ++ q) = t.node q := by
  simp [graft]

theorem graft_of_not (v : Vfs H) (t : VfsTree H) (h : ¬ p <+: q) : v.graft p t q = v.node q := by
  simp [graft, h]

/-- `children.insert(leaf, node)` on the directory at `dir`; what stood there
before is dropped with all that is below it. -/
def insert (v : Vfs H) (dir : Position) (leaf : Name) (t : VfsTree H) : Vfs H :=
  if hdir : v.isDirectory dir then
    { node := v.graft (dir ++ [leaf]) t
      root_isSome := by
        rw [v.graft_of_not _ (by simp), v.root_directory]
        rfl
      root_directory := by
        rw [v.graft_of_not _ (by simp), v.root_directory]
      parent_directory := by
        intro p name h
        by_cases hin : dir ++ [leaf] <+: p
        · obtain ⟨rest, rfl⟩ := hin
          rw [List.append_assoc _ rest, graft_append] at h
          rw [graft_append]
          exact t.parent_directory rest name h
        · rw [v.graft_of_not _ hin]
          by_cases heq : dir ++ [leaf] = p ++ [name]
          · obtain ⟨rfl, -⟩ := List.append_inj' heq rfl
            exact isDirectory_iff.mp hdir
          · have hout : ¬ dir ++ [leaf] <+: p ++ [name] := by
              rw [List.prefix_concat_iff]
              exact fun hor => hor.elim heq hin
            rw [v.graft_of_not _ hout] at h
            exact v.parent_directory p name h }
  else v

theorem node_insert (hdir : v.node dir = some .directory) (leaf : Name) (t : VfsTree H)
    (q : Position) :
    (v.insert dir leaf t).node q = v.graft (dir ++ [leaf]) t q := by
  rw [insert, dif_pos (isDirectory_iff.mpr hdir)]

theorem insert_of_not (hdir : v.node dir ≠ some .directory) (leaf : Name) (t : VfsTree H) :
    v.insert dir leaf t = v := by
  rw [insert, dif_neg (mt isDirectory_iff.mp hdir)]

end Vfs

def slash : UInt8 := 47

/-- `path.split('/')` without its empty parts. -/
def components (path : List UInt8) : List Name :=
  (path.splitOn slash).filter (· ≠ [])

/-- The parts of a path that `resolve_node` follows: it skips `"."` as well. -/
def walkedParts (path : List UInt8) : List Name :=
  (components path).filter (· ≠ dotName)

namespace Vfs

/-- The loop of `resolve_node` from the node at `current` on. -/
def resolveFrom (v : Vfs H) : Position → List Name → Except AbiError Position
  | current, [] => .ok current
  | current, part :: rest =>
    match v.node current with
    | some .directory =>
      match v.node (current ++ [part]) with
      | some _ => resolveFrom v (current ++ [part]) rest
      | none => .error (.other "File not found")
    | _ => .error (.other "Not a directory")

/-- `resolve_node`. -/
def resolveNode (v : Vfs H) (path : List UInt8) : Except AbiError Position :=
  v.resolveFrom [] (walkedParts path)

theorem resolveFrom_eq_ok_iff (v : Vfs H) {current : Position} {parts : List Name}
    (hcurrent : (v.node current).isSome) :
    v.resolveFrom current parts = .ok p ↔ p = current ++ parts ∧ (v.node p).isSome := by
  induction parts generalizing current with
  | nil =>
    simp only [resolveFrom, Except.ok.injEq, List.append_nil]
    constructor
    · rintro rfl
      exact ⟨rfl, hcurrent⟩
    · exact fun h => h.1.symm
  | cons part rest ih =>
    have hsplit : current ++ part :: rest = (current ++ [part]) ++ rest := by simp
    by_cases hnext : (v.node (current ++ [part])).isSome
    · obtain ⟨x, hx⟩ := Option.isSome_iff_exists.mp hnext
      rw [resolveFrom, v.parent_directory current part hnext]
      simp only [hx]
      rw [ih hnext, hsplit]
    · constructor
      · intro h
        rw [Option.not_isSome_iff_eq_none] at hnext
        rw [resolveFrom] at h
        split at h
        · simp [hnext] at h
        · simp at h
      · rintro ⟨rfl, hsome⟩
        refine absurd ?_ hnext
        rw [hsplit] at hsome
        by_cases hrest : rest = []
        · rwa [hrest, List.append_nil] at hsome
        · rw [v.parent_of_append hrest hsome]
          rfl

theorem resolveNode_eq_ok_iff (v : Vfs H) {path : List UInt8} :
    v.resolveNode path = .ok p ↔ p = walkedParts path ∧ (v.node p).isSome := by
  rw [resolveNode, v.resolveFrom_eq_ok_iff v.root_isSome, List.nil_append]

/-- `exists`. -/
def pathExists (v : Vfs H) (path : List UInt8) : Bool :=
  (v.node (walkedParts path)).isSome

/-- One step towards a deeper node: an absent child becomes a directory. -/
def ensureChild (v : Vfs H) (dir : Position) (part : Name) : Vfs H :=
  if (v.node (dir ++ [part])).isSome then v
  else v.insert dir part VfsTree.newDir

/-- The loop of `mount` from the node at `current` on.  A file on the way stops
it. -/
def mountFrom (handle : H) : Vfs H → Position → List Name → Vfs H
  | v, _, [] => v
  | v, current, [leaf] => v.insert current leaf (VfsTree.newFile handle)
  | v, current, part :: rest =>
    if v.isDirectory current then
      mountFrom handle (v.ensureChild current part) (current ++ [part]) rest
    else v

/-- `mount`. -/
def mount (v : Vfs H) (path : List UInt8) (handle : H) : Vfs H :=
  mountFrom handle v [] (components path)

/-- The loop of `mount_dir`. -/
def mountDirFrom : Vfs H → Position → List Name → Vfs H
  | v, _, [] => v
  | v, current, part :: rest =>
    if v.isDirectory current then
      mountDirFrom (v.ensureChild current part) (current ++ [part]) rest
    else v

/-- `mount_dir`. -/
def mountDir (v : Vfs H) (path : List UInt8) : Vfs H :=
  mountDirFrom v [] (components path)

/-- `trim_end_matches('/')`. -/
def trimSlashes (path : List UInt8) : List UInt8 :=
  (path.reverse.dropWhile (· = slash)).reverse

/-- `mkdir` outside `/fat/`, where it only touches the tree. -/
def mkdirTree (v : Vfs H) (path : List UInt8) : Vfs H :=
  if trimSlashes path = [] ∨ v.pathExists (trimSlashes path) then v
  else v.mountDir (trimSlashes path)

theorem node_ensureChild {part : Name} (hdir : v.node dir = some .directory) (q : Position) :
    (v.ensureChild dir part).node q =
      if q = dir ++ [part] ∧ v.node q = none then some .directory
      else v.node q := by
  unfold ensureChild
  by_cases hsome : (v.node (dir ++ [part])).isSome
  · rw [if_pos hsome, if_neg]
    rintro ⟨rfl, hnone⟩
    simp [hnone] at hsome
  · have hnone : v.node (dir ++ [part]) = none := by simpa using hsome
    rw [if_neg hsome, node_insert hdir]
    by_cases hin : dir ++ [part] <+: q
    · obtain ⟨rest, rfl⟩ := hin
      rw [graft_append]
      by_cases hrest : rest = []
      · simp [hrest, VfsTree.newDir, VfsTree.single, hnone]
      · have hbelow : v.node (dir ++ [part] ++ rest) = none := by
          by_contra hne
          have hdirectory := v.parent_of_append hrest (Option.isSome_iff_ne_none.mpr hne)
          simp [hnone] at hdirectory
        rw [hbelow]
        simp [hrest, VfsTree.newDir, VfsTree.single]
    · rw [v.graft_of_not _ hin, if_neg]
      rintro ⟨rfl, -⟩
      exact hin List.prefix_rfl

def Blocked (v : Vfs H) (p : Position) : Prop :=
  ∃ q, q <+: p ∧ q ≠ p ∧ ∃ handle, v.node q = some (.file handle)

/-- What stands at `q` once a file hangs at `p` and the directories above it
exist. -/
def mounted (v : Vfs H) (handle : H) (p q : Position) : Option (VfsNode H) :=
  if p <+: q then (VfsTree.newFile handle).node (q.drop p.length)
  else if q <+: p then some .directory
  else v.node q

theorem mounted_congr {w : Vfs H} (handle : H) (h : ¬ q <+: p → v.node q = w.node q) :
    v.mounted handle p q = w.mounted handle p q := by
  unfold mounted
  by_cases hq : q <+: p
  · simp [hq]
  · rw [h hq]

theorem not_blocked_of_directory {name : Name}
    (hdir : v.node p = some .directory) : ¬ v.Blocked (p ++ [name]) := by
  rintro ⟨q, hq, hne, handle, hfile⟩
  rw [List.prefix_concat_iff] at hq
  have hqp := hq.resolve_left hne
  by_cases heq : q = p
  · rw [heq, hdir] at hfile
    cases hfile
  · have hdirectory := v.node_of_isPrefix hqp heq (by rw [hdir]; rfl)
    rw [hdirectory] at hfile
    cases hfile

theorem ensureChild_of_isSome {part : Name}
    (h : (v.node (dir ++ [part])).isSome) : v.ensureChild dir part = v := by
  rw [ensureChild, if_pos h]

theorem blocked_ensureChild {part : Name} (hdir : v.node dir = some .directory) :
    (v.ensureChild dir part).Blocked p ↔ v.Blocked p := by
  have hfile : ∀ q handle, (v.ensureChild dir part).node q = some (.file handle) ↔
      v.node q = some (.file handle) := by
    intro q handle
    rw [node_ensureChild hdir]
    by_cases hnew : q = dir ++ [part] ∧ v.node q = none
    · rw [if_pos hnew, hnew.2]
      simp
    · rw [if_neg hnew]
  simp only [Blocked, hfile]

theorem child_isSome_of_blocked {part : Name}
    {rest : List Name} (hdir : v.node dir = some .directory)
    (h : v.Blocked (dir ++ [part] ++ rest)) :
    (v.node (dir ++ [part])).isSome := by
  obtain ⟨q, hq, -, handle, hfile⟩ := h
  have hsome : (v.node q).isSome := by rw [hfile]; rfl
  rcases List.prefix_or_prefix_of_prefix hq (List.prefix_append _ rest) with hle | hge
  · rcases List.prefix_concat_iff.mp hle with heq | hlt
    · rwa [← heq]
    · by_cases heq : q = dir
      · rw [heq, hdir] at hfile
        cases hfile
      · rw [v.node_of_isPrefix hlt heq (by rw [hdir]; rfl)] at hfile
        cases hfile
  · by_cases heq : dir ++ [part] = q
    · rwa [heq]
    · rw [v.node_of_isPrefix hge heq hsome]
      rfl

/-- The effect of the loop of `mount`: nothing when a file is in the way, and
otherwise the file and the directories above it, in the place of what stood
there. -/
theorem node_mountFrom (handle : H) {current : Position}
    {parts : List Name} (hcurrent : (v.node current).isSome) (hparts : parts ≠ [])
    (q : Position) :
    (v.Blocked (current ++ parts) → (mountFrom handle v current parts).node q = v.node q) ∧
    (¬ v.Blocked (current ++ parts) → (mountFrom handle v current parts).node q =
        v.mounted handle (current ++ parts) q) := by
  fun_induction mountFrom handle v current parts with
  | case1 v current => exact absurd rfl hparts
  | case2 v current leaf =>
    by_cases hdir : v.node current = some .directory
    · refine ⟨fun h => absurd h (not_blocked_of_directory hdir), fun _ => ?_⟩
      rw [node_insert hdir, graft, mounted]
      by_cases hin : current ++ [leaf] <+: q
      · simp [hin]
      · rw [if_neg hin, if_neg hin]
        by_cases hq : q <+: current ++ [leaf]
        · rw [if_pos hq]
          have hne : q ≠ current ++ [leaf] :=
            fun heq => hin (heq ▸ List.prefix_rfl)
          have hqc := (List.prefix_concat_iff.mp hq).resolve_left hne
          by_cases heq : q = current
          · rw [heq, hdir]
          · exact v.node_of_isPrefix hqc heq (by rw [hdir]; rfl)
        · rw [if_neg hq]
    · rw [insert_of_not hdir]
      refine ⟨fun _ => rfl, fun h => absurd ?_ h⟩
      obtain ⟨x, hx⟩ := Option.isSome_iff_exists.mp hcurrent
      cases x with
      | directory => exact absurd hx hdir
      | file f => exact ⟨current, List.prefix_append .., by simp, f, hx⟩
  | case3 v current part rest hrest hdir ih =>
    rw [isDirectory_iff] at hdir
    have hsplit : current ++ part :: rest = current ++ [part] ++ rest := by simp
    have hnode (p : Position) : (v.ensureChild current part).node p = _ := node_ensureChild hdir p
    have hchild : ((v.ensureChild current part).node (current ++ [part])).isSome := by
      rw [hnode]
      by_cases hnone : v.node (current ++ [part]) = none
      · simp [hnone]
      · simpa [hnone] using Option.isSome_iff_ne_none.mpr hnone
    have hih := ih hchild hrest
    rw [blocked_ensureChild hdir, ← hsplit] at hih
    refine ⟨fun hblocked => ?_, fun hfree => ?_⟩
    · rw [hih.1 hblocked, ensureChild_of_isSome]
      exact child_isSome_of_blocked hdir (hsplit ▸ hblocked)
    · rw [hih.2 hfree]
      refine mounted_congr handle fun hq => ?_
      rw [hnode, if_neg]
      rintro ⟨rfl, -⟩
      exact hq (by rw [hsplit]; exact List.prefix_append _ _)
  | case4 v current part rest hrest hdir =>
    refine ⟨fun _ => rfl, fun h => absurd ?_ h⟩
    obtain ⟨x, hx⟩ := Option.isSome_iff_exists.mp hcurrent
    cases x with
    | directory => exact absurd (isDirectory_iff.mpr hx) hdir
    | file f => exact ⟨current, List.prefix_append .., by simp, f, hx⟩

/-- A mount of a list of files, each at a position, one after the other. -/
def mountAll (v : Vfs H) (mounts : List (Position × H)) : Vfs H :=
  mounts.foldl (fun v m => mountFrom m.2 v [] m.1) v

def Overshadowed (mounts : List (Position × H)) (p : Position) : Prop :=
  ∃ m ∈ mounts, m.1 ≠ [] ∧ m.1 <+: p ∧ m.1 ≠ p

def lastMount (mounts : List (Position × H)) (p : Position) : Option H :=
  ((mounts.filter (·.1 = p)).getLast?).map Prod.snd

theorem lastMount_append (mounts : List (Position × H)) (m : Position × H) (p : Position) :
    lastMount (mounts ++ [m]) p =
      if m.1 = p then some m.2 else lastMount mounts p := by
  unfold lastMount
  by_cases h : m.1 = p <;> simp [h]

variable {mounts : List (Position × H)}

theorem lastMount_eq_none_iff : lastMount mounts p = none ↔ ∀ m ∈ mounts, m.1 ≠ p := by
  simp [lastMount]

theorem overshadowed_append {m : Position × H} :
    Overshadowed (mounts ++ [m]) p ↔ Overshadowed mounts p ∨ (m.1 ≠ [] ∧ m.1 <+: p ∧ m.1 ≠ p) := by
  simp only [Overshadowed, List.mem_append, List.mem_singleton, or_and_right,
    exists_or, exists_eq_left]

theorem Overshadowed.mono (h : Overshadowed mounts p) (hpq : p <+: q) : Overshadowed mounts q := by
  obtain ⟨m, hm, hne, hmp, hlt⟩ := h
  refine ⟨m, hm, hne, hmp.trans hpq, fun heq => hlt ?_⟩
  exact hmp.eq_of_length_le (by rw [heq]; exact hpq.length_le)

theorem Overshadowed.top (h : Overshadowed mounts p) :
    ∃ m ∈ mounts, m.1 ≠ [] ∧ m.1 <+: p ∧ m.1 ≠ p ∧ ¬ Overshadowed mounts m.1 := by
  induction hlen : p.length using Nat.strongRecOn generalizing p with
  | ind n ih =>
    obtain ⟨m, hm, hne, hmp, hlt⟩ := h
    by_cases hover : Overshadowed mounts m.1
    · have hshort : m.1.length < n := by
        rw [← hlen]
        exact lt_of_le_of_ne hmp.length_le fun heq => hlt (hmp.eq_of_length heq)
      obtain ⟨t, ht, htne, htm, htlt, htop⟩ := ih _ hshort hover rfl
      refine ⟨t, ht, htne, htm.trans hmp, fun heq => htlt ?_, htop⟩
      exact htm.eq_of_length_le (by rw [heq]; exact hmp.length_le)
    · exact ⟨m, hm, hne, hmp, hlt, hover⟩

theorem exists_of_lastMount {handle : H} (h : lastMount mounts p = some handle) :
    ∃ m ∈ mounts, m.1 = p := by
  by_contra hnone
  have hall : ∀ m ∈ mounts, m.1 ≠ p := fun m hm heq => hnone ⟨m, hm, heq⟩
  rw [lastMount_eq_none_iff.mpr hall] at h
  cases h

/-- What a list of mounts into an empty file system leaves behind: the last
file at each position that has no file above it, and the directories above
those. -/
structure Shows (mounts : List (Position × H)) (v : Vfs H) : Prop where
  file_iff : ∀ p handle, v.node p = some (.file handle) ↔
    p ≠ [] ∧ ¬ Overshadowed mounts p ∧ lastMount mounts p = some handle
  directory_iff : ∀ p, v.node p = some .directory ↔
    p = [] ∨ (¬ Overshadowed mounts p ∧ lastMount mounts p = none ∧ ∃ m ∈ mounts, p <+: m.1)

theorem Shows.blocked_iff
    (h : Shows mounts v) (p : Position) : v.Blocked p ↔ Overshadowed mounts p := by
  constructor
  · rintro ⟨q, hq, hne, handle, hfile⟩
    obtain ⟨hnil, -, hlast⟩ := (h.file_iff q handle).mp hfile
    obtain ⟨m, hm, rfl⟩ := exists_of_lastMount hlast
    exact ⟨m, hm, hnil, hq, hne⟩
  · intro hover
    obtain ⟨m, hm, hnil, hmp, hlt, htop⟩ := hover.top
    cases hlast : lastMount mounts m.1 with
    | none => exact absurd rfl (lastMount_eq_none_iff.mp hlast m hm)
    | some handle =>
      exact ⟨m.1, hmp, hlt, handle, (h.file_iff _ _).mpr ⟨hnil, htop, hlast⟩⟩

theorem Shows.node_of_overshadowed (h : Shows mounts v) (hover : Overshadowed mounts p) :
    v.node p = none := by
  cases hx : v.node p with
  | none => rfl
  | some x =>
    cases x with
    | file f => exact absurd hover ((h.file_iff p f).mp hx).2.1
    | directory =>
      rcases (h.directory_iff p).mp hx with rfl | hfree
      · obtain ⟨m, -, hne, hm, -⟩ := hover
        exact absurd (List.prefix_nil.mp hm) hne
      · exact absurd hover hfree.1

theorem Shows.congr {w : Vfs H}
    (h : Shows mounts v) (hnode : ∀ q, w.node q = v.node q) : Shows mounts w :=
  ⟨fun p f => by rw [hnode, h.file_iff], fun p => by rw [hnode, h.directory_iff]⟩

theorem shows_empty : Shows [] (empty : Vfs H) where
  file_iff p handle := by
    by_cases hp : p = [] <;>
      simp [empty, VfsTree.newDir, VfsTree.single, lastMount, hp]
  directory_iff p := by
    by_cases hp : p = [] <;>
      simp [empty, VfsTree.newDir, VfsTree.single, hp]

theorem Shows.mount_nil (h : Shows mounts v) (handle : H) : Shows (mounts ++ [([], handle)]) v where
  file_iff p f := by
    rw [h.file_iff, overshadowed_append, lastMount_append]
    by_cases hp : p = []
    · simp [hp]
    · simp [hp, Ne.symm hp]
  directory_iff p := by
    rw [h.directory_iff, overshadowed_append, lastMount_append]
    by_cases hp : p = []
    · simp [hp]
    · simp [hp, Ne.symm hp]

theorem Shows.mount_blocked
    (h : Shows mounts v) {m : Position × H} (hover : Overshadowed mounts m.1) :
    Shows (mounts ++ [m]) v := by
  have hsame : ∀ p, Overshadowed (mounts ++ [m]) p ↔ Overshadowed mounts p := by
    intro p
    rw [overshadowed_append]
    exact ⟨fun hor => hor.elim id fun hm => hover.mono hm.2.1, Or.inl⟩
  have hlast : ∀ p, ¬ Overshadowed mounts p → lastMount (mounts ++ [m]) p = lastMount mounts p := by
    intro p hp
    rw [lastMount_append, if_neg]
    exact fun heq => hp (heq ▸ hover)
  refine ⟨fun p f => ?_, fun p => ?_⟩
  · rw [h.file_iff, hsame]
    exact and_congr_right fun _ => and_congr_right fun hp => by rw [hlast p hp]
  · rw [h.directory_iff, hsame]
    refine or_congr_right (and_congr_right fun hp => ?_)
    rw [hlast p hp]
    refine and_congr_right fun hnone => ⟨?_, ?_⟩
    · rintro ⟨t, ht, hpt⟩
      exact ⟨t, List.mem_append_left _ ht, hpt⟩
    · rintro ⟨t, ht, hpt⟩
      rcases List.mem_append.mp ht with hold | hnew
      · exact ⟨t, hold, hpt⟩
      · -- the file above `m` stands below `p`, since nothing is mounted at or above `p`
        obtain rfl : t = m := List.mem_singleton.mp hnew
        obtain ⟨f, hf, hfne, hft, hflt⟩ := hover
        refine ⟨f, hf, ?_⟩
        rcases List.prefix_or_prefix_of_prefix hpt hft with hpf | hfp
        · exact hpf
        · by_cases heq : f.1 = p
          · exact absurd heq (lastMount_eq_none_iff.mp hnone f hf)
          · exact absurd ⟨f, hf, hfne, hfp, heq⟩ hp

theorem node_newFile_drop {handle : H} (h : p <+: q) :
    (VfsTree.newFile handle).node (q.drop p.length) =
      if q = p then some (.file handle) else none := by
  obtain ⟨rest, rfl⟩ := h
  simp [VfsTree.newFile, VfsTree.single]

theorem Shows.mount_free {w : Vfs H} (h : Shows mounts v) {m : Position × H} (hm : m.1 ≠ [])
    (hfree : ¬ Overshadowed mounts m.1)
    (hnode : ∀ q, w.node q = v.mounted m.2 m.1 q) : Shows (mounts ++ [m]) w := by
  refine ⟨fun p f => ?_, fun p => ?_⟩ <;>
    rw [hnode, mounted, overshadowed_append, lastMount_append]
  · by_cases hmp : m.1 <+: p
    · rw [if_pos hmp, node_newFile_drop hmp]
      by_cases heq : p = m.1
      · subst heq
        simp [hm, hfree]
      · simp [heq, Ne.symm heq, hm, hmp]
    · have hne : m.1 ≠ p := fun heq => hmp (heq ▸ List.prefix_rfl)
      rw [if_neg hmp, if_neg hne]
      by_cases hpm : p <+: m.1
      · rw [if_pos hpm]
        simp only [Option.some.injEq, reduceCtorEq, false_iff]
        rintro ⟨hnil, -, hlast⟩
        obtain ⟨t, ht, rfl⟩ := exists_of_lastMount hlast
        exact hfree ⟨t, ht, hnil, hpm, hne.symm⟩
      · rw [if_neg hpm, h.file_iff]
        simp [hmp]
  · by_cases hmp : m.1 <+: p
    · rw [if_pos hmp, node_newFile_drop hmp]
      have hnil : p ≠ [] := fun heq => hm (List.prefix_nil.mp (heq ▸ hmp))
      by_cases heq : p = m.1
      · subst heq
        simp [hm]
      · simp [heq, Ne.symm heq, hm, hmp, hnil]
    · have hne : m.1 ≠ p := fun heq => hmp (heq ▸ List.prefix_rfl)
      rw [if_neg hmp, if_neg hne]
      by_cases hpm : p <+: m.1
      · rw [if_pos hpm]
        simp only [true_iff]
        by_cases hnil : p = []
        · exact Or.inl hnil
        · refine Or.inr ⟨?_, ?_, m, by simp, hpm⟩
          · rintro (hover | hself)
            · exact hfree (hover.mono hpm)
            · exact hmp hself.2.1
          · rw [lastMount_eq_none_iff]
            rintro t ht rfl
            exact hfree ⟨t, ht, hnil, hpm, hne.symm⟩
      · rw [if_neg hpm, h.directory_iff]
        simp [hmp, hpm]

theorem Shows.mount (h : Shows mounts v) (m : Position × H) :
    Shows (mounts ++ [m]) (mountFrom m.2 v [] m.1) := by
  by_cases hm : m.1 = []
  · obtain ⟨p, handle⟩ := m
    obtain rfl : p = [] := hm
    exact h.mount_nil handle
  · have hnode := fun q => node_mountFrom m.2 v.root_isSome hm q
    simp only [List.nil_append] at hnode
    by_cases hover : Overshadowed mounts m.1
    · have hsame : Shows mounts (mountFrom m.2 v [] m.1) :=
        h.congr fun q => (hnode q).1 ((h.blocked_iff _).mpr hover)
      exact hsame.mount_blocked hover
    · exact h.mount_free hm hover fun q => (hnode q).2 (mt (h.blocked_iff _).mp hover)

theorem shows_mountAll (mounts : List (Position × H)) : Shows mounts (mountAll empty mounts) := by
  induction mounts using List.reverseRecOn with
  | nil => exact shows_empty
  | append_singleton mounts m ih =>
    rw [mountAll, List.foldl_append]
    exact ih.mount m

end Vfs

end ZiqaKernel
