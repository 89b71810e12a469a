/-
Reading a file of a FAT32 volume (`Fat32File::read`).  The driver collects as many
clusters as the number of bytes needs, and reads up to 64 of them at once from where the
first one lies, so that the bytes are those of the file only if the others follow it.
-/
import ZiqaKernel.Fat32Chains

namespace ZiqaKernel

/-- `Fat32File`, as far as `read` goes. -/
structure Fat32File where
  startCluster : Nat
  fileSize : Nat

/-- The loop of `read` that goes to the cluster of the offset.  A cluster has at least one
byte, so the offset bounds the number of rounds. -/
def skipClusters (bpb : Fat32Bpb) (d : Disk) : Nat → Nat → Nat → Option (Nat × Nat)
  | 0, cluster, skip => some (cluster, skip)
  | fuel + 1, cluster, skip =>
    if skip ≥ bpb.bytesPerCluster then
      match followClusterChain bpb d cluster with
      | none => none
      | some next => skipClusters bpb d fuel next (skip - bpb.bytesPerCluster)
    else some (cluster, skip)

/-- The loop of `read` over the batches of the chain: the bytes that are copied to the
caller from `copied` on. -/
def copyBatches (bpb : Fat32Bpb) (d : Disk) (toRead : Nat) :
    Nat → List Nat → Nat → Nat → Except AbiError (List UInt8)
  | 0, _, _, _ => .ok []
  | _ + 1, [], _, _ => .ok []
  | fuel + 1, first :: rest, copied, intra =>
    let chunk := (first :: rest).take 64
    match d.readBytes (bpb.clusterToSector first) (chunk.length * bpb.sectorsPerCluster) with
    | .error _ => .error (.other "FAT32 read I/O error")
    | .ok batch =>
      let copyLen := min (chunk.length * bpb.bytesPerCluster - intra) (toRead - copied)
      match copyBatches bpb d toRead fuel ((first :: rest).drop 64) (copied + copyLen) 0 with
      | .error e => .error e
      | .ok bytes => .ok ((List.range copyLen).map (fun k => batch (intra + k)) ++ bytes)

/-- `Fat32File::read` into a buffer of length `len`: the bytes copied to its front. -/
def Fat32File.read (f : Fat32File) (bpb : Fat32Bpb) (d : Disk) (len offset : Nat) :
    Except AbiError (List UInt8) :=
  if offset ≥ f.fileSize then .ok []
  else
    let toRead := min (f.fileSize - offset) len
    if toRead = 0 then .ok []
    else
      match skipClusters bpb d offset f.startCluster offset with
      | none => .error (.other "FAT32 chain read error")
      | some (cluster, skip) =>
        let nclusters := (toRead + bpb.bytesPerCluster - 1) / bpb.bytesPerCluster
        let chain := collectClusterChainLimited bpb d cluster nclusters
        if chain = [] then .error (.other "FAT32 no clusters")
        else copyBatches bpb d toRead chain.length chain 0 skip

section

variable {bpb : Fat32Bpb} {d : Disk} {c : Nat} {l : List Nat}

theorem Fat32Bpb.bytesPerCluster_pos (bpb : Fat32Bpb) : 0 < bpb.bytesPerCluster :=
  Nat.mul_pos bpb.sectorsPerCluster_pos (by decide)

theorem skipClusters_eq (h : Linked (followClusterChain bpb d) (c :: l)) {skip fuel : Nat}
    (hskip : skip / bpb.bytesPerCluster < (c :: l).length)
    (hfuel : skip / bpb.bytesPerCluster ≤ fuel) :
    skipClusters bpb d fuel c skip =
      some ((c :: l).getD (skip / bpb.bytesPerCluster) 0, skip % bpb.bytesPerCluster) := by
  have hpos := bpb.bytesPerCluster_pos
  induction fuel generalizing c l skip with
  | zero =>
    have hlt : skip < bpb.bytesPerCluster := by
      rwa [Nat.le_zero, Nat.div_eq_zero_iff_lt hpos] at hfuel
    rw [skipClusters, Nat.div_eq_of_lt hlt, Nat.mod_eq_of_lt hlt]
    rfl
  | succ fuel ih =>
    rw [skipClusters]
    by_cases hge : skip ≥ bpb.bytesPerCluster
    · have hdiv := Nat.div_eq_sub_div hpos hge
      rw [if_pos hge, h.next_head]
      cases l with
      | nil =>
        rw [hdiv] at hskip
        exact absurd hskip (by simp)
      | cons c' rest =>
        rw [List.head?_cons, Nat.mod_eq_sub_mod hge, hdiv, List.getD_cons_succ]
        rw [hdiv] at hskip hfuel
        exact ih h.tail (Nat.lt_of_succ_lt_succ hskip) (Nat.le_of_succ_le_succ hfuel)
    · have hlt := Nat.not_le.mp hge
      rw [if_neg hge, Nat.div_eq_of_lt hlt, Nat.mod_eq_of_lt hlt]
      rfl

end

section

variable {bpb : Fat32Bpb} {d : Disk} {cs : List Nat}

/-- The first cluster of the batch that cluster `i` of a list is read with. -/
def batchFirst (cs : List Nat) (i : Nat) : Nat := cs.getD (i - i % 64) 0

/-- The device has, for every cluster of the list, the clusters from the first of its
batch on. -/
def BatchesOnDevice (bpb : Fat32Bpb) (d : Disk) (cs : List Nat) : Prop :=
  ∀ i < cs.length, bpb.clusterToSector (batchFirst cs i) + (i % 64 + 1) * bpb.sectorsPerCluster ≤
    d.totalSectors

/-- Byte `p` of the batches one behind the other. -/
def batchByte (bpb : Fat32Bpb) (d : Disk) (cs : List Nat) (p : Nat) : UInt8 :=
  clusterByte bpb d (batchFirst cs (p / bpb.bytesPerCluster))
    (p / bpb.bytesPerCluster % 64 * bpb.bytesPerCluster + p % bpb.bytesPerCluster)

theorem batchFirst_of_lt {i : Nat} (hi : i < 64) : batchFirst cs i = cs.getD 0 0 := by
  rw [batchFirst, Nat.mod_eq_of_lt hi, Nat.sub_self]

theorem batchFirst_add (cs : List Nat) (i : Nat) :
    batchFirst cs (64 + i) = batchFirst (cs.drop 64) i := by
  have hindex : 64 + i - (64 + i) % 64 = 64 + (i - i % 64) := by
    rw [Nat.add_mod_left]
    have hmod := Nat.mod_le i 64
    omega
  rw [batchFirst, batchFirst, hindex, List.getD_eq_getElem?_getD, List.getD_eq_getElem?_getD,
    List.getElem?_drop]

theorem batchesOnDevice_iff (hne : cs ≠ []) : BatchesOnDevice bpb d cs ↔
      bpb.clusterToSector (cs.getD 0 0) + (cs.take 64).length * bpb.sectorsPerCluster ≤
        d.totalSectors ∧ BatchesOnDevice bpb d (cs.drop 64) := by
  have hlen := List.length_pos_iff.mpr hne
  have htake : (cs.take 64).length = min 64 cs.length := List.length_take
  have hdrop : (cs.drop 64).length = cs.length - 64 := List.length_drop
  constructor
  · refine fun h => ⟨?_, fun i hi => ?_⟩
    · have hlast := h (min 64 cs.length - 1) (by omega)
      rw [batchFirst_of_lt (by omega), Nat.mod_eq_of_lt (by omega),
        Nat.sub_add_cancel (by omega)] at hlast
      rw [htake]
      exact hlast
    · have hi' := h (64 + i) (by omega)
      rw [batchFirst_add, Nat.add_mod_left] at hi'
      exact hi'
  · rintro ⟨hfirst, hrest⟩ i hi
    by_cases hlt : i < 64
    · rw [batchFirst_of_lt hlt, Nat.mod_eq_of_lt hlt]
      have hle : (i + 1) * bpb.sectorsPerCluster ≤
          (cs.take 64).length * bpb.sectorsPerCluster := Nat.mul_le_mul_right _ (by omega)
      omega
    · have hi' := hrest (i - 64) (by omega)
      rw [← batchFirst_add, ← Nat.add_mod_left 64, Nat.add_sub_cancel' (by omega)] at hi'
      exact hi'

theorem batchByte_first {p : Nat} (hp : p < 64 * bpb.bytesPerCluster) :
    batchByte bpb d cs p = clusterByte bpb d (cs.getD 0 0) p := by
  have hlt : p / bpb.bytesPerCluster < 64 :=
    (Nat.div_lt_iff_lt_mul bpb.bytesPerCluster_pos).mpr hp
  rw [batchByte, batchFirst_of_lt hlt, Nat.mod_eq_of_lt hlt, Nat.div_add_mod']

theorem batchByte_add (cs : List Nat) (p : Nat) :
    batchByte bpb d cs (64 * bpb.bytesPerCluster + p) = batchByte bpb d (cs.drop 64) p := by
  have hdiv : (64 * bpb.bytesPerCluster + p) / bpb.bytesPerCluster =
      64 + p / bpb.bytesPerCluster := by
    rw [Nat.mul_comm, Nat.mul_add_div bpb.bytesPerCluster_pos]
  rw [batchByte, batchByte, hdiv, batchFirst_add, Nat.add_mod_left, Nat.mul_add_mod']

theorem map_batchByte_append {start a b m : Nat}
    (hne : b ≠ 0 → start + a = 64 * bpb.bytesPerCluster)
    (hfirst : start + a ≤ 64 * bpb.bytesPerCluster) (hm : m = a + b) :
    (List.range m).map (fun k => batchByte bpb d cs (start + k)) =
      (List.range a).map (fun k => clusterByte bpb d (cs.getD 0 0) (start + k)) ++
        (List.range b).map (fun k => batchByte bpb d (cs.drop 64) (0 + k)) := by
  rw [hm, List.range_add, List.map_append, List.map_map]
  congr 1
  · refine List.map_congr_left fun k hk => batchByte_first ?_
    rw [List.mem_range] at hk
    omega
  · refine List.map_congr_left fun k hk => ?_
    rw [List.mem_range] at hk
    rw [Function.comp_apply, ← Nat.add_assoc, hne (by omega), batchByte_add, Nat.zero_add]

theorem copyBatches_succ (hne : cs ≠ []) (toRead fuel copied intra : Nat) :
    copyBatches bpb d toRead (fuel + 1) cs copied intra =
      if bpb.clusterToSector (cs.getD 0 0) + (cs.take 64).length * bpb.sectorsPerCluster ≤
          d.totalSectors then
        (copyBatches bpb d toRead fuel (cs.drop 64)
          (copied + min ((cs.take 64).length * bpb.bytesPerCluster - intra) (toRead - copied))
          0).map fun bytes =>
            (List.range (min ((cs.take 64).length * bpb.bytesPerCluster - intra)
              (toRead - copied))).map (fun k => clusterByte bpb d (cs.getD 0 0) (intra + k)) ++
              bytes
      else .error (.other "FAT32 read I/O error") := by
  cases cs with
  | nil => exact absurd rfl hne
  | cons first rest =>
    rw [copyBatches, Disk.readBytes_eq, List.getD_cons_zero]
    by_cases hon : bpb.clusterToSector first +
        ((first :: rest).take 64).length * bpb.sectorsPerCluster ≤ d.totalSectors
    · rw [if_pos hon, if_pos hon]
      dsimp only
      split
      · next h => rw [h, Except.map]
      · next h => rw [h, Except.map]; rfl
    · rw [if_neg hon, if_neg hon]

theorem copyBatches_of_onDevice {toRead fuel copied intra : Nat} (hon : BatchesOnDevice bpb d cs)
    (hfuel : cs.length ≤ fuel) (hintra : intra < bpb.bytesPerCluster) :
    copyBatches bpb d toRead fuel cs copied intra =
      .ok ((List.range (min (cs.length * bpb.bytesPerCluster - intra) (toRead - copied))).map
        fun k => batchByte bpb d cs (intra + k)) := by
  induction fuel generalizing cs copied intra with
  | zero =>
    obtain rfl := List.length_eq_zero_iff.mp (Nat.le_zero.mp hfuel)
    simp [copyBatches]
  | succ fuel ih =>
    by_cases hne : cs = []
    · subst hne
      simp [copyBatches]
    · obtain ⟨hfirst, hrest⟩ := (batchesOnDevice_iff hne).mp hon
      have htake : (cs.take 64).length = min 64 cs.length := List.length_take
      have hdrop : (cs.drop 64).length = cs.length - 64 := List.length_drop
      have hsum : (cs.take 64).length + (cs.drop 64).length = cs.length := by omega
      have hsum' := congrArg (· * bpb.bytesPerCluster) hsum
      rw [Nat.add_mul] at hsum'
      have hbatch : (cs.take 64).length * bpb.bytesPerCluster ≤ 64 * bpb.bytesPerCluster :=
        Nat.mul_le_mul_right _ (by omega)
      have hfull : (cs.drop 64).length * bpb.bytesPerCluster ≠ 0 →
          (cs.take 64).length * bpb.bytesPerCluster = 64 * bpb.bytesPerCluster := by
        intro hmul
        have hpos : (cs.drop 64).length ≠ 0 := fun h0 => hmul (by rw [h0, Nat.zero_mul])
        rw [htake, Nat.min_eq_left (by omega)]
      rw [copyBatches_succ hne, if_pos hfirst, ih hrest (by omega) bpb.bytesPerCluster_pos,
        Except.map]
      congr 1
      symm
      apply map_batchByte_append <;> omega

theorem copyBatches_of_not_onDevice {toRead fuel copied intra : Nat}
    (hon : ¬ BatchesOnDevice bpb d cs) (hfuel : cs.length ≤ fuel) :
    copyBatches bpb d toRead fuel cs copied intra = .error (.other "FAT32 read I/O error") := by
  induction fuel generalizing cs copied intra with
  | zero =>
    refine absurd (fun i hi => ?_) hon
    omega
  | succ fuel ih =>
    have hne : cs ≠ [] := by
      rintro rfl
      exact hon fun i hi => absurd hi (Nat.not_lt_zero i)
    rw [batchesOnDevice_iff hne, not_and] at hon
    rw [copyBatches_succ hne]
    split
    · next hfirst =>
      rw [ih (hon hfirst) (by rw [List.length_drop]; omega)]
      rfl
    · rfl

end

/-- Byte `p` of the clusters of a chain one behind the other. -/
def fileByte (bpb : Fat32Bpb) (d : Disk) (chain : List Nat) (p : Nat) : UInt8 :=
  clusterByte bpb d (chain.getD (p / bpb.bytesPerCluster) 0) (p % bpb.bytesPerCluster)

/-- `read` returns as many bytes as there are, and those of the clusters of the chain. -/
def Fat32File.ReadsChain (f : Fat32File) (bpb : Fat32Bpb) (d : Disk) (chain : List Nat)
    (len offset : Nat) : Prop :=
  f.read bpb d len offset = .ok ((List.range (min (f.fileSize - offset) len)).map
    fun k => fileByte bpb d chain (offset + k))

/-- As many clusters of the chain as `toRead` bytes need, from the cluster of the offset
on. -/
def readClusters (bpb : Fat32Bpb) (chain : List Nat) (offset toRead : Nat) : List Nat :=
  (chain.drop (offset / bpb.bytesPerCluster)).take
    ((toRead + bpb.bytesPerCluster - 1) / bpb.bytesPerCluster)

/-- The clusters hold the bytes although the first of them is not read from its start, the
device has the clusters from the first of each batch on, and cluster `i` of the batch has
the bytes that are read of it in common with the cluster `i` numbers behind the first. -/
structure BatchesMatch (bpb : Fat32Bpb) (d : Disk) (chain : List Nat) (offset toRead : Nat) :
    Prop where
  covers : offset % bpb.bytesPerCluster + toRead ≤
    (toRead + bpb.bytesPerCluster - 1) / bpb.bytesPerCluster * bpb.bytesPerCluster
  onDevice : BatchesOnDevice bpb d (readClusters bpb chain offset toRead)
  same : ∀ p i k, offset % bpb.bytesPerCluster ≤ p → p < offset % bpb.bytesPerCluster + toRead →
    p / bpb.bytesPerCluster = i → p % bpb.bytesPerCluster = k →
    clusterByte bpb d (batchFirst (readClusters bpb chain offset toRead) i + i % 64) k =
      clusterByte bpb d ((readClusters bpb chain offset toRead).getD i 0) k

section

variable {vol : Fat32Volume} {f : Fat32File} {d : Disk} {chain : List Nat} {len offset : Nat}

theorem SoundChain.linked_follow (h : SoundChain vol d chain) (hdev : vol.OnDevice d) :
    Linked (followClusterChain vol.toFat32Bpb d) chain :=
  h.linked.congr fun _ hc => followClusterChain_eq hdev.table (h.lt_maxClusters hc)

theorem length_readClusters (hlong : f.fileSize ≤ chain.length * vol.bytesPerCluster)
    {toRead : Nat} (hoffset : offset + toRead ≤ f.fileSize) (hpos : 0 < toRead) :
    offset / vol.bytesPerCluster < chain.length ∧
      (readClusters vol.toFat32Bpb chain offset toRead).length =
        (toRead + vol.bytesPerCluster - 1) / vol.bytesPerCluster := by
  have hbpc := vol.bytesPerCluster_pos
  have hdiv := Nat.div_add_mod' offset vol.bytesPerCluster
  have hq : offset / vol.bytesPerCluster < chain.length := by
    rw [Nat.div_lt_iff_lt_mul hbpc]
    omega
  refine ⟨hq, ?_⟩
  have hn : (toRead + vol.bytesPerCluster - 1) / vol.bytesPerCluster ≤
      chain.length - offset / vol.bytesPerCluster := by
    rw [← Nat.lt_succ_iff, Nat.div_lt_iff_lt_mul hbpc, Nat.succ_mul, Nat.sub_mul]
    omega
  rw [readClusters, List.length_take, List.length_drop, Nat.min_eq_left hn]

theorem Fat32File.read_eq (hdev : vol.OnDevice d) (hchain : SoundChain vol d chain)
    (hstart : ∀ c ∈ chain.head?, c = f.startCluster)
    (hlong : f.fileSize ≤ chain.length * vol.bytesPerCluster)
    (hpos : 0 < min (f.fileSize - offset) len) :
    f.read vol.toFat32Bpb d len offset =
      copyBatches vol.toFat32Bpb d (min (f.fileSize - offset) len)
        (readClusters vol.toFat32Bpb chain offset (min (f.fileSize - offset) len)).length
        (readClusters vol.toFat32Bpb chain offset (min (f.fileSize - offset) len)) 0
        (offset % vol.bytesPerCluster) := by
  have hbpc := vol.bytesPerCluster_pos
  obtain ⟨hq, hlength⟩ := length_readClusters hlong
    (show offset + min (f.fileSize - offset) len ≤ f.fileSize by omega) hpos
  have hlinked := hchain.linked_follow hdev
  have hskip : skipClusters vol.toFat32Bpb d offset f.startCluster offset =
      some (chain.getD (offset / vol.bytesPerCluster) 0, offset % vol.bytesPerCluster) := by
    cases chain with
    | nil => exact absurd hq (Nat.not_lt_zero _)
    | cons first l =>
      rw [← hstart first rfl]
      exact skipClusters_eq hlinked hq (Nat.div_le_self _ _)
  have hcollect : collectClusterChainLimited vol.toFat32Bpb d
      (chain.getD (offset / vol.bytesPerCluster) 0)
      ((min (f.fileSize - offset) len + vol.bytesPerCluster - 1) / vol.bytesPerCluster) =
        readClusters vol.toFat32Bpb chain offset (min (f.fileSize - offset) len) := by
    have hdrop := hlinked.drop (offset / vol.bytesPerCluster)
    rw [readClusters]
    rw [List.drop_eq_getElem_cons hq] at hdrop ⊢
    rw [List.getD_eq_getElem chain 0 hq]
    exact hdrop.collectChain_eq_take _
  have hne : readClusters vol.toFat32Bpb chain offset (min (f.fileSize - offset) len) ≠ [] := by
    rw [← List.length_pos_iff, hlength]
    exact Nat.div_pos (by omega) hbpc
  rw [Fat32File.read, if_neg (by omega)]
  dsimp only
  rw [if_neg (by omega), hskip]
  dsimp only
  rw [hcollect, if_neg hne]

theorem clusterByte_add (bpb : Fat32Bpb) (d : Disk) {c : Nat} (hc : 2 ≤ c) (j k : Nat) :
    clusterByte bpb d (c + j) k = clusterByte bpb d c (j * bpb.bytesPerCluster + k) := by
  have haddr : bpb.clusterAddr (c + j) = bpb.clusterAddr c + j * bpb.bytesPerCluster := by
    unfold Fat32Bpb.clusterAddr Fat32Bpb.bytesPerCluster
    rw [bpb.clusterToSector_eq hc, bpb.clusterToSector_eq (by omega), Nat.sub_add_comm hc,
      Nat.add_mul, ← Nat.mul_assoc]
    omega
  rw [clusterByte, clusterByte, haddr, Nat.add_assoc]

theorem SoundChain.two_le_batchFirst (h : SoundChain vol d chain) {toRead i : Nat}
    (hi : i < (readClusters vol.toFat32Bpb chain offset toRead).length) :
    2 ≤ batchFirst (readClusters vol.toFat32Bpb chain offset toRead) i := by
  have hlt : i - i % 64 < (readClusters vol.toFat32Bpb chain offset toRead).length := by omega
  rw [batchFirst, List.getD_eq_getElem _ 0 hlt]
  apply (h.inRange _ _).1
  exact List.mem_of_mem_drop (List.mem_of_mem_take (List.getElem_mem hlt))

theorem SoundChain.batchByte_eq (h : SoundChain vol d chain) {toRead p : Nat}
    (hp : p / vol.bytesPerCluster < (readClusters vol.toFat32Bpb chain offset toRead).length) :
    batchByte vol.toFat32Bpb d (readClusters vol.toFat32Bpb chain offset toRead) p =
      clusterByte vol.toFat32Bpb d
        (batchFirst (readClusters vol.toFat32Bpb chain offset toRead) (p / vol.bytesPerCluster) +
          p / vol.bytesPerCluster % 64) (p % vol.bytesPerCluster) := by
  rw [batchByte, clusterByte_add _ _ (h.two_le_batchFirst hp)]

theorem fileByte_eq (bpb : Fat32Bpb) (d : Disk) (chain : List Nat) {offset toRead j : Nat}
    (hj : (offset % bpb.bytesPerCluster + j) / bpb.bytesPerCluster <
      (toRead + bpb.bytesPerCluster - 1) / bpb.bytesPerCluster) :
    fileByte bpb d chain (offset + j) = clusterByte bpb d
      ((readClusters bpb chain offset toRead).getD
        ((offset % bpb.bytesPerCluster + j) / bpb.bytesPerCluster) 0)
      ((offset % bpb.bytesPerCluster + j) % bpb.bytesPerCluster) := by
  have hbpc := bpb.bytesPerCluster_pos
  have hsum : offset + j = bpb.bytesPerCluster * (offset / bpb.bytesPerCluster) +
      (offset % bpb.bytesPerCluster + j) := by
    rw [← Nat.add_assoc, Nat.div_add_mod]
  rw [fileByte, hsum, Nat.mul_add_div hbpc, Nat.mul_add_mod, readClusters,
    List.getD_eq_getElem?_getD, List.getD_eq_getElem?_getD, List.getElem?_take_of_lt hj,
    List.getElem?_drop]

/-- `read` returns the bytes of the chain exactly if the request is empty or its batches
match the chain. -/
theorem readsChain_iff (vol : Fat32Volume) (f : Fat32File) (d : Disk) (chain : List Nat)
    (len offset : Nat) (hdev : vol.OnDevice d) (hchain : SoundChain vol d chain)
    (hstart : ∀ c ∈ chain.head?, c = f.startCluster)
    (hlong : f.fileSize ≤ chain.length * vol.bytesPerCluster) :
    f.ReadsChain vol.toFat32Bpb d chain len offset ↔ min (f.fileSize - offset) len = 0 ∨
        BatchesMatch vol.toFat32Bpb d chain offset (min (f.fileSize - offset) len) := by
  rcases Nat.eq_zero_or_pos (min (f.fileSize - offset) len) with hzero | hpos
  · refine iff_of_true ?_ (.inl hzero)
    rw [Fat32File.ReadsChain, Fat32File.read]
    dsimp only
    rw [hzero, if_pos rfl, ite_self]
    rfl
  · obtain ⟨-, hlength⟩ := length_readClusters hlong
      (show offset + min (f.fileSize - offset) len ≤ f.fileSize by omega) hpos
    rw [Fat32File.ReadsChain, Fat32File.read_eq hdev hchain hstart hlong hpos,
      or_iff_right (Nat.ne_of_gt hpos)]
    generalize min (f.fileSize - offset) len = toRead at hpos hlength ⊢
    have hskip := Nat.mod_lt offset vol.bytesPerCluster_pos
    by_cases hon : BatchesOnDevice vol.toFat32Bpb d
        (readClusters vol.toFat32Bpb chain offset toRead)
    · rw [copyBatches_of_onDevice hon (Nat.le_refl _) hskip, Except.ok.injEq, hlength, Nat.sub_zero]
      have hindex : offset % vol.bytesPerCluster + toRead ≤
          (toRead + vol.bytesPerCluster - 1) / vol.bytesPerCluster * vol.bytesPerCluster →
          ∀ p < offset % vol.bytesPerCluster + toRead, p / vol.bytesPerCluster <
            (toRead + vol.bytesPerCluster - 1) / vol.bytesPerCluster := fun hcovers p hp =>
        (Nat.div_lt_iff_lt_mul vol.bytesPerCluster_pos).mpr (by omega)
      constructor
      · intro heq
        have hsame := congrArg List.length heq
        rw [List.length_map, List.length_range, List.length_map, List.length_range] at hsame
        have hcovers : offset % vol.bytesPerCluster + toRead ≤
            (toRead + vol.bytesPerCluster - 1) / vol.bytesPerCluster * vol.bytesPerCluster := by
          omega
        rw [hsame, List.map_inj_left] at heq
        refine ⟨hcovers, hon, ?_⟩
        rintro p i k hlow hhigh rfl rfl
        have hp := hindex hcovers p hhigh
        have hbyte := heq (p - offset % vol.bytesPerCluster) (List.mem_range.mpr (by omega))
        rw [← Nat.add_sub_cancel' hlow] at hp
        rw [fileByte_eq _ _ _ hp] at hbyte
        rw [Nat.add_sub_cancel' hlow] at hp hbyte
        rw [hchain.batchByte_eq (hlength ▸ hp)] at hbyte
        exact hbyte
      · intro hmatch
        have hcovers := hmatch.covers
        rw [Nat.min_eq_right (by omega)]
        refine List.map_congr_left fun j hj => ?_
        rw [List.mem_range] at hj
        have hp := hindex hcovers (offset % vol.bytesPerCluster + j) (by omega)
        rw [fileByte_eq _ _ _ hp, hchain.batchByte_eq (hlength ▸ hp)]
        exact hmatch.same _ _ _ (Nat.le_add_right _ _) (by omega) rfl rfl
    · rw [copyBatches_of_not_onDevice hon (Nat.le_refl _)]
      exact iff_of_false (by simp) fun hmatch => hon hmatch.onDevice

end

def twoClusters : Fat32File where
  startCluster := 2
  fileSize := 1024

theorem soundChain_twoClusters : SoundChain fullVolume fullChain.disk [2, 3] :=
  fullChain_disciplined.sound [2, 3] List.mem_cons_self

/-- The whole file is read at once. -/
theorem readsChain_twoClusters : SoundChain fullVolume fullChain.disk [2, 3] ∧
      twoClusters.ReadsChain fullVolume.toFat32Bpb fullChain.disk [2, 3] 1024 0 := by
  refine ⟨soundChain_twoClusters, (readsChain_iff fullVolume twoClusters fullChain.disk [2, 3]
    1024 0 fullChain_disciplined.onDevice soundChain_twoClusters ?_ (by decide)).mpr
    (.inr ⟨by decide, ?_, ?_⟩)⟩
  · intro c hc
    exact (Option.some.inj hc).symm
  · intro i hi
    have hi' : i < 2 := hi
    interval_cases i <;> decide
  · rintro p i k - hp rfl rfl
    have hp' : p < 1024 := by simpa [twoClusters] using hp
    have hi : p / 512 < 2 := by omega
    change clusterByte _ _ (batchFirst [2, 3] (p / 512) + p / 512 % 64) _ =
      clusterByte _ _ ([2, 3].getD (p / 512) 0) _
    interval_cases p / 512 <;> rfl

/-- One cluster is collected for 512 bytes from the second byte on, and it holds 511 of
them. -/
theorem unaligned_read_short :
    ∃ (vol : Fat32Volume) (f : Fat32File) (d : Disk) (chain : List Nat) (len offset : Nat),
      vol.OnDevice d ∧ SoundChain vol d chain ∧ (∀ c ∈ chain.head?, c = f.startCluster) ∧
        f.fileSize ≤ chain.length * vol.bytesPerCluster ∧
        ¬ f.ReadsChain vol.toFat32Bpb d chain len offset := by
  refine ⟨fullVolume, twoClusters, fullChain.disk, [2, 3], 512, 1,
    fullChain_disciplined.onDevice, soundChain_twoClusters,
    fun c hc => (Option.some.inj hc).symm, by decide, fun h => ?_⟩
  have hlength := congrArg (fun r => r.toOption.map List.length) h
  exact absurd hlength (by decide +kernel)

end ZiqaKernel
