/-
The discipline of the cluster chains: allocating and freeing clusters keeps
every chain of the volume linked, ended, in range and apart from the others.
-/
import ZiqaKernel.Fat32Table
import ZiqaKernel.StepRuns

namespace ZiqaKernel

open Fat32Bpb

/-- A volume: besides what the driver keeps of the boot sector, the number
after that of its last cluster.  The sectors of the table are filled up with
entries of clusters that the volume does not have. -/
structure Fat32Volume extends Fat32Bpb where
  clusterEnd : Nat
  clusterEnd_le_maxClusters : clusterEnd ≤ toFat32Bpb.maxClusters
  clusterEnd_le_endMark : clusterEnd ≤ endMark

variable {d d' : Disk}

namespace Fat32Volume

structure OnDevice (vol : Fat32Volume) (d : Disk) : Prop where
  table : vol.TableOnDevice d
  clusters : vol.dataStartSector + (vol.clusterEnd - 2) * vol.sectorsPerCluster ≤ d.totalSectors

theorem OnDevice.clusterOnDevice {vol : Fat32Volume} (h : vol.OnDevice d)
    {c : Nat} (hc : 2 ≤ c) (hlt : c < vol.clusterEnd) : vol.ClusterOnDevice d c := by
  have hle : (c - 2 + 1) * vol.sectorsPerCluster ≤ (vol.clusterEnd - 2) * vol.sectorsPerCluster :=
    Nat.mul_le_mul_right _ (by omega)
  rw [Nat.add_mul, Nat.one_mul] at hle
  have hfit := h.clusters
  rw [ClusterOnDevice, vol.clusterToSector_eq hc]
  omega

theorem OnDevice.congr {vol : Fat32Volume} (h : vol.OnDevice d)
    (htotal : d'.totalSectors = d.totalSectors) : vol.OnDevice d' :=
  ⟨by rw [TableOnDevice, htotal]; exact h.table, by rw [htotal]; exact h.clusters⟩

end Fat32Volume

/-- A chain of the volume: its clusters are in range, each names the next, the
last one bears an end mark, and none occurs twice. -/
structure SoundChain (vol : Fat32Volume) (d : Disk) (chain : List Nat) : Prop where
  inRange : ∀ c ∈ chain, 2 ≤ c ∧ c < vol.clusterEnd
  linked : Linked (linkOf vol.toFat32Bpb d) chain
  marked : ∀ c ∈ chain.getLast?, endMark ≤ fatEntry vol.toFat32Bpb d c
  nodup : chain.Nodup

variable {prev : Option Nat}

namespace SoundChain

variable {vol : Fat32Volume} {d d' : Disk} {chain : List Nat} {c : Nat}

theorem lt_maxClusters (h : SoundChain vol d chain) (hc : c ∈ chain) : c < vol.maxClusters :=
  Nat.lt_of_lt_of_le (h.inRange c hc).2 vol.clusterEnd_le_maxClusters

theorem nil (vol : Fat32Volume) (d : Disk) : SoundChain vol d [] :=
  ⟨by simp, trivial, by simp, List.nodup_nil⟩

section

variable (h : SoundChain vol d chain)
include h

theorem fatEntry_ne_zero (hc : c ∈ chain) :
    fatEntry vol.toFat32Bpb d c ≠ 0 := by
  intro hzero
  have hnone : linkOf vol.toFat32Bpb d c = none := by
    rw [linkOf, hzero, nextOf_eq_none_iff]
    omega
  have hmark := h.marked c (h.linked.getLast?_eq hc hnone)
  rw [hzero] at hmark
  exact absurd hmark (by decide)

theorem not_free (hc : c ∈ chain) : ¬ FreeCluster vol.toFat32Bpb d c :=
  fun hfree => h.fatEntry_ne_zero hc hfree.2.2

theorem congr
    (hentry : ∀ c ∈ chain, fatEntry vol.toFat32Bpb d' c = fatEntry vol.toFat32Bpb d c) :
    SoundChain vol d' chain where
  inRange := h.inRange
  linked := h.linked.congr fun c hc => by rw [linkOf, linkOf, hentry c hc]
  marked c hc := by
    rw [hentry c (List.mem_of_getLast? hc)]
    exact h.marked c hc
  nodup := h.nodup

theorem concat (hfree : FreeCluster vol.toFat32Bpb d c)
    (hc : c < vol.clusterEnd)
    (halloc : ClusterTaken vol.toFat32Bpb d d' chain.getLast? c) :
    SoundChain vol d' (chain ++ [c]) := by
  have hnew : c ∉ chain := fun hmem => h.not_free hmem hfree
  have hnotLast : chain.getLast? ≠ some c := fun hlast => hnew (List.mem_of_getLast? hlast)
  have hmark := vol.clusterEnd_le_endMark
  have hself : fatEntry vol.toFat32Bpb d' c = endOfChain := by
    rw [halloc.entry c hfree.2.1, if_neg hnotLast, if_pos rfl]
  refine ⟨fun c' hc' => ?_, ?_, fun c' hc' => ?_, ?_⟩
  · rcases List.mem_append.mp hc' with hold | hone
    · exact h.inRange c' hold
    · rw [List.mem_singleton.mp hone]
      exact ⟨hfree.1, hc⟩
  · refine h.linked.concat h.nodup hnew (fun c' hc' hlast => ?_) (fun c' hlast => ?_) ?_
    · rw [Option.mem_def] at hlast
      rw [linkOf, linkOf, halloc.entry c' (h.lt_maxClusters hc'), if_neg hlast, if_neg]
      exact fun heq => hnew (heq ▸ hc')
    · rw [Option.mem_def] at hlast
      rw [linkOf, halloc.entry c' (h.lt_maxClusters (List.mem_of_getLast? hlast)),
        if_pos hlast, nextOf_eq_some_iff]
      rw [endMark] at hmark ⊢
      have := hfree.1
      omega
    · rw [linkOf, hself, nextOf_eq_none_iff]
      exact Or.inr (by decide)
  · rw [List.getLast?_concat, Option.mem_some_iff] at hc'
    rw [← hc', hself]
    decide
  · exact List.nodup_append.mpr ⟨h.nodup, List.nodup_singleton c, by
      rintro a ha b hb rfl
      exact hnew (List.mem_singleton.mp hb ▸ ha)⟩

theorem restored
    (hprev : ∀ p ∈ prev, p ∈ chain → chain.getLast? = some p)
    (hrest : Restored vol.toFat32Bpb d d' prev) : SoundChain vol d' chain := by
  have hentry : ∀ c ∈ chain, fatEntry vol.toFat32Bpb d' c =
      if prev = some c then endOfChain else fatEntry vol.toFat32Bpb d c :=
    fun c hc => hrest.entry c (h.lt_maxClusters hc)
  refine ⟨h.inRange, h.linked.congr fun c hc => ?_, fun c hc => ?_, h.nodup⟩
  · rw [linkOf, linkOf, hentry c hc]
    by_cases hp : prev = some c
    · have hlast := h.marked c (hprev c hp hc)
      rw [if_pos hp, nextOf_eq_none_iff.mpr (Or.inr hlast), nextOf_eq_none_iff]
      exact Or.inr (by decide)
    · rw [if_neg hp]
  · rw [hentry c (List.mem_of_getLast? hc)]
    by_cases hp : prev = some c
    · rw [if_pos hp]
      decide
    · rw [if_neg hp]
      exact h.marked c hc

theorem length_le : chain.length ≤ vol.maxClusters := by
  have hsub := h.nodup.subperm fun c hc => List.mem_range.mpr (h.lt_maxClusters hc)
  simpa using hsub.length_le

theorem length_le_chainLimit : chain.length ≤ vol.chainLimit := by
  have hlen := h.length_le
  unfold chainLimit
  split <;> omega

end

theorem freeClusterChain_run (h : SoundChain vol d (c :: chain)) (hdev : vol.TableOnDevice d) :
    ∃ d', (freeClusterChain vol.toFat32Bpb c).run d = (.ok (), d') ∧
      Freed vol.toFat32Bpb d d' (c :: chain) :=
  freeFrom_run hdev h.linked h.nodup
    (fun c' hc' => ⟨(h.inRange c' hc').1, h.lt_maxClusters hc'⟩) h.length_le_chainLimit

theorem collectClusterChain_eq (h : SoundChain vol d (c :: chain)) (hdev : vol.TableOnDevice d) :
    collectClusterChain vol.toFat32Bpb d c = c :: chain := by
  refine Linked.collectChain_eq (h.linked.congr fun c' hc' => ?_) h.length_le_chainLimit
  rw [followClusterChain_eq hdev (h.lt_maxClusters hc'), linkOf]

end SoundChain

structure ChainState where
  disk : Disk
  chains : List (List Nat)

/-- The calls on the chains of a volume: a cluster is allocated for a new chain
or behind the last cluster of chain number `j`, or that chain is freed. -/
inductive ChainOp where
  | allocate (target : Option Nat)
  | free (j : Nat)

/-- The chains after cluster `c` was allocated for `target`. -/
def extendChains (chains : List (List Nat)) (target : Option Nat) (c : Nat) : List (List Nat) :=
  match target with
  | none => chains ++ [[c]]
  | some j => chains.set j (chains.getD j [] ++ [c])

namespace ChainOp

variable (vol : Fat32Volume)

def Names : ChainOp → ChainState → Prop
  | .allocate none, _ => True
  | .allocate (some j), s => j < s.chains.length
  | .free j, s => j < s.chains.length

def step : ChainOp → ChainState → ChainState
  | .allocate target, s =>
    match allocateCluster vol.toFat32Bpb
        ((target.map fun j => s.chains.getD j []).bind List.getLast?) s.disk with
    | (some c, d) => ⟨d, extendChains s.chains target c⟩
    | (none, d) => ⟨d, s.chains⟩
  | .free j, s =>
    ⟨((freeClusterChain vol.toFat32Bpb ((s.chains.getD j []).headD 0)).run s.disk).2,
      s.chains.eraseIdx j⟩

end ChainOp

/-- All of the volume's chains are sound and apart from each other, and the
copies of the table agree. -/
structure Disciplined (vol : Fat32Volume) (s : ChainState) : Prop where
  onDevice : vol.OnDevice s.disk
  agree : vol.CopiesAgree s.disk
  nonempty : ∀ chain ∈ s.chains, chain ≠ []
  sound : ∀ chain ∈ s.chains, SoundChain vol s.disk chain
  apart : s.chains.flatten.Nodup

/-- What a call did to the chains and to the set of free clusters. -/
def ChainOp.Effect (vol : Fat32Volume) (s s' : ChainState) : ChainOp → Prop
  | .allocate target =>
    (s'.chains = s.chains ∧
      ∀ c, FreeCluster vol.toFat32Bpb s'.disk c ↔ FreeCluster vol.toFat32Bpb s.disk c) ∨
    ∃ c, c ∉ s.chains.flatten ∧ s'.chains = extendChains s.chains target c ∧
      (∀ k < vol.bytesPerCluster, clusterByte vol.toFat32Bpb s'.disk c k = 0) ∧
      ∀ c', FreeCluster vol.toFat32Bpb s'.disk c' ↔ FreeCluster vol.toFat32Bpb s.disk c' ∧ c' ≠ c
  | .free j =>
    s'.chains = s.chains.eraseIdx j ∧ ∀ c, FreeCluster vol.toFat32Bpb s'.disk c ↔
        FreeCluster vol.toFat32Bpb s.disk c ∨ c ∈ s.chains.getD j []

/-- An allocation finds its cluster in the volume, or finds none, or finds one
past the end of the device. -/
def ChainOp.FreeInVolume (vol : Fat32Volume) : ChainOp → ChainState → Prop
  | .allocate _, s => ∀ c, LeastFree vol.toFat32Bpb s.disk c →
      c < vol.clusterEnd ∨ (c < UInt32.size ∧ ¬ vol.ClusterOnDevice s.disk c)
  | .free _, _ => True

section

variable {vol : Fat32Volume} {s : ChainState}

structure ChainSplit (chains : List (List Nat)) (target : Option Nat)
    (front : List (List Nat)) (chain : List Nat) (back : List (List Nat)) : Prop where
  flatten : chains.flatten = front.flatten ++ (chain ++ back.flatten)
  others : ∀ l ∈ front ++ back, l ∈ chains
  chain_mem : chain = [] ∨ chain ∈ chains
  last : (target.map fun j => chains.getD j []).bind List.getLast? = chain.getLast?
  extended : ∀ c, extendChains chains target c = front ++ (chain ++ [c]) :: back

theorem chains_eq_append {chains : List (List Nat)} {j : Nat} (hj : j < chains.length) :
    chains = chains.take j ++ chains.getD j [] :: chains.drop (j + 1) := by
  rw [List.getD_eq_getElem _ _ hj, List.getElem_cons_drop, List.take_append_drop]

theorem exists_chainSplit {target : Option Nat} (hnames : (ChainOp.allocate target).Names s) :
    ∃ front chain back, ChainSplit s.chains target front chain back := by
  cases target with
  | none =>
    exact ⟨s.chains, [], [], by simp, by simp, Or.inl rfl, rfl, fun c => rfl⟩
  | some j =>
    have hj : j < s.chains.length := hnames
    have hsplit := chains_eq_append hj
    refine ⟨s.chains.take j, s.chains.getD j [], s.chains.drop (j + 1), ?_, ?_, ?_, rfl,
      fun c => ?_⟩
    · conv_lhs => rw [hsplit]
      simp
    · intro l hl
      rcases List.mem_append.mp hl with hfront | hback
      · exact List.mem_of_mem_take hfront
      · exact List.mem_of_mem_drop hback
    · rw [List.getD_eq_getElem _ _ hj]
      exact Or.inr (List.getElem_mem hj)
    · exact List.set_eq_take_append_cons_drop.trans (if_pos hj)

namespace Disciplined

section

variable (h : Disciplined vol s)
include h

theorem not_mem_of_free {c : Nat}
    (hfree : FreeCluster vol.toFat32Bpb s.disk c) : c ∉ s.chains.flatten := by
  intro hmem
  obtain ⟨chain, hchain, hc⟩ := List.mem_flatten.mp hmem
  exact (h.sound chain hchain).not_free hc hfree

theorem sound_of_split {chain : List Nat}
    (hchain : chain = [] ∨ chain ∈ s.chains) : SoundChain vol s.disk chain := by
  rcases hchain with rfl | hmem
  · exact .nil vol s.disk
  · exact h.sound chain hmem

theorem extend {target : Option Nat} {front back : List (List Nat)}
    {chain : List Nat} (hsplit : ChainSplit s.chains target front chain back) {c : Nat}
    (hfree : FreeCluster vol.toFat32Bpb s.disk c) (hc : c < vol.clusterEnd)
    (halloc : ClusterTaken vol.toFat32Bpb s.disk d' chain.getLast? c) :
    Disciplined vol ⟨d', extendChains s.chains target c⟩ := by
  have hnew := h.not_mem_of_free hfree
  have hchain := h.sound_of_split hsplit.chain_mem
  have hapart := h.apart
  rw [hsplit.flatten] at hapart hnew
  have hperm : (front ++ (chain ++ [c]) :: back).flatten.Perm
      (c :: (front.flatten ++ (chain ++ back.flatten))) := by
    simp only [List.flatten_append, List.flatten_cons, List.append_assoc, List.singleton_append]
    exact (List.Perm.append_left _ List.perm_middle).trans List.perm_middle
  refine ⟨h.onDevice.congr halloc.total, halloc.agree h.agree, ?_, ?_, ?_⟩
  · intro l hl
    rw [hsplit.extended, List.mem_append, List.mem_cons] at hl
    rcases hl with hl | rfl | hl
    · exact h.nonempty l (hsplit.others l (List.mem_append_left _ hl))
    · simp
    · exact h.nonempty l (hsplit.others l (List.mem_append_right _ hl))
  · have hother : ∀ l ∈ front ++ back, SoundChain vol d' l := by
      intro l hl
      refine (h.sound l (hsplit.others l hl)).congr fun c' hc' => ?_
      have hmax := (h.sound l (hsplit.others l hl)).lt_maxClusters hc'
      have hc'ne : c' ≠ c := by
        rintro rfl
        exact (h.sound l (hsplit.others l hl)).not_free hc' hfree
      rw [halloc.entry c' hmax, if_neg, if_neg hc'ne]
      -- the predecessor belongs to the extended chain, not to this one
      intro hlast
      have hmem := List.mem_of_getLast? hlast
      rw [List.nodup_append] at hapart
      rcases List.mem_append.mp hl with hfront | hback
      · exact hapart.2.2 c' (List.mem_flatten.mpr ⟨l, hfront, hc'⟩) c'
          (List.mem_append_left _ hmem) rfl
      · exact (List.nodup_append.mp hapart.2.1).2.2 c' hmem c'
          (List.mem_flatten.mpr ⟨l, hback, hc'⟩) rfl
    intro l hl
    rw [hsplit.extended, List.mem_append, List.mem_cons] at hl
    rcases hl with hl | rfl | hl
    · exact hother l (List.mem_append_left _ hl)
    · exact hchain.concat hfree hc halloc
    · exact hother l (List.mem_append_right _ hl)
  · rw [hsplit.extended, hperm.nodup_iff, List.nodup_cons]
    exact ⟨hnew, hapart⟩

theorem restore
    (hprev : ∀ p ∈ prev, ∃ chain ∈ s.chains, chain.getLast? = some p)
    (hrest : Restored vol.toFat32Bpb s.disk d' prev) :
    Disciplined vol ⟨d', s.chains⟩ := by
  refine ⟨h.onDevice.congr hrest.total, hrest.agree h.agree, h.nonempty,
    fun l hl => (h.sound l hl).restored (fun p hp hmem => ?_) hrest, h.apart⟩
  obtain ⟨chain, hchain, hlast⟩ := hprev p hp
  rw [← eq_of_mem_chains h.apart hchain hl (List.mem_of_getLast? hlast) hmem]
  exact hlast

theorem erase {j : Nat} (hj : j < s.chains.length)
    (hfreed : Freed vol.toFat32Bpb s.disk d' (s.chains.getD j [])) :
    Disciplined vol ⟨d', s.chains.eraseIdx j⟩ := by
  have hsub : (s.chains.eraseIdx j).Sublist s.chains := List.eraseIdx_sublist ..
  have hsplit := chains_eq_append hj
  have hapart := h.apart
  rw [hsplit, List.flatten_append, List.flatten_cons] at hapart
  have herase : s.chains.eraseIdx j = s.chains.take j ++ s.chains.drop (j + 1) :=
    List.eraseIdx_eq_take_drop_succ ..
  refine ⟨h.onDevice.congr hfreed.total, hfreed.agree h.agree,
    fun l hl => h.nonempty l (hsub.subset hl), fun l hl => ?_, ?_⟩
  swap
  · rw [herase, List.flatten_append]
    exact hapart.sublist ((List.sublist_append_right _ _).append_left _)
  refine (h.sound l (hsub.subset hl)).congr fun c hc => ?_
  rw [hfreed.entry c ((h.sound l (hsub.subset hl)).lt_maxClusters hc), if_neg]
  -- the freed chain is apart from those in front of it and from those behind it
  intro hmem
  rw [herase] at hl
  rw [List.nodup_append] at hapart
  rcases List.mem_append.mp hl with hfront | hback
  · exact hapart.2.2 c (List.mem_flatten.mpr ⟨l, hfront, hc⟩) c (List.mem_append_left _ hmem) rfl
  · exact (List.nodup_append.mp hapart.2.1).2.2 c hmem c (List.mem_flatten.mpr ⟨l, hback, hc⟩) rfl

end

theorem free_iff_allocated {c : Nat}
    (hfree : FreeCluster vol.toFat32Bpb d c) (hc : c < vol.clusterEnd)
    (hprev : ∀ p ∈ prev, ¬ FreeCluster vol.toFat32Bpb d p)
    (halloc : ClusterTaken vol.toFat32Bpb d d' prev c) (c' : Nat) :
    FreeCluster vol.toFat32Bpb d' c' ↔ FreeCluster vol.toFat32Bpb d c' ∧ c' ≠ c := by
  have hmark := vol.clusterEnd_le_endMark
  have hlow := hfree.1
  rw [endMark] at hmark
  by_cases hmax : c' < vol.maxClusters
  · have hentry := halloc.entry c' hmax
    by_cases hp : prev = some c'
    · rw [if_pos hp] at hentry
      refine iff_of_false (fun h => ?_) fun h => hprev c' hp h.1
      have hzero := h.2.2
      omega
    · rw [if_neg hp] at hentry
      by_cases heq : c' = c
      · rw [if_pos heq] at hentry
        refine iff_of_false (fun h => ?_) fun h => h.2 heq
        have hzero := h.2.2
        rw [hentry] at hzero
        exact absurd hzero (by decide)
      · rw [if_neg heq] at hentry
        unfold FreeCluster
        rw [hentry]
        exact (and_iff_left heq).symm
  · exact iff_of_false (fun h => hmax h.2.1) fun h => hmax h.1.2.1

theorem free_iff_restored (hprev : ∀ p ∈ prev, ¬ FreeCluster vol.toFat32Bpb d p)
    (hrest : Restored vol.toFat32Bpb d d' prev) (c : Nat) :
    FreeCluster vol.toFat32Bpb d' c ↔ FreeCluster vol.toFat32Bpb d c := by
  by_cases hmax : c < vol.maxClusters
  · have hentry := hrest.entry c hmax
    by_cases hp : prev = some c
    · rw [if_pos hp] at hentry
      refine iff_of_false (fun h => ?_) (hprev c hp)
      have hzero := h.2.2
      rw [hentry] at hzero
      exact absurd hzero (by decide)
    · rw [if_neg hp] at hentry
      unfold FreeCluster
      rw [hentry]
  · exact iff_of_false (fun h => hmax h.2.1) fun h => hmax h.2.1

theorem free_iff_freed {chain : List Nat}
    (hsound : SoundChain vol d chain) (hfreed : Freed vol.toFat32Bpb d d' chain) (c : Nat) :
    FreeCluster vol.toFat32Bpb d' c ↔ FreeCluster vol.toFat32Bpb d c ∨ c ∈ chain := by
  by_cases hmax : c < vol.maxClusters
  · have hentry := hfreed.entry c hmax
    by_cases hmem : c ∈ chain
    · rw [if_pos hmem] at hentry
      exact iff_of_true ⟨(hsound.inRange c hmem).1, hmax, hentry⟩ (Or.inr hmem)
    · rw [if_neg hmem] at hentry
      unfold FreeCluster
      rw [hentry]
      exact (or_iff_left hmem).symm
  · refine iff_of_false (fun h => hmax h.2.1) ?_
    rintro (h | h)
    · exact hmax h.2.1
    · exact hmax (hsound.lt_maxClusters h)

end Disciplined

theorem Disciplined.allocate (h : Disciplined vol s) {target : Option Nat}
    (hnames : (ChainOp.allocate target).Names s)
    (hcond : (ChainOp.allocate target).FreeInVolume vol s) :
    Disciplined vol ((ChainOp.allocate target).step vol s) ∧
      (ChainOp.allocate target).Effect vol s ((ChainOp.allocate target).step vol s) := by
  obtain ⟨front, chain, back, hsplit⟩ := exists_chainSplit hnames
  have hchain := h.sound_of_split hsplit.chain_mem
  have hlast : ∀ p ∈ chain.getLast?, p ∈ chain := fun p hp => List.mem_of_getLast? hp
  have hmax : ∀ p ∈ chain.getLast?, p < vol.maxClusters :=
    fun p hp => hchain.lt_maxClusters (hlast p hp)
  have hused : ∀ p ∈ chain.getLast?, ¬ FreeCluster vol.toFat32Bpb s.disk p :=
    fun p hp => hchain.not_free (hlast p hp)
  have hstep : (ChainOp.allocate target).step vol s =
      match allocateCluster vol.toFat32Bpb chain.getLast? s.disk with
      | (some c, d) => ⟨d, extendChains s.chains target c⟩
      | (none, d) => ⟨d, s.chains⟩ := by
    rw [ChainOp.step, hsplit.last]
  rw [hstep]
  by_cases hany : ∃ c, FreeCluster vol.toFat32Bpb s.disk c
  · obtain ⟨c, hleast⟩ : ∃ c, LeastFree vol.toFat32Bpb s.disk c := by
      classical
      exact ⟨Nat.find hany, Nat.find_spec hany, fun c' hc' => Nat.find_min hany hc'⟩
    rcases hcond c hleast with hc | ⟨hsize, hfit⟩
    · have hsize : c < UInt32.size :=
        Nat.lt_of_lt_of_le hc (vol.clusterEnd_le_endMark.trans (by decide))
      have hfit := h.onDevice.clusterOnDevice hleast.1.1 hc
      obtain ⟨d', hrun, halloc⟩ :=
        allocateCluster_run h.onDevice.table hmax hleast hsize hfit
      rw [hrun]
      exact ⟨h.extend hsplit hleast.1 hc halloc, Or.inr ⟨c, h.not_mem_of_free hleast.1, rfl,
        halloc.zero, free_iff_allocated hleast.1 hc hused halloc⟩⟩
    · have hne : chain.getLast? ≠ some c := fun heq => hused c heq hleast.1
      obtain ⟨d', hrun, hrest⟩ :=
        allocateCluster_restored h.onDevice.table hmax hne hleast hsize hfit
      rw [hrun]
      refine ⟨h.restore (fun p hp => ?_) hrest, Or.inl ⟨rfl, free_iff_restored hused hrest⟩⟩
      rcases hsplit.chain_mem with rfl | hmem
      · cases hp
      · exact ⟨chain, hmem, hp⟩
  · rw [allocateCluster_of_none h.onDevice.table fun c hc => hany ⟨c, hc⟩]
    exact ⟨h, Or.inl ⟨rfl, fun _ => Iff.rfl⟩⟩

theorem Disciplined.free (h : Disciplined vol s) {j : Nat} (hj : j < s.chains.length) :
    Disciplined vol ((ChainOp.free j).step vol s) ∧
      (ChainOp.free j).Effect vol s ((ChainOp.free j).step vol s) := by
  have hmem : s.chains.getD j [] ∈ s.chains := by
    rw [List.getD_eq_getElem _ _ hj]
    exact List.getElem_mem hj
  have hsound := h.sound _ hmem
  cases hchain : s.chains.getD j [] with
  | nil => exact absurd hchain (h.nonempty _ hmem)
  | cons c rest =>
    rw [hchain] at hsound
    obtain ⟨d', hrun, hfreed⟩ := hsound.freeClusterChain_run h.onDevice.table
    have hstep : (ChainOp.free j).step vol s = ⟨d', s.chains.eraseIdx j⟩ := by
      rw [ChainOp.step, hchain, List.headD_cons, hrun]
    rw [hstep]
    refine ⟨h.erase hj (hchain ▸ hfreed), rfl, fun c' => ?_⟩
    rw [hchain]
    exact free_iff_freed hsound hfreed c'

end

/-- Along every run of allocations and frees, each of which names chains in use
and finds its cluster in the volume, the chains keep their discipline, and
every call has exactly its effect. -/
theorem chains_disciplined (vol : Fat32Volume) (s : ChainState) (ops : List ChainOp)
    (h : Disciplined vol s)
    (hnames : EachStep (ChainOp.step vol) ChainOp.Names ops s)
    (hcond : EachStep (ChainOp.step vol) (ChainOp.FreeInVolume vol) ops s) :
    AlongRun (ChainOp.step vol) (Disciplined vol) ops s ∧
      EachStep (ChainOp.step vol) (fun op s => op.Effect vol s (op.step vol s)) ops s := by
  induction ops generalizing s with
  | nil => exact ⟨h, trivial⟩
  | cons op ops ih =>
    obtain ⟨hname, hnames⟩ := hnames
    obtain ⟨hfree, hcond⟩ := hcond
    have hstep : Disciplined vol (op.step vol s) ∧ op.Effect vol s (op.step vol s) := by
      cases op with
      | allocate target => exact h.allocate hname hfree
      | free j => exact h.free hname
    obtain ⟨halong, heach⟩ := ih _ hstep.1 hnames hcond
    exact ⟨⟨h, halong⟩, hstep.2, heach⟩

section

def tableSector (words : List UInt32) : Image 512 :=
  Image.ofFn fun k => le32 (words.getD (k / 4) 0) (k % 4)

/-- A device whose sectors one and two are the two copies of a table. -/
def tableDevice (words : List UInt32) (total : Nat) : Disk where
  totalSectors := total
  data p := if p = 1 ∨ p = 2 then tableSector words else Image.zero

/-- A volume with two copies of a table of one sector, and clusters of one sector. -/
def smallBpb : Fat32Bpb where
  sectorsPerCluster := 1
  reservedSectors := 1
  numFats := 2
  sectorsPerFat32 := 1
  rootCluster := 2
  partitionStart := 0
  sectorsPerCluster_pos := by decide
  numFats_pos := by decide

variable (words : List UInt32)

theorem byte_tableDevice (total : Nat) {i j : Nat} (hi : i < 2)
    (hj : j < 512) :
    (tableDevice words total).byte (smallBpb.fatAddr i 0 + j) =
      le32 (words.getD (j / 4) 0) (j % 4) := by
  have hsector : (smallBpb.fatAddr i 0 + j) / 512 = 1 + i := by
    simp only [fatAddr, smallBpb, fatStartSector]
    omega
  have hoffset : (smallBpb.fatAddr i 0 + j) % 512 = j := by
    simp only [fatAddr, smallBpb, fatStartSector]
    omega
  rw [Disk.byte, hsector, hoffset, tableDevice]
  simp only
  rw [if_pos (by omega), tableSector, Image.get_ofFn, if_pos hj]

theorem fatEntry_tableDevice (total : Nat) {c : Nat} (hc : c < 128) :
    fatEntry smallBpb (tableDevice words total) c = entryValue (words.getD c 0) := by
  refine congrArg entryValue (u32At_eq fun k hk => ?_)
  rw [show smallBpb.fatAddr 0 c + k = smallBpb.fatAddr 0 0 + (4 * c + k) by
    simp only [fatAddr]; omega, byte_tableDevice words total (by omega) (by omega),
    show (4 * c + k) / 4 = c by omega, show (4 * c + k) % 4 = k by omega]

theorem copiesAgree_tableDevice (total : Nat) :
    smallBpb.CopiesAgree (tableDevice words total) := by
  intro i hi j hj
  rw [byte_tableDevice words total hi hj, byte_tableDevice words total (by omega) hj]

theorem length_le_step_allocate (vol : Fat32Volume) (target : Option Nat) (s : ChainState) :
    s.chains.length ≤ ((ChainOp.allocate target).step vol s).chains.length := by
  rw [ChainOp.step]
  split
  · cases target <;> simp [extendChains]
  · exact Nat.le_refl _

/-- A volume that has a cluster for every entry of its table, and one chain of
one cluster. -/
def wholeVolume : Fat32Volume where
  toFat32Bpb := smallBpb
  clusterEnd := 128
  clusterEnd_le_maxClusters := by decide
  clusterEnd_le_endMark := by decide

def oneChain : ChainState where
  disk := tableDevice [0x0FFFFFF8, 0x0FFFFFFF, 0x0FFFFFFF] 129
  chains := [[2]]

theorem oneChain_disciplined : Disciplined wholeVolume oneChain where
  onDevice := ⟨by decide, by decide⟩
  agree := copiesAgree_tableDevice _ _
  nonempty := by simp [oneChain]
  sound chain hchain := by
    obtain rfl : chain = [2] := List.mem_singleton.mp hchain
    have hentry : fatEntry smallBpb oneChain.disk 2 = 0x0FFFFFFF :=
      (fatEntry_tableDevice _ _ (by decide)).trans (by decide)
    refine ⟨by simp [wholeVolume], ?_, ?_, by simp⟩
    · exact nextOf_eq_none_iff.mpr (Or.inr (hentry ▸ by decide))
    · intro c hc
      obtain rfl : 2 = c := Option.some.inj hc
      exact hentry ▸ by decide
  apart := by simp [oneChain]

/-- A cluster is allocated behind the chain, which is then freed. -/
theorem oneChain_run : AlongRun (ChainOp.step wholeVolume) (Disciplined wholeVolume)
        [.allocate (some 0), .free 0] oneChain ∧
      EachStep (ChainOp.step wholeVolume)
        (fun op s => op.Effect wholeVolume s (op.step wholeVolume s))
        [.allocate (some 0), .free 0] oneChain := by
  refine chains_disciplined wholeVolume oneChain _ oneChain_disciplined ?_ ?_
  · exact ⟨Nat.one_pos, Nat.lt_of_lt_of_le Nat.one_pos
      (length_le_step_allocate wholeVolume (some 0) oneChain), trivial⟩
  · exact ⟨fun c hc => Or.inl hc.1.2.1, trivial, trivial⟩

/-- A volume of two clusters, both in use, on a device with more sectors behind
it. -/
def fullVolume : Fat32Volume where
  toFat32Bpb := smallBpb
  clusterEnd := 4
  clusterEnd_le_maxClusters := by decide
  clusterEnd_le_endMark := by decide

def fullChain : ChainState where
  disk := tableDevice [0x0FFFFFF8, 0x0FFFFFFF, 3, 0x0FFFFFFF] 16
  chains := [[2, 3]]

theorem fullChain_disciplined : Disciplined fullVolume fullChain where
  onDevice := ⟨by decide, by decide⟩
  agree := copiesAgree_tableDevice _ _
  nonempty := by simp [fullChain]
  sound chain hchain := by
    obtain rfl : chain = [2, 3] := List.mem_singleton.mp hchain
    have htwo : fatEntry smallBpb fullChain.disk 2 = 3 :=
      (fatEntry_tableDevice _ _ (by decide)).trans (by decide)
    have hthree : fatEntry smallBpb fullChain.disk 3 = 0x0FFFFFFF :=
      (fatEntry_tableDevice _ _ (by decide)).trans (by decide)
    refine ⟨by simp [fullVolume], ⟨?_, ?_⟩, ?_, by simp⟩
    · exact nextOf_eq_some_iff.mpr ⟨htwo, by decide, by decide⟩
    · exact nextOf_eq_none_iff.mpr (Or.inr (hthree ▸ by decide))
    · intro c hc
      obtain rfl : 3 = c := Option.some.inj hc
      exact hthree ▸ by decide
  apart := by simp [fullChain]

theorem fullChain_collected : collectClusterChain smallBpb fullChain.disk 2 = [2, 3] :=
  (fullChain_disciplined.sound _ List.mem_cons_self).collectClusterChain_eq
    fullChain_disciplined.onDevice.table

/-- The first entry behind those of the volume is free, and the driver takes
the sector behind the volume for a cluster of it. -/
theorem fullChain_not_disciplined : Disciplined fullVolume fullChain ∧
      ¬ Disciplined fullVolume ((ChainOp.allocate (some 0)).step fullVolume fullChain) := by
  have hentry : ∀ c < 128, fatEntry smallBpb fullChain.disk c =
      entryValue ([0x0FFFFFF8, 0x0FFFFFFF, 3, 0x0FFFFFFF].getD c 0) :=
    fun c hc => fatEntry_tableDevice _ _ hc
  have hleast : LeastFree smallBpb fullChain.disk 4 := by
    refine ⟨⟨by decide, by decide, (hentry 4 (by decide)).trans (by decide)⟩, ?_⟩
    have hused : ∀ c < 4, entryValue ([0x0FFFFFF8, 0x0FFFFFFF, 3, 0x0FFFFFFF].getD c 0) ≠
        0 := by
      decide
    intro c hc hfree
    have hzero := hfree.2.2
    rw [hentry c (by omega)] at hzero
    exact hused c hc hzero
  have hrun : ∃ d', allocateCluster smallBpb (some 3) fullChain.disk = (some 4, d') ∧
      ClusterTaken smallBpb fullChain.disk d' (some 3) 4 :=
    allocateCluster_run (by decide) (by decide) hleast (by decide) (by decide)
  obtain ⟨d', hrun, -⟩ := hrun
  refine ⟨fullChain_disciplined, fun h => ?_⟩
  have hstep : (ChainOp.allocate (some 0)).step fullVolume fullChain = ⟨d', [[2, 3, 4]]⟩ := by
    have hprev : ((some 0).map fun j => fullChain.chains.getD j []).bind List.getLast? =
        some 3 := rfl
    rw [ChainOp.step, hprev, show fullVolume.toFat32Bpb = smallBpb from rfl, hrun]
    rfl
  rw [hstep] at h
  have hfour := (h.sound _ List.mem_cons_self).inRange 4 (by simp)
  exact absurd hfour.2 (by decide)

end

end ZiqaKernel
