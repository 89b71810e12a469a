/-
Histories of grants and revocations, and the global revocations that remove
exactly the capabilities derived from the given one.
-/
import ZiqaKernel.Capability

namespace ZiqaKernel

open Function

inductive CapabilityOp where
  | grant (pid : Nat) (resource : ResourceKind) (permissions : Permissions)
      (target : Nat) (parentId : Option Nat)
  | revokeLocal (pid id : Nat)
  | revokeGlobal (id : Nat)
  | clone (src dst : Nat)
  | spawn (pid : Nat)
  | exit (pid : Nat)
  deriving DecidableEq, Repr

/-- The capability system with the parent that was given when each id was issued.
The source keeps that parent in the token alone, so it is lost with the last token. -/
structure GrantHistory where
  system : CapabilitySystem
  parentOf : Nat → Option Nat

namespace GrantHistory

def granted (h : GrantHistory) (pid : Nat) (resource : ResourceKind)
    (permissions : Permissions) (target : Nat) (parentId : Option Nat) : GrantHistory :=
  ⟨h.system.grant pid resource permissions target parentId,
    update h.parentOf h.system.nextId parentId⟩

def step (op : CapabilityOp) (h : GrantHistory) : GrantHistory :=
  match op with
  | .grant pid resource permissions target parentId =>
    if pid ∈ h.system.pids then
      h.granted pid resource permissions target parentId
    else h
  | .revokeLocal pid id => { h with system := h.system.revokeLocal pid id }
  | .revokeGlobal id =>
    { h with system := (h.system.revokeGlobal (h.system.nextId + 1) id).getD h.system }
  | .clone src dst =>
    if src ∈ h.system.pids then { h with system := h.system.clone src dst } else h
  | .spawn pid => { h with system := h.system.spawn pid }
  | .exit pid => { h with system := h.system.exit pid }

def start (pids : List Nat) : GrantHistory where
  system :=
    { pids := pids, capabilities := fun _ => [], nextId := 1, children := fun _ => [] }
  parentOf _ := none

/-- `c` was granted with `p` as its parent. -/
def ParentOf (h : GrantHistory) (p c : Nat) : Prop := h.parentOf c = some p

/-- `x` is `a` or derived from it through a chain of grants. -/
def Derived (h : GrantHistory) : Nat → Nat → Prop := Relation.ReflTransGen h.ParentOf

/-- `x` is `a` or below it in the revocation tree. -/
def Below (h : GrantHistory) : Nat → Nat → Prop :=
  Relation.ReflTransGen (ChildIn h.system.children)

/-- Every capability from which `x` derives still leads to it in the tree. -/
def Linked (h : GrantHistory) (x : Nat) : Prop := ∀ a, h.Derived a x → h.Below a x

/-- A revocation of `id` returns, removes `id` and all that derives from it from every
live process, and leaves all other capabilities. -/
def RevokesExactly (h : GrantHistory) (id : Nat) : Prop :=
  ∃ t : CapabilitySystem,
    (∀ depth, h.system.nextId < depth → h.system.revokeGlobal depth id = some t) ∧
      t.pids = h.system.pids ∧
      ∀ pid ∈ h.system.pids, ∀ cap,
        cap ∈ t.capabilities pid ↔ cap ∈ h.system.capabilities pid ∧ ¬ h.Derived id cap.id

def ParentIssued : CapabilityOp → GrantHistory → Prop
  | .grant _ _ _ _ (some p), h => 0 < p ∧ p < h.system.nextId
  | _, _ => True

/-- A grant to a live process names no parent that the tree has lost from an ancestor. -/
def ParentLinked : CapabilityOp → GrantHistory → Prop
  | .grant pid _ _ _ (some p), h => pid ∈ h.system.pids → h.Linked p
  | _, _ => True

/-- What every history keeps: the tree holds only links of the history, ids grow along
them, and the ids of a space are distinct and have been issued. -/
structure Consistent (h : GrantHistory) : Prop where
  parent_of_child : ∀ p c, ChildIn h.system.children p c → h.ParentOf p c
  parent_lt : ∀ p c, h.ParentOf p c → p < c ∧ c < h.system.nextId
  held_lt : ∀ pid, ∀ cap ∈ h.system.capabilities pid, cap.id < h.system.nextId
  distinct : ∀ pid, (h.system.capabilities pid).Distinct

theorem consistent_start (pids : List Nat) : (start pids).Consistent where
  parent_of_child _ _ h := by cases h
  parent_lt _ _ h := by cases h
  held_lt _ _ h := by cases h
  distinct _ := List.nodup_nil

variable {h : GrantHistory}

theorem Consistent.derived_of_below (hc : h.Consistent) {a x : Nat} (hb : h.Below a x) :
    h.Derived a x :=
  Relation.ReflTransGen.mono hc.parent_of_child _ _ hb

theorem Consistent.child_lt (hc : h.Consistent) (p c : Nat)
    (hp : ChildIn h.system.children p c) : p < c ∧ c < h.system.nextId :=
  hc.parent_lt p c (hc.parent_of_child p c hp)

end GrantHistory

namespace CapabilitySystem

variable {s : CapabilitySystem}

theorem mem_pids_of_ne {pids : List Nat} {q pid : Nat} (hne : q ≠ pid)
    (h : q ∈ if pid ∈ pids then pids else pids ++ [pid]) : q ∈ pids := by
  split_ifs at h
  · exact h
  · rcases List.mem_append.mp h with hold | hnew
    · exact hold
    · exact absurd (List.mem_singleton.mp hnew) hne

theorem capabilities_removeAll (s : CapabilitySystem) (targets : List Nat)
    (hd : ∀ pid, (s.capabilities pid).Distinct) (pid : Nat) :
    (s.removeAll targets).capabilities pid =
      if pid ∈ s.pids then (s.capabilities pid).filter fun cap => decide (cap.id ∉ targets)
      else s.capabilities pid := by
  -- A process met twice is filtered twice, which changes nothing.
  have hloop : ∀ (pids : List Nat) (caps : Nat → CapabilitySpace), (∀ q, (caps q).Distinct) →
      pids.foldl (fun caps q => update caps q
        (targets.foldl CapabilitySpace.revokeLocal (caps q))) caps pid =
      if pid ∈ pids then (caps pid).filter fun cap => decide (cap.id ∉ targets)
      else caps pid := by
    intro pids
    induction pids with
    | nil => exact fun _ _ => rfl
    | cons q pids ih =>
      intro caps hdist
      have hnext : ∀ r, (update caps q
          (targets.foldl CapabilitySpace.revokeLocal (caps q)) r).Distinct := by
        intro r
        by_cases hr : r = q
        · subst hr
          rw [update_self, CapabilitySpace.foldl_revokeLocal (hdist r)]
          exact (hdist r).filter _
        · rw [update_of_ne hr]
          exact hdist r
      rw [List.foldl_cons, ih _ hnext]
      by_cases hq : pid = q
      · subst hq
        rw [Function.update_self, CapabilitySpace.foldl_revokeLocal (hdist pid),
          List.filter_filter, if_pos List.mem_cons_self]
        simp
      · rw [Function.update_of_ne hq]
        simp [hq]
  exact hloop s.pids s.capabilities hd

theorem children_removeAll (s : CapabilitySystem) (targets : List Nat) (p : Nat) :
    (s.removeAll targets).children p = if p ∈ targets then [] else s.children p := by
  have hloop : ∀ (ids : List Nat) (children : Nat → List Nat),
      ids.foldl (fun children id => update children id []) children p =
        if p ∈ ids then [] else children p := by
    intro ids
    induction ids with
    | nil => exact fun _ => rfl
    | cons id ids ih =>
      intro children
      rw [List.foldl_cons, ih]
      by_cases hp : p = id
      · subst hp
        simp
      · simp [hp]
  exact hloop targets s.children

end CapabilitySystem

namespace GrantHistory

variable {h : GrantHistory}

theorem Consistent.revokeGlobal (hc : h.Consistent) (id : Nat) :
    ∃ targets : List Nat, (∀ x, x ∈ targets ↔ h.Below id x) ∧ ∀ depth, h.system.nextId < depth →
        h.system.revokeGlobal depth id = some (h.system.removeAll targets) := by
  obtain ⟨result, hresult⟩ :
      ∃ result, getAllDescendants h.system.children (h.system.nextId + 1) id [] = some result :=
    exists_getAllDescendants hc.child_lt (by omega) (by omega) []
  refine ⟨result ++ [id], fun x => ?_, fun depth hdepth => ?_⟩
  · rw [List.mem_append, List.mem_singleton, mem_getAllDescendants hresult, Below,
      Relation.reflTransGen_iff_eq_or_transGen]
    simp [or_comm]
  · rw [CapabilitySystem.revokeGlobal, getAllDescendants_of_le hresult (Nat.succ_le_of_lt hdepth)]
    rfl

/-- The tree still leads to each capability that a live process holds, from all it
derives from. -/
def AllLinked (h : GrantHistory) : Prop :=
  ∀ pid ∈ h.system.pids, ∀ cap ∈ h.system.capabilities pid, h.Linked cap.id

theorem Consistent.mem_removeAll_iff (hc : h.Consistent) {targets : List Nat} {pid : Nat}
    (hpid : pid ∈ h.system.pids) {cap : CapabilityToken} :
    cap ∈ (h.system.removeAll targets).capabilities pid ↔
      cap ∈ h.system.capabilities pid ∧ cap.id ∉ targets := by
  rw [CapabilitySystem.capabilities_removeAll _ _ hc.distinct, if_pos hpid,
    List.mem_filter, decide_eq_true_iff]

theorem Consistent.revokesExactly_iff (hc : h.Consistent) :
    (∀ id, h.RevokesExactly id) ↔ h.AllLinked := by
  constructor
  · intro hall pid hpid cap hcap a ha
    obtain ⟨t, ht, -, hexact⟩ := hall a
    obtain ⟨targets, htargets, hrevoke⟩ := hc.revokeGlobal a
    obtain rfl := Option.some.inj
      ((ht _ (Nat.lt_succ_self _)).symm.trans (hrevoke _ (Nat.lt_succ_self _)))
    by_contra hbelow
    have hstays := (hc.mem_removeAll_iff hpid).mpr ⟨hcap, mt (htargets _).mp hbelow⟩
    exact ((hexact pid hpid cap).mp hstays).2 ha
  · intro hlinked id
    obtain ⟨targets, htargets, hrevoke⟩ := hc.revokeGlobal id
    refine ⟨_, hrevoke, rfl, fun pid hpid cap => ?_⟩
    rw [hc.mem_removeAll_iff hpid]
    refine and_congr_right fun hcap => ?_
    rw [htargets]
    exact not_congr ⟨hc.derived_of_below, hlinked pid hpid cap hcap id⟩

/-- Operations that issue no id keep consistency when they only drop links and give a
process a part of some space. -/
theorem Consistent.of_sublist (hc : h.Consistent) {t : CapabilitySystem}
    (hnext : t.nextId = h.system.nextId)
    (hchildren : ∀ p c, ChildIn t.children p c → ChildIn h.system.children p c)
    (hcaps : ∀ pid, ∃ q, (t.capabilities pid).Sublist (h.system.capabilities q)) :
    Consistent { h with system := t } where
  parent_of_child p c hp := hc.parent_of_child p c (hchildren p c hp)
  parent_lt p c hp := by
    have hlt := hc.parent_lt p c hp
    exact ⟨hlt.1, hnext ▸ hlt.2⟩
  held_lt pid cap hcap := by
    obtain ⟨q, hsub⟩ := hcaps pid
    exact hnext ▸ hc.held_lt q cap (hsub.subset hcap)
  distinct pid := by
    obtain ⟨q, hsub⟩ := hcaps pid
    exact List.Nodup.sublist (hsub.map _) (hc.distinct q)

section

variable {pid : Nat} {resource : ResourceKind} {permissions : Permissions} {target : Nat}
  {parentId : Option Nat}

theorem childIn_grant_iff {p c : Nat} :
    ChildIn (h.granted pid resource permissions target parentId).system.children p c ↔
      ChildIn h.system.children p c ∨ parentId = some p ∧ c = h.system.nextId := by
  cases parentId with
  | none => simp [granted, CapabilitySystem.grant]
  | some q =>
    by_cases hp : p = q
    · subst hp
      simp [granted, CapabilitySystem.grant, ChildIn]
    · simp [granted, CapabilitySystem.grant, ChildIn, hp, Ne.symm hp]

theorem parentOf_grant_iff {p c : Nat} :
    (h.granted pid resource permissions target parentId).ParentOf p c ↔
      c ≠ h.system.nextId ∧ h.ParentOf p c ∨ c = h.system.nextId ∧ parentId = some p := by
  by_cases hcn : c = h.system.nextId
  · subst hcn
    simp [granted, ParentOf]
  · simp [granted, ParentOf, hcn]

theorem mem_capabilities_grant {q : Nat} {cap : CapabilityToken} :
    cap ∈ (h.granted pid resource permissions target parentId).system.capabilities q ↔
      cap ∈ h.system.capabilities q ∨
        q = pid ∧ cap = ⟨h.system.nextId, parentId, resource, permissions, target⟩ := by
  by_cases hq : q = pid
  · subst hq
    simp [granted, CapabilitySystem.grant]
  · simp [granted, CapabilitySystem.grant, hq]

section

variable (hc : h.Consistent)
include hc

theorem Consistent.grant (hissued : ∀ p ∈ parentId, p < h.system.nextId) :
    (h.granted pid resource permissions target parentId).Consistent where
  parent_of_child p c hp := by
    rw [parentOf_grant_iff]
    rcases childIn_grant_iff.mp hp with hold | ⟨hparent, hc'⟩
    · exact .inl ⟨Nat.ne_of_lt (hc.child_lt p c hold).2, hc.parent_of_child p c hold⟩
    · exact .inr ⟨hc', hparent⟩
  parent_lt p c hp := by
    show p < c ∧ c < h.system.nextId + 1
    rcases parentOf_grant_iff.mp hp with ⟨-, hold⟩ | ⟨rfl, hparent⟩
    · have hlt := hc.parent_lt p c hold
      omega
    · exact ⟨hissued p hparent, Nat.lt_succ_self _⟩
  held_lt q cap hcap := by
    show cap.id < h.system.nextId + 1
    rcases mem_capabilities_grant.mp hcap with hold | ⟨-, rfl⟩
    · exact Nat.lt_succ_of_lt (hc.held_lt q cap hold)
    · exact Nat.lt_succ_self _
  distinct q := by
    by_cases hq : q = pid
    · subst hq
      have hfresh : h.system.nextId ∉ (h.system.capabilities q).map CapabilityToken.id := by
        intro hmem
        obtain ⟨cap, hcap, hid⟩ := List.mem_map.mp hmem
        exact Nat.ne_of_lt (hc.held_lt q cap hcap) hid
      simp only [granted, CapabilitySystem.grant, update_self,
        CapabilitySpace.Distinct, List.map_append, List.map_cons, List.map_nil]
      exact List.nodup_append.mpr ⟨hc.distinct q, List.nodup_singleton _, by
        rintro a ha b hb rfl
        exact hfresh (List.mem_singleton.mp hb ▸ ha)⟩
    · simp only [granted, CapabilitySystem.grant, update_of_ne hq]
      exact hc.distinct q

theorem Consistent.derived_grant_iff {a x : Nat} (hx : x < h.system.nextId) :
    (h.granted pid resource permissions target parentId).Derived a x ↔ h.Derived a x := by
  constructor
  · intro hd
    induction hd with
    | refl => exact .refl
    | tail _ hlast ih =>
      rcases parentOf_grant_iff.mp hlast with ⟨-, hold⟩ | ⟨rfl, -⟩
      · exact (ih (Nat.lt_trans (hc.parent_lt _ _ hold).1 hx)).tail hold
      · exact absurd hx (Nat.lt_irrefl _)
  · intro hd
    refine Relation.ReflTransGen.mono (fun p c hp => ?_) _ _ hd
    exact parentOf_grant_iff.mpr (.inl ⟨Nat.ne_of_lt (hc.parent_lt p c hp).2, hp⟩)

theorem Consistent.below_grant_iff {a x : Nat} (hx : x < h.system.nextId) :
    (h.granted pid resource permissions target parentId).Below a x ↔ h.Below a x := by
  constructor
  · intro hb
    induction hb with
    | refl => exact .refl
    | tail _ hlast ih =>
      rcases childIn_grant_iff.mp hlast with hold | ⟨-, rfl⟩
      · exact (ih (Nat.lt_trans (hc.child_lt _ _ hold).1 hx)).tail hold
      · exact absurd hx (Nat.lt_irrefl _)
  · intro hb
    refine Relation.ReflTransGen.mono (fun p c hp => ?_) _ _ hb
    exact childIn_grant_iff.mpr (.inl hp)

theorem Consistent.linked_grant_iff {x : Nat} (hx : x < h.system.nextId) :
    (h.granted pid resource permissions target parentId).Linked x ↔ h.Linked x :=
  forall_congr' fun _ => imp_congr (hc.derived_grant_iff hx) (hc.below_grant_iff hx)

theorem Consistent.derived_le {a x : Nat} (hd : h.Derived a x) : a ≤ x := by
  induction hd with
  | refl => exact Nat.le_refl _
  | tail _ hlast ih => exact Nat.le_trans ih (Nat.le_of_lt (hc.parent_lt _ _ hlast).1)

theorem Consistent.linked_new_iff
    (hissued : ∀ p ∈ parentId, p < h.system.nextId) :
    (h.granted pid resource permissions target parentId).Linked h.system.nextId ↔
      ∀ p ∈ parentId, h.Linked p := by
  constructor
  · intro hnew p hp a ha
    have hlt := hissued p hp
    have hderived : (h.granted pid resource permissions target parentId).Derived a
        h.system.nextId :=
      ((hc.derived_grant_iff hlt).mpr ha).tail (parentOf_grant_iff.mpr (.inr ⟨rfl, hp⟩))
    rcases Relation.ReflTransGen.cases_tail (hnew a hderived) with heq | ⟨b, hb, hlast⟩
    · have hle := hc.derived_le ha
      omega
    · rcases childIn_grant_iff.mp hlast with hold | ⟨hparent, -⟩
      · exact absurd (hc.child_lt _ _ hold).2 (Nat.lt_irrefl _)
      · obtain rfl : p = b := Option.some.inj (hp.symm.trans hparent)
        exact (hc.below_grant_iff hlt).mp hb
  · intro hlinked a ha
    rcases Relation.ReflTransGen.cases_tail ha with heq | ⟨p, hp, hlast⟩
    · exact heq ▸ Relation.ReflTransGen.refl
    · rcases parentOf_grant_iff.mp hlast with ⟨hne, -⟩ | ⟨-, hparent⟩
      · exact absurd rfl hne
      · have hlt := hissued p hparent
        have hbelow := hlinked p hparent a ((hc.derived_grant_iff hlt).mp hp)
        exact ((hc.below_grant_iff hlt).mpr hbelow).tail
          (childIn_grant_iff.mpr (.inr ⟨hparent, rfl⟩))

theorem Consistent.allLinked_grant_iff (hall : h.AllLinked)
    (hpid : pid ∈ h.system.pids) (hissued : ∀ p ∈ parentId, p < h.system.nextId) :
    (h.granted pid resource permissions target parentId).AllLinked ↔
      ∀ p ∈ parentId, h.Linked p := by
  rw [← hc.linked_new_iff hissued]
  constructor
  · exact fun hnew => hnew pid hpid _ (mem_capabilities_grant.mpr (.inr ⟨rfl, rfl⟩))
  · intro hnew q hq cap hcap
    rcases mem_capabilities_grant.mp hcap with hold | ⟨-, rfl⟩
    · exact (hc.linked_grant_iff (hc.held_lt q cap hold)).mpr (hall q hq cap hold)
    · exact hnew

end

end

/-- A capability that a revocation leaves keeps its links: a link that goes is below the
revoked id, and so is all that it leads to. -/
theorem below_removeAll {id : Nat} {targets : List Nat}
    (htargets : ∀ x, x ∈ targets ↔ h.Below id x) {a x : Nat} (hx : x ∉ targets)
    (hbelow : h.Below a x) :
    Below { h with system := h.system.removeAll targets } a x := by
  induction hbelow using Relation.ReflTransGen.head_induction_on with
  | refl => exact .refl
  | @head b c hfirst hrest ih =>
    have hb : b ∉ targets := fun hmem =>
      hx ((htargets x).mpr (((htargets b).mp hmem).trans (.head hfirst hrest)))
    refine .head ?_ ih
    show c ∈ (h.system.removeAll targets).children b
    rw [CapabilitySystem.children_removeAll, if_neg hb]
    exact hfirst

theorem Consistent.removeAll (hc : h.Consistent) (targets : List Nat) :
    Consistent { h with system := h.system.removeAll targets } := by
  refine hc.of_sublist rfl (fun p c hp => ?_) (fun pid => ⟨pid, ?_⟩)
  · have hmem : c ∈ (h.system.removeAll targets).children p := hp
    rw [CapabilitySystem.children_removeAll] at hmem
    split_ifs at hmem with htarget
    · cases hmem
    · exact hmem
  · exact h.system.sublist_removeAll targets pid

theorem Consistent.allLinked_removeAll (hc : h.Consistent) (hall : h.AllLinked) {id : Nat}
    {targets : List Nat} (htargets : ∀ x, x ∈ targets ↔ h.Below id x) :
    AllLinked { h with system := h.system.removeAll targets } := by
  intro pid hpid cap hcap a ha
  obtain ⟨hheld, hkept⟩ := (hc.mem_removeAll_iff hpid).mp hcap
  exact below_removeAll htargets hkept (hall pid hpid cap hheld a ha)

theorem Consistent.step_revokeGlobal (hc : h.Consistent) (id : Nat) :
    ∃ targets : List Nat, (∀ x, x ∈ targets ↔ h.Below id x) ∧
      step (.revokeGlobal id) h = { h with system := h.system.removeAll targets } := by
  obtain ⟨targets, htargets, hrevoke⟩ := hc.revokeGlobal id
  refine ⟨targets, htargets, ?_⟩
  rw [step, hrevoke _ (Nat.lt_succ_self _)]
  rfl

theorem Consistent.step (hc : h.Consistent) {op : CapabilityOp} (hop : ParentIssued op h) :
    (GrantHistory.step op h).Consistent := by
  cases op with
  | grant pid resource permissions target parentId =>
    rw [GrantHistory.step]
    split
    · refine hc.grant fun p hp => ?_
      cases hp
      exact hop.2
    · exact hc
  | revokeLocal pid id =>
    refine hc.of_sublist rfl (fun _ _ hp => hp) fun q => ⟨q, ?_⟩
    by_cases hq : q = pid
    · subst hq
      simp only [CapabilitySystem.revokeLocal, update_self]
      exact List.eraseP_sublist
    · simp only [CapabilitySystem.revokeLocal, update_of_ne hq]
      exact List.Sublist.refl _
  | revokeGlobal id =>
    obtain ⟨targets, -, hstep⟩ := hc.step_revokeGlobal id
    exact hstep ▸ hc.removeAll targets
  | clone src dst =>
    rw [GrantHistory.step]
    split
    · refine hc.of_sublist rfl (fun _ _ hp => hp) fun q => ?_
      by_cases hq : q = dst
      · subst hq
        refine ⟨src, ?_⟩
        simp only [CapabilitySystem.clone, update_self]
        exact List.Sublist.refl _
      · refine ⟨q, ?_⟩
        simp only [CapabilitySystem.clone, update_of_ne hq]
        exact List.Sublist.refl _
    · exact hc
  | spawn pid =>
    refine hc.of_sublist rfl (fun _ _ hp => hp) fun q => ⟨q, ?_⟩
    by_cases hq : q = pid
    · subst hq
      simp only [CapabilitySystem.spawn, update_self]
      exact List.nil_sublist _
    · simp only [CapabilitySystem.spawn, update_of_ne hq]
      exact List.Sublist.refl _
  | exit pid =>
    exact hc.of_sublist rfl (fun _ _ hp => hp) fun q => ⟨q, List.Sublist.refl _⟩

/-- Operations that leave the tree alone keep all links when each live process holds
only what some live process held before. -/
theorem AllLinked.of_held (hall : h.AllLinked) {t : CapabilitySystem}
    (hchildren : t.children = h.system.children)
    (hheld : ∀ pid ∈ t.pids, ∀ cap ∈ t.capabilities pid,
      ∃ q ∈ h.system.pids, cap ∈ h.system.capabilities q) :
    AllLinked { h with system := t } := by
  intro pid hpid cap hcap a ha
  obtain ⟨q, hq, hcapq⟩ := hheld pid hpid cap hcap
  have hbelow := hall q hq cap hcapq a ha
  simpa only [Below, hchildren] using hbelow

/-- One operation keeps all links exactly when it grants under no parent that the tree
has lost. -/
theorem Consistent.allLinked_step_iff (hc : h.Consistent) {op : CapabilityOp}
    (hop : ParentIssued op h) (hall : h.AllLinked) :
    (GrantHistory.step op h).AllLinked ↔ ParentLinked op h := by
  cases op with
  | grant pid resource permissions target parentId =>
    rw [GrantHistory.step]
    split
    case isTrue hpid =>
      have hissued : ∀ p ∈ parentId, p < h.system.nextId := by
        intro p hp
        cases hp
        exact hop.2
      rw [hc.allLinked_grant_iff hall hpid hissued]
      cases parentId with
      | none => simp [ParentLinked]
      | some p => simp [ParentLinked, hpid]
    case isFalse hpid =>
      refine iff_of_true hall ?_
      cases parentId with
      | none => trivial
      | some p => exact fun hmem => absurd hmem hpid
  | revokeLocal pid id =>
    refine iff_of_true (hall.of_held rfl fun q hq cap hcap => ⟨q, hq, ?_⟩) trivial
    by_cases heq : q = pid
    · subst heq
      simp only [CapabilitySystem.revokeLocal, update_self] at hcap
      exact List.eraseP_subset hcap
    · simpa only [CapabilitySystem.revokeLocal, update_of_ne heq] using hcap
  | revokeGlobal id =>
    obtain ⟨targets, htargets, hstep⟩ := hc.step_revokeGlobal id
    exact iff_of_true (hstep ▸ hc.allLinked_removeAll hall htargets) trivial
  | clone src dst =>
    rw [GrantHistory.step]
    refine iff_of_true ?_ trivial
    split
    case isTrue hsrc =>
      refine hall.of_held rfl fun q hq cap hcap => ?_
      by_cases heq : q = dst
      · subst heq
        simp only [CapabilitySystem.clone, update_self] at hcap
        exact ⟨src, hsrc, hcap⟩
      · simp only [CapabilitySystem.clone, update_of_ne heq] at hcap
        exact ⟨q, CapabilitySystem.mem_pids_of_ne heq hq, hcap⟩
    case isFalse => exact hall
  | spawn pid =>
    refine iff_of_true (hall.of_held rfl fun q hq cap hcap => ?_) trivial
    by_cases heq : q = pid
    · subst heq
      simp only [CapabilitySystem.spawn, update_self] at hcap
      cases hcap
    · simp only [CapabilitySystem.spawn, update_of_ne heq] at hcap
      exact ⟨q, CapabilitySystem.mem_pids_of_ne heq hq, hcap⟩
  | exit pid =>
    refine iff_of_true (hall.of_held rfl fun q hq cap hcap => ⟨q, ?_, hcap⟩) trivial
    exact (List.mem_filter.mp hq).1

/-- A history from the start keeps every global revocation complete and exact in all of
its states precisely when each grant names a parent, if any, to which the tree still
leads from all that the parent derives from. -/
theorem revokesExactly_along_iff (pids : List Nat) (ops : List CapabilityOp)
    (hissued : EachStep step ParentIssued ops (start pids)) :
    AlongRun step (fun h => ∀ id, h.RevokesExactly id) ops (start pids) ↔
      EachStep step ParentLinked ops (start pids) := by
  refine alongRun_iff (B := Consistent) (fun op h hc hop => hc.step hop)
    (fun op h hc hop hexact => ?_) (consistent_start pids) ?_ hissued
  · rw [(hc.step hop).revokesExactly_iff]
    exact hc.allLinked_step_iff hop (hc.revokesExactly_iff.mp hexact)
  · refine (consistent_start pids).revokesExactly_iff.mpr fun pid _ cap hcap => ?_
    cases hcap

/-- Two processes share a capability and one derived from it when it is revoked. -/
theorem shared_revokesExactly : AlongRun step (fun h => ∀ id, h.RevokesExactly id)
      [.grant 0 .file .readWrite 3 none, .grant 0 .file .readOnly 3 (some 1), .clone 0 1,
        .revokeGlobal 1] (start [0]) := by
  refine (revokesExactly_along_iff _ _ ?_).mpr ?_
  · exact ⟨trivial, ⟨by decide, by decide⟩, trivial, trivial, trivial⟩
  · refine ⟨trivial, fun _ a ha => ?_, trivial, trivial, trivial⟩
    rcases Relation.ReflTransGen.cases_tail ha with heq | ⟨b, -, hb⟩
    · exact heq ▸ Relation.ReflTransGen.refl
    · cases hb

/-- Two capabilities are revoked, and then one is granted under the derived one. -/
def parentRevoked : List CapabilityOp :=
  [.grant 0 .file .readWrite 3 none, .grant 0 .file .readOnly 3 (some 1), .revokeGlobal 1,
    .grant 0 .file .readOnly 3 (some 2)]

/-- The last capability derives from the first, and a second revocation of the first
leaves it: the tree no longer links the two. -/
theorem parentRevoked_not_exact : EachStep step ParentIssued parentRevoked (start [0]) ∧
      ¬ AlongRun step (fun h => ∀ id, h.RevokesExactly id) parentRevoked (start [0]) := by
  refine ⟨⟨trivial, ⟨by decide, by decide⟩, trivial, ⟨by decide, by decide⟩, trivial⟩,
    fun halong => ?_⟩
  have hlast := halong.last
  have hfirst : ParentOf (parentRevoked.foldl (fun h op => step op h) (start [0])) 1 2 := rfl
  have hsecond : ParentOf (parentRevoked.foldl (fun h op => step op h) (start [0])) 2 3 :=
    rfl
  obtain ⟨t, hrevoke, -, hexact⟩ := hlast 1
  obtain rfl := Option.some.inj (hrevoke 5 (by decide))
  have hheld := (hexact 0 (by decide) ⟨3, some 2, .file, .readOnly, 3⟩).mp (by decide)
  exact hheld.2 (.tail (.single hfirst) hsecond)

end GrantHistory

end ZiqaKernel
