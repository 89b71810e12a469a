/-
Capability spaces, the revocation tree they share, and global revocation
(`capability/mod.rs`).  The walk over the tree is recursive, so it is given a
number of nested calls; whether it returns is part of the results.
-/
import ZiqaKernel.StepRuns

namespace ZiqaKernel

open Function

inductive ResourceKind where
  | memory
  | file
  | network
  | deviceIo
  | processCreate
  | abiPlugin
  | processDebug
  | ipcChannel
  | ziqaFsMount
  deriving DecidableEq, Repr

structure Permissions where
  read : Bool
  write : Bool
  execute : Bool
  delegate : Bool
  deriving DecidableEq, Repr

def Permissions.readOnly : Permissions := ⟨true, false, false, false⟩

def Permissions.readWrite : Permissions := ⟨true, true, false, false⟩

structure CapabilityToken where
  id : Nat
  parentId : Option Nat
  resource : ResourceKind
  permissions : Permissions
  target : Nat
  deriving DecidableEq, Repr

def CapabilityToken.allows (cap : CapabilityToken) (resource : ResourceKind)
    (needsWrite needsExec : Bool) : Bool :=
  if cap.resource ≠ resource then false
  else if needsWrite && !cap.permissions.write then false
  else if needsExec && !cap.permissions.execute then false
  else true

/-- The capabilities that one process holds, in the order of their grants. -/
abbrev CapabilitySpace := List CapabilityToken

namespace CapabilitySpace

def hasPermission (caps : CapabilitySpace) (resource : ResourceKind)
    (needsWrite needsExec : Bool) : Bool :=
  caps.any fun cap => cap.allows resource needsWrite needsExec

def lookup (caps : CapabilitySpace) (id : Nat) : Option CapabilityToken :=
  caps.find? fun cap => cap.id == id

/-- Remove the first capability with the given id, if there is one. -/
def revokeLocal (caps : CapabilitySpace) (id : Nat) : CapabilitySpace :=
  caps.eraseP fun cap => cap.id == id

def Distinct (caps : CapabilitySpace) : Prop := (caps.map CapabilityToken.id).Nodup

variable {caps : CapabilitySpace}

theorem revokeLocal_eq_filter (h : caps.Distinct) (id : Nat) :
    caps.revokeLocal id = caps.filter fun cap => cap.id != id := by
  induction caps with
  | nil => rfl
  | cons cap caps ih =>
    obtain ⟨hhead, htail⟩ := List.nodup_cons.mp h
    by_cases heq : cap.id = id
    · have hrest : ∀ c ∈ caps, (c.id != id) = true := by
        intro c hc
        have hne : c.id ≠ id := fun e =>
          hhead (List.mem_map.mpr ⟨c, hc, e.trans heq.symm⟩)
        simpa using hne
      rw [revokeLocal, List.eraseP_cons_of_pos (by simpa using heq),
        List.filter_cons_of_neg (by simpa using heq), List.filter_eq_self.mpr hrest]
    · rw [revokeLocal, List.eraseP_cons_of_neg (by simpa using heq),
        List.filter_cons_of_pos (by simpa using heq)]
      exact congrArg _ (ih htail)

theorem Distinct.filter (h : caps.Distinct)
    (p : CapabilityToken → Bool) : Distinct (caps.filter p) :=
  List.Nodup.sublist (List.filter_sublist.map _) h

theorem foldl_revokeLocal (h : caps.Distinct) (ids : List Nat) :
    ids.foldl revokeLocal caps = caps.filter fun cap => decide (cap.id ∉ ids) := by
  induction ids generalizing caps with
  | nil => simp
  | cons id ids ih =>
    rw [List.foldl_cons, revokeLocal_eq_filter h, ih (h.filter _), List.filter_filter]
    refine List.filter_congr fun cap _ => ?_
    rw [Bool.eq_iff_iff]
    simp [and_comm]

end CapabilitySpace

/-- `RevocationTree::get_all_descendants`, which appends to `out`; `none` when the
given depth of nested calls does not suffice. -/
def getAllDescendants (children : Nat → List Nat) : Nat → Nat → List Nat → Option (List Nat)
  | 0, _, _ => none
  | depth + 1, id, out =>
    (children id).foldlM (fun out kid => getAllDescendants children depth kid (out ++ [kid])) out

section

variable {children : Nat → List Nat}

/-- `c` is listed in the tree as a child of `p`. -/
def ChildIn (children : Nat → List Nat) (p c : Nat) : Prop := c ∈ children p

theorem mem_getAllDescendants {depth id : Nat} {out result : List Nat}
    (h : getAllDescendants children depth id out = some result) (x : Nat) :
    x ∈ result ↔ x ∈ out ∨ Relation.TransGen (ChildIn children) id x := by
  induction depth generalizing id out result with
  | zero => cases h
  | succ depth ih =>
    -- The inner loop adds each kid of the list with the ids below it.
    have hloop : ∀ (kids : List Nat) (out result : List Nat),
        kids.foldlM (fun out kid => getAllDescendants children depth kid (out ++ [kid]))
          out = some result →
        (x ∈ result ↔ x ∈ out ∨ ∃ kid ∈ kids, Relation.ReflTransGen (ChildIn children) kid x) := by
      intro kids
      induction kids with
      | nil =>
        intro out result hfold
        obtain rfl : out = result := by simpa using hfold
        simp
      | cons kid kids ihk =>
        intro out result hfold
        obtain ⟨mid, hmid, hrest⟩ := Option.bind_eq_some_iff.mp
          ((List.foldlM_cons ..).symm.trans hfold)
        rw [ihk mid result hrest, ih hmid, List.mem_append, List.mem_singleton,
          List.exists_mem_cons_iff, Relation.reflTransGen_iff_eq_or_transGen]
        tauto
    rw [hloop _ _ _ h, Relation.TransGen.head'_iff]
    rfl

/-- Where children have larger ids than their parent, and all are below a bound, the
walk returns as soon as the depth reaches the bound. -/
theorem exists_getAllDescendants {bound : Nat}
    (hgrow : ∀ p c, ChildIn children p c → p < c ∧ c < bound) {depth id : Nat}
    (hdepth : 0 < depth) (hbound : bound ≤ depth + id) (out : List Nat) :
    ∃ result, getAllDescendants children depth id out = some result := by
  induction depth generalizing id out with
  | zero => omega
  | succ depth ih =>
    have hloop : ∀ (kids : List Nat), (∀ c ∈ kids, id < c ∧ c < bound) → ∀ out,
        ∃ result, kids.foldlM
          (fun out kid => getAllDescendants children depth kid (out ++ [kid])) out =
            some result := by
      intro kids
      induction kids with
      | nil => exact fun _ out => ⟨out, rfl⟩
      | cons kid kids ihk =>
        intro hkids out
        obtain ⟨hlt, hkid⟩ := hkids kid List.mem_cons_self
        obtain ⟨mid, hmid⟩ := @ih kid (by omega) (by omega) (out ++ [kid])
        obtain ⟨result, hresult⟩ :=
          ihk (fun c hc => hkids c (List.mem_cons_of_mem _ hc)) mid
        refine ⟨result, ?_⟩
        rw [List.foldlM_cons, hmid]
        exact hresult
    exact hloop (children id) (fun c hc => hgrow id c hc) out

theorem getAllDescendants_succ {depth id : Nat} {out result : List Nat}
    (h : getAllDescendants children depth id out = some result) :
    getAllDescendants children (depth + 1) id out = some result := by
  induction depth generalizing id out result with
  | zero => cases h
  | succ depth ih =>
    have hloop : ∀ (kids out result : List Nat),
        kids.foldlM (fun out kid => getAllDescendants children depth kid (out ++ [kid]))
          out = some result →
        kids.foldlM (fun out kid => getAllDescendants children (depth + 1) kid (out ++ [kid]))
          out = some result := by
      intro kids
      induction kids with
      | nil => exact fun _ _ hfold => hfold
      | cons kid kids ihk =>
        intro out result hfold
        obtain ⟨mid, hmid, hrest⟩ := Option.bind_eq_some_iff.mp
          ((List.foldlM_cons ..).symm.trans hfold)
        rw [List.foldlM_cons, ih hmid]
        exact ihk mid result hrest
    exact hloop _ _ _ h

theorem getAllDescendants_of_le {depth depth' id : Nat} {out result : List Nat}
    (h : getAllDescendants children depth id out = some result) (hle : depth ≤ depth') :
    getAllDescendants children depth' id out = some result := by
  induction hle with
  | refl => exact h
  | step _ ih => exact getAllDescendants_succ ih

end

/-- The live processes with their capability spaces, the id counter and the
revocation tree. -/
structure CapabilitySystem where
  pids : List Nat
  capabilities : Nat → CapabilitySpace
  nextId : Nat
  children : Nat → List Nat

namespace CapabilitySystem

variable (s : CapabilitySystem)

def grant (pid : Nat) (resource : ResourceKind) (permissions : Permissions)
    (target : Nat) (parentId : Option Nat) : CapabilitySystem :=
  { s with
    nextId := s.nextId + 1
    children :=
      match parentId with
      | some p => update s.children p (s.children p ++ [s.nextId])
      | none => s.children
    capabilities := update s.capabilities pid
      (s.capabilities pid ++ [⟨s.nextId, parentId, resource, permissions, target⟩]) }

def revokeLocal (pid id : Nat) : CapabilitySystem :=
  { s with
    capabilities := update s.capabilities pid ((s.capabilities pid).revokeLocal id) }

/-- Remove the given ids from every live process and from the tree. -/
def removeAll (targets : List Nat) : CapabilitySystem :=
  { s with
    capabilities := s.pids.foldl (fun caps pid =>
      update caps pid (targets.foldl CapabilitySpace.revokeLocal (caps pid)))
      s.capabilities
    children := targets.foldl (fun children id => update children id []) s.children }

/-- `CapabilitySpace::revoke_global`. -/
def revokeGlobal (depth id : Nat) : Option CapabilitySystem :=
  (getAllDescendants s.children depth id []).map fun descendants =>
    s.removeAll (descendants ++ [id])

/-- The space of `src` is copied into that of `dst`, a new or a live process. -/
def clone (src dst : Nat) : CapabilitySystem :=
  { s with
    pids := if dst ∈ s.pids then s.pids else s.pids ++ [dst]
    capabilities := update s.capabilities dst (s.capabilities src) }

def spawn (pid : Nat) : CapabilitySystem :=
  { s with
    pids := if pid ∈ s.pids then s.pids else s.pids ++ [pid]
    capabilities := update s.capabilities pid [] }

def exit (pid : Nat) : CapabilitySystem :=
  { s with pids := s.pids.filter fun q => q ≠ pid }

theorem sublist_removeAll (targets : List Nat) (pid : Nat) :
    ((s.removeAll targets).capabilities pid).Sublist (s.capabilities pid) := by
  have hids : ∀ (ids : List Nat) (caps : CapabilitySpace),
      (ids.foldl CapabilitySpace.revokeLocal caps).Sublist caps := by
    intro ids
    induction ids with
    | nil => exact fun caps => List.Sublist.refl caps
    | cons id ids ih =>
      exact fun caps => (ih (caps.revokeLocal id)).trans List.eraseP_sublist
  have hloop : ∀ (pids : List Nat) (caps : Nat → CapabilitySpace),
      (pids.foldl (fun caps q => update caps q
        (targets.foldl CapabilitySpace.revokeLocal (caps q))) caps pid).Sublist
        (caps pid) := by
    intro pids
    induction pids with
    | nil => exact fun caps => List.Sublist.refl _
    | cons q pids ih =>
      intro caps
      refine (ih _).trans ?_
      by_cases hq : pid = q
      · subst hq
        simp only [update_self]
        exact hids targets (caps pid)
      · simp only [update_of_ne hq]
        exact List.Sublist.refl _
  exact hloop s.pids s.capabilities

end CapabilitySystem

end ZiqaKernel
