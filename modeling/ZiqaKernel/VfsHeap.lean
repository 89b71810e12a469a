/-
The virtual file system as it lies in memory (`fs/vfs.rs`): nodes that hold
references to their children, so that nothing but the operations keeps a node
from having two parents or none.  `resolve_node`, `resolve_parent`, `list` and
`rename`.
-/
import ZiqaKernel.RootedGraph
import ZiqaKernel.Vfs

namespace ZiqaKernel

open Function AList

/-- `VfsNode`: the children of a directory are references, here numbers.  The order of
a `BTreeMap` only shows in the order of `list`. -/
inductive HeapNode (H : Type) where
  | directory (children : AList fun _ : Name => Nat)
  | file (handle : H)

namespace HeapNode

variable {H : Type}

def child : HeapNode H → Name → Option Nat
  | .directory children, k => children.lookup k
  | .file _, _ => none

/-- `is_dir`. -/
def isDir : HeapNode H → Bool
  | .directory _ => true
  | .file _ => false

/-- `children.remove(k)` on a directory. -/
def remove (k : Name) : HeapNode H → HeapNode H
  | .directory children => .directory (children.erase k)
  | .file handle => .file handle

/-- `children.insert(k, n)` on a directory. -/
def insert (k : Name) (n : Nat) : HeapNode H → HeapNode H
  | .directory children => .directory (children.insert k n)
  | .file handle => .file handle

end HeapNode

structure VfsHeap (H : Type) where
  nodes : Nat → HeapNode H
  root : Nat

namespace VfsHeap

variable {H : Type}

def child (h : VfsHeap H) (n : Nat) (k : Name) : Option Nat := (h.nodes n).child k

def nodeAt (h : VfsHeap H) (p : Position) : Option Nat := follow h.child h.root p

/-- The loop of `resolve_node`. -/
def resolveFrom (h : VfsHeap H) : Nat → List Name → Except AbiError Nat
  | n, [] => .ok n
  | n, part :: rest =>
    match h.nodes n with
    | .directory children =>
      match children.lookup part with
      | some m => resolveFrom h m rest
      | none => .error (.other "File not found")
    | .file _ => .error (.other "Not a directory")

/-- `resolve_node`. -/
def resolveNode (h : VfsHeap H) (path : List UInt8) : Except AbiError Nat :=
  h.resolveFrom h.root (walkedParts path)

end VfsHeap

def isNotSlash (c : UInt8) : Bool := c ≠ slash

/-- The text after the last `/`. -/
def leafOf (path : List UInt8) : Name := (path.reverse.takeWhile isNotSlash).reverse

/-- The text before the last `/`, without it `"/"`, and `"/"` instead of nothing. -/
def dirOf (path : List UInt8) : List UInt8 :=
  let dir := ((path.reverse.dropWhile isNotSlash).drop 1).reverse
  if dir = [] then [slash] else dir

namespace VfsHeap

variable {H : Type}

/-- `resolve_parent`. -/
def resolveParent (h : VfsHeap H) (path : List UInt8) : Except AbiError (Nat × Name) :=
  match h.resolveNode (dirOf path) with
  | .ok n => .ok (n, leafOf path)
  | .error e => .error e

def modify (h : VfsHeap H) (n : Nat) (f : HeapNode H → HeapNode H) : VfsHeap H :=
  { h with nodes := update h.nodes n (f (h.nodes n)) }

/-- `rename`. -/
def rename (h : VfsHeap H) (old new : List UInt8) : Except AbiError Unit × VfsHeap H :=
  match h.resolveNode old with
  | .error e => (.error e, h)
  | .ok node =>
    match h.resolveParent old with
    | .error e => (.error e, h)
    | .ok (oldParent, oldLeaf) =>
      match h.resolveParent new with
      | .error e => (.error e, h)
      | .ok (newParent, newLeaf) =>
        (.ok (), (h.modify oldParent (.remove oldLeaf)).modify newParent (.insert newLeaf node))

/-- The path of a child in `list_recursive`. -/
def listedPath (base : List UInt8) (name : Name) : List UInt8 :=
  if base = [slash] then slash :: name
  else (base.reverse.dropWhile (· = slash)).reverse ++ slash :: name

/-- `list_recursive`, down to the given depth. -/
def listRecursive (h : VfsHeap H) : Nat → Nat → List UInt8 → Option (List (List UInt8))
  | 0, _, _ => none
  | fuel + 1, n, base =>
    match h.nodes n with
    | .file _ => some []
    | .directory children =>
      (children.entries.mapM fun c =>
        (listRecursive h fuel c.2 (listedPath base c.1)).map
          (listedPath base c.1 :: ·)).map List.flatten

/-- `list`. -/
def list (h : VfsHeap H) (fuel : Nat) : Option (List (List UInt8)) :=
  h.listRecursive fuel h.root [slash]

end VfsHeap

/-! Paths -/

/-- A name that `resolve_node` does not skip. -/
def IsProper (name : Name) : Prop := name ≠ [] ∧ name ≠ dotName

instance (name : Name) : Decidable (IsProper name) :=
  inferInstanceAs (Decidable (_ ∧ _))

theorem isProper_of_mem_walkedParts {path : List UInt8} {name : Name}
    (h : name ∈ walkedParts path) : IsProper name := by
  simp only [walkedParts, components, List.mem_filter, decide_eq_true_eq] at h
  exact ⟨h.1.2, h.2⟩

theorem walkedParts_slash : walkedParts [slash] = [] := by decide

theorem path_split (path : List UInt8) : slash ∉ leafOf path ∧
      (path = leafOf path ∧ dirOf path = [slash] ∨ ∃ dir, path = dir ++ slash :: leafOf path ∧
          dirOf path = if dir = [] then [slash] else dir) := by
  have hleaf : slash ∉ leafOf path := by
    intro hmem
    rw [leafOf, List.mem_reverse] at hmem
    have hnot := List.mem_takeWhile_imp hmem
    simp [isNotSlash] at hnot
  refine ⟨hleaf, ?_⟩
  have hsplit : path.reverse.takeWhile isNotSlash ++ path.reverse.dropWhile isNotSlash =
      path.reverse := List.takeWhile_append_dropWhile
  cases hdrop : path.reverse.dropWhile isNotSlash with
  | nil =>
    left
    rw [hdrop, List.append_nil] at hsplit
    constructor
    · rw [leafOf, hsplit, List.reverse_reverse]
    · simp [dirOf, hdrop]
  | cons c rest =>
    right
    have hc : c = slash := by
      have hhead := List.head_dropWhile_not isNotSlash (l := path.reverse) (by simp [hdrop])
      simpa [hdrop, isNotSlash] using hhead
    subst hc
    refine ⟨rest.reverse, ?_, ?_⟩
    · have hpath := congrArg List.reverse hsplit
      rw [List.reverse_reverse, hdrop, List.reverse_append, List.reverse_cons,
        List.append_assoc] at hpath
      exact hpath.symm
    · simp [dirOf, hdrop]

theorem walkedParts_append (dir leaf : List UInt8) (h : slash ∉ leaf) :
    walkedParts (dir ++ slash :: leaf) =
      walkedParts dir ++ if IsProper leaf then [leaf] else [] := by
  have hleaf : leaf.splitOnP (· == slash) = [leaf] := by
    apply List.splitOnP_eq_singleton
    intro c hc
    rw [beq_eq_false_iff_ne]
    rintro rfl
    exact h hc
  rw [walkedParts, walkedParts, components, components, List.splitOn_eq_splitOnP,
    List.splitOn_eq_splitOnP, List.splitOnP_append_cons _ _ (by simp), hleaf,
    List.filter_append, List.filter_append]
  congr 1
  by_cases hnil : leaf = []
  · simp [IsProper, hnil]
  · by_cases hdot : leaf = dotName
    · simp [IsProper, hdot]
    · simp [IsProper, hnil, hdot]

theorem walkedParts_eq (path : List UInt8) : walkedParts path =
    walkedParts (dirOf path) ++ if IsProper (leafOf path) then [leafOf path] else [] := by
  obtain ⟨hleaf, ⟨hpath, hdir⟩ | ⟨dir, hpath, hdir⟩⟩ := path_split path
  · -- The parts of a leaf alone are those of the leaf behind the root.
    have hroot : walkedParts (slash :: path) = walkedParts path := by
      rw [walkedParts, walkedParts, components, components, List.splitOn_eq_splitOnP,
        List.splitOn_eq_splitOnP]
      have hempty : (slash :: path).splitOnP (· == slash) =
          ([] : List UInt8).splitOnP (· == slash) ++ path.splitOnP (· == slash) :=
        List.splitOnP_append_cons [] path (by simp)
      rw [hempty]
      simp
    have happ := walkedParts_append [] (leafOf path) hleaf
    rw [List.nil_append, ← hpath, hroot] at happ
    rw [hdir, walkedParts_slash, ← hpath]
    exact happ
  · have hparts : walkedParts (dirOf path) = walkedParts dir := by
      rw [hdir]
      split
      · next hnil =>
        rw [hnil, walkedParts_slash]
        decide
      · rfl
    rw [hparts, ← walkedParts_append dir _ hleaf, ← hpath]

theorem walkedParts_eq_dirOf {path : List UInt8} (h : ¬ IsProper (leafOf path)) :
    walkedParts path = walkedParts (dirOf path) := by
  rw [walkedParts_eq path, if_neg h, List.append_nil]

/-! The edges of a heap -/

namespace VfsHeap

variable {H : Type} {h h' : VfsHeap H} {n m x : Nat} {k : Name}

theorem resolveFrom_eq_ok_iff {parts : List Name} :
    h.resolveFrom n parts = .ok m ↔ follow h.child n parts = some m := by
  induction parts generalizing n with
  | nil => simp [resolveFrom]
  | cons part rest ih =>
    rw [resolveFrom, follow_cons, child]
    cases hn : h.nodes n with
    | file handle => simp [HeapNode.child]
    | directory children =>
      rw [HeapNode.child]
      dsimp only
      cases hk : children.lookup part with
      | none =>
        rw [Option.bind_none]
        simp
      | some c =>
        rw [Option.bind_some]
        exact ih

theorem resolveNode_eq_ok_iff {path : List UInt8} :
    h.resolveNode path = .ok m ↔ h.nodeAt (walkedParts path) = some m :=
  resolveFrom_eq_ok_iff

theorem nodeAt_append {p : Position} (hp : h.nodeAt p = some n) (q : Position) :
    h.nodeAt (p ++ q) = follow h.child n q := by
  rw [nodeAt] at hp
  rw [nodeAt, follow_append, hp, Option.bind_some]

theorem child_modify (f : HeapNode H → HeapNode H) {t : Option Nat}
    (hself : (f (h.nodes n)).child k = t)
    (hother : ∀ j, j ≠ k → (f (h.nodes n)).child j = (h.nodes n).child j) :
    (h.modify n f).child = redirect h.child n k t := by
  funext m j
  rw [child, modify, redirect]
  dsimp only
  by_cases hm : m = n
  · subst hm
    rw [update_self]
    by_cases hj : j = k
    · subst hj
      rw [if_pos ⟨rfl, rfl⟩, hself]
    · rw [if_neg fun hand => hj hand.2, hother j hj, child]
  · rw [update_of_ne hm, if_neg fun hand => hm hand.1, child]

theorem child_remove (h : VfsHeap H) (n : Nat) (k : Name) :
    (h.modify n (.remove k)).child = redirect h.child n k none := by
  apply child_modify
  · cases h.nodes n with
    | file handle => rfl
    | directory children => exact lookup_erase k children
  · intro j hj
    cases h.nodes n with
    | file handle => rfl
    | directory children => exact lookup_erase_ne hj

theorem child_insert (hdir : (h.nodes n).isDir = true) (k : Name) (x : Nat) :
    (h.modify n (.insert k x)).child = redirect h.child n k (some x) := by
  apply child_modify
  · cases hn : h.nodes n with
    | file handle =>
      rw [hn] at hdir
      cases hdir
    | directory children => exact lookup_insert children
  · intro j hj
    cases h.nodes n with
    | file handle => rfl
    | directory children => exact lookup_insert_ne hj

theorem modify_insert_file (hfile : (h.nodes n).isDir = false) (k : Name) (x : Nat) :
    h.modify n (.insert k x) = h := by
  have hsame : HeapNode.insert k x (h.nodes n) = h.nodes n := by
    cases hn : h.nodes n with
    | file handle => rfl
    | directory children =>
      rw [hn] at hfile
      cases hfile
  rw [modify, hsame, update_eq_self]

/-- What a change of a node keeps of every node, the change of the heap keeps. -/
theorem modify_keeps {α : Type} {F : HeapNode H → α} {f : HeapNode H → HeapNode H}
    (hf : ∀ y, F (f y) = F y) (n m : Nat) : F ((h.modify n f).nodes m) = F (h.nodes m) := by
  rw [modify]
  dsimp only
  by_cases hm : m = n
  · subst hm
    rw [update_self, hf]
  · rw [update_of_ne hm]

theorem isDir_remove (h : VfsHeap H) (n : Nat) (k : Name) (m : Nat) :
    ((h.modify n (.remove k)).nodes m).isDir = (h.nodes m).isDir := by
  apply modify_keeps
  intro y
  cases y <;> rfl

theorem isDir_of_child (hc : h.child n k = some x) : (h.nodes n).isDir = true := by
  unfold child at hc
  cases hn : h.nodes n with
  | file handle =>
    rw [hn] at hc
    cases hc
  | directory children => rfl

/-! `list` -/

theorem isSome_mapM {α β : Type} {f : α → Option β} {l : List α}
    (hf : ∀ a ∈ l, (f a).isSome) : (l.mapM f).isSome := by
  induction l with
  | nil => rfl
  | cons a l ih =>
    rw [List.forall_mem_cons] at hf
    obtain ⟨b, hb⟩ := Option.isSome_iff_exists.mp hf.1
    obtain ⟨bs, hbs⟩ := Option.isSome_iff_exists.mp (ih hf.2)
    rw [List.mapM_cons, hb, hbs]
    rfl

theorem listRecursive_isSome {depth fuel : Nat} {p : Position} (base : List UInt8)
    (hdepth : ∀ q, depth < q.length → h.nodeAt q = none)
    (hn : h.nodeAt p = some n) (hfuel : depth < fuel + p.length) :
    (h.listRecursive fuel n base).isSome := by
  induction fuel generalizing n p base with
  | zero =>
    rw [hdepth p (by omega)] at hn
    cases hn
  | succ fuel ih =>
    rw [listRecursive]
    cases hnode : h.nodes n with
    | file handle => rfl
    | directory children =>
      rw [Option.isSome_map]
      apply isSome_mapM
      intro c hc
      rw [Option.isSome_map]
      have hlookup : children.lookup c.1 = some c.2 := mem_lookup_iff.mpr hc
      have hchild : h.nodeAt (p ++ [c.1]) = some c.2 := by
        rw [nodeAt_append hn, follow_cons, child, hnode, HeapNode.child, hlookup]
        rfl
      exact ih _ hchild (by rw [List.length_append, List.length_singleton]; omega)

theorem list_isSome (ht : IsTree h.child h.root) : ∃ fuel, (h.list fuel).isSome := by
  obtain ⟨depth, hdepth⟩ := ht.bounded
  exact ⟨depth + 1, listRecursive_isSome (p := []) _ hdepth rfl (by simp)⟩

end VfsHeap

/-! `rename` -/

namespace VfsHeap

variable {H : Type}

/-- What is expected of a `rename` that returns `Ok`: it moves the node with all that
is below it, and every other node but a replaced target stays where it is. -/
structure Renamed (h h' : VfsHeap H) (old new : List UInt8) : Prop where
  new_resolves : ∀ x, h.resolveNode old = .ok x → h'.resolveNode new = .ok x
  old_gone : walkedParts old ≠ walkedParts new → ∀ x, h'.resolveNode old ≠ .ok x
  below : ∀ q, h'.nodeAt (walkedParts new ++ q) = h.nodeAt (walkedParts old ++ q)
  others : ∀ q, ¬ walkedParts old <+: q → ¬ walkedParts new <+: q → h'.nodeAt q = h.nodeAt q
  files : ∀ n f, h'.nodes n = .file f ↔ h.nodes n = .file f
  tree : IsTree h'.child h'.root
  lists : ∃ fuel, (h'.list fuel).isSome

/-- What is expected of `rename`. -/
def RenameSound (h : VfsHeap H) (old new : List UInt8) : Prop :=
  match h.rename old new with
  | (.error _, h') => h' = h
  | (.ok (), h') => h.Renamed h' old new

/-- A move that `rename` can carry out, when the old path leads to `x` and the parent of
the new one is `newParent`.  The old path must not lead anywhere below the moved node's
new place.  With a proper old leaf, the new leaf is proper and the new parent a directory
outside the moved node.  An old path that ends in `/` or `/.` only allows its own
position or one above it. -/
def MoveSafe (h : VfsHeap H) (old new : List UInt8) (x newParent : Nat) : Prop :=
  (walkedParts new <+: walkedParts old → walkedParts new ≠ walkedParts old →
    h.nodeAt (walkedParts old ++ (walkedParts old).drop (walkedParts new).length) = none) ∧
  if IsProper (leafOf old) then
    IsProper (leafOf new) ∧ (h.nodes newParent).isDir = true ∧
      ¬ walkedParts old <+: walkedParts (dirOf new)
  else
    h.nodeAt (walkedParts old ++ [leafOf old]) = none ∧
      (IsProper (leafOf new) ∧ walkedParts new <+: walkedParts old ∨
        ¬ IsProper (leafOf new) ∧ walkedParts new = walkedParts old ∧ (h.nodes x).isDir = false)

/-- The paths that `rename` can deal with: it refuses them, or it can carry out the
move. -/
def RenameSafe (h : VfsHeap H) (old new : List UInt8) : Prop :=
  ∀ x newParent, h.nodeAt (walkedParts old) = some x → (h.nodeAt (walkedParts (dirOf old))).isSome →
    h.nodeAt (walkedParts (dirOf new)) = some newParent → h.MoveSafe old new x newParent

theorem files_modify {h : VfsHeap H} {n : Nat} {f : HeapNode H → HeapNode H}
    (hf : ∀ y handle, f y = .file handle ↔ y = .file handle) (m : Nat) (handle : H) :
    (h.modify n f).nodes m = .file handle ↔ h.nodes m = .file handle :=
  iff_of_eq (modify_keeps (F := fun y => y = .file handle) (fun y => propext (hf y handle)) n m)

theorem remove_eq_file (k : Name) (y : HeapNode H) (handle : H) :
    y.remove k = .file handle ↔ y = .file handle := by
  cases y <;> simp [HeapNode.remove]

theorem insert_eq_file (k : Name) (x : Nat) (y : HeapNode H) (handle : H) :
    y.insert k x = .file handle ↔ y = .file handle := by
  cases y <;> simp [HeapNode.insert]

section

variable {h h' : VfsHeap H} {old new : List UInt8} {x oldParent newParent : Nat}

/-- A move of the walks is what `rename` should do, when the old path then leads
nowhere. -/
theorem Renamed.of_moved (ht : IsTree h.child h.root) (hroot : h'.root = h.root)
    (hmoved : MovedWalks h.child h'.child h.root (walkedParts old) (walkedParts new))
    (hfiles : ∀ n f, h'.nodes n = .file f ↔ h.nodes n = .file f)
    (hgone : walkedParts new <+: walkedParts old → walkedParts new ≠ walkedParts old →
      h.nodeAt (walkedParts old ++ (walkedParts old).drop (walkedParts new).length) = none) :
    h.Renamed h' old new where
  new_resolves x hx := by
    rw [resolveNode_eq_ok_iff] at hx ⊢
    have hnew := hmoved.1 []
    rw [List.append_nil, List.append_nil] at hnew
    rw [nodeAt, hroot, hnew]
    exact hx
  old_gone hne x hx := by
    rw [resolveNode_eq_ok_iff, nodeAt, hroot] at hx
    by_cases hpre : walkedParts new <+: walkedParts old
    · obtain ⟨r, hr⟩ := hpre
      have hnone := hgone ⟨r, hr⟩ (Ne.symm hne)
      rw [← hr, List.drop_left, nodeAt, hr, ← hmoved.1, hr, hx] at hnone
      cases hnone
    · rw [hmoved.2.1 _ hpre List.prefix_rfl] at hx
      cases hx
  below q := by
    rw [nodeAt, hroot]
    exact hmoved.1 q
  others q hold hnew := by
    rw [nodeAt, hroot]
    exact hmoved.2.2 q hnew hold
  files := hfiles
  tree := by
    rw [hroot]
    exact hmoved.isTree ht
  lists := list_isSome (by
    rw [hroot]
    exact hmoved.isTree ht)

theorem Renamed.gone (hren : h.Renamed h' old new) (hpre : walkedParts new <+: walkedParts old)
    (hne : walkedParts new ≠ walkedParts old) :
    h.nodeAt (walkedParts old ++ (walkedParts old).drop (walkedParts new).length) =
      none := by
  obtain ⟨r, hr⟩ := hpre
  have hbelow := hren.below r
  rw [← hr, List.drop_left, hr, ← hbelow, Option.eq_none_iff_forall_ne_some]
  intro y hy
  apply hren.old_gone (Ne.symm hne) y
  rw [resolveNode_eq_ok_iff, ← hr]
  exact hy

/-- The heap after the two steps of `rename`. -/
def relinked (h : VfsHeap H) (oldParent : Nat) (oldLeaf : Name) (newParent : Nat)
    (newLeaf : Name) (x : Nat) : VfsHeap H :=
  (h.modify oldParent (.remove oldLeaf)).modify newParent (.insert newLeaf x)

@[simp]
theorem root_relinked {oldLeaf newLeaf : Name} :
    (h.relinked oldParent oldLeaf newParent newLeaf x).root = h.root := rfl

theorem child_relinked {oldLeaf newLeaf : Name} (hdir : (h.nodes newParent).isDir = true) :
    (h.relinked oldParent oldLeaf newParent newLeaf x).child =
      redirect (redirect h.child oldParent oldLeaf none) newParent newLeaf (some x) := by
  rw [relinked, child_insert (by rw [isDir_remove, hdir]), child_remove]

theorem child_relinked_file {oldLeaf newLeaf : Name} (hfile : (h.nodes newParent).isDir = false) :
    (h.relinked oldParent oldLeaf newParent newLeaf x).child =
      redirect h.child oldParent oldLeaf none := by
  rw [relinked, modify_insert_file (by rw [isDir_remove, hfile]), child_remove]

theorem files_relinked {oldLeaf newLeaf : Name} (n : Nat) (f : H) :
    (h.relinked oldParent oldLeaf newParent newLeaf x).nodes n = .file f ↔ h.nodes n = .file f := by
  rw [relinked, files_modify (insert_eq_file newLeaf x), files_modify (remove_eq_file oldLeaf)]

section

variable (ht : IsTree h.child h.root)
  (hparent : h.nodeAt (walkedParts (dirOf old)) = some oldParent)

include ht hparent

theorem follow_detached {q : Position} :
    follow (redirect h.child oldParent (leafOf old) none) h.root q =
      if walkedParts (dirOf old) ++ [leafOf old] <+: q then none else h.nodeAt q :=
  follow_redirect_none (fun _ hp => ht.unique _ _ _ hp hparent) hparent q

theorem follow_of_detached {q : Position} {n : Nat}
    (hq : follow (redirect h.child oldParent (leafOf old) none) h.root q = some n) :
    ¬ walkedParts (dirOf old) ++ [leafOf old] <+: q ∧ h.nodeAt q = some n := by
  rw [follow_detached ht hparent] at hq
  split at hq
  · cases hq
  · next hout => exact ⟨hout, hq⟩

end

section

variable (ht : IsTree h.child h.root) (hx : h.nodeAt (walkedParts old) = some x)
  (hparent : h.nodeAt (walkedParts (dirOf old)) = some oldParent)
  (hnew : h.nodeAt (walkedParts (dirOf new)) = some newParent)

include ht hx hparent hnew

theorem moved_of_proper (hold : IsProper (leafOf old)) (hleaf : IsProper (leafOf new))
    (hdir : (h.nodes newParent).isDir = true)
    (hout : ¬ walkedParts old <+: walkedParts (dirOf new)) :
    MovedWalks h.child (h.relinked oldParent (leafOf old) newParent (leafOf new) x).child h.root
      (walkedParts old) (walkedParts new) := by
  have ha : walkedParts old = walkedParts (dirOf old) ++ [leafOf old] := by
    rw [walkedParts_eq old, if_pos hold]
  have hb : walkedParts new = walkedParts (dirOf new) ++ [leafOf new] := by
    rw [walkedParts_eq new, if_pos hleaf]
  rw [child_relinked hdir]
  -- The node's own walks meet neither of the two edges.
  have hkeep : ∀ q, follow (redirect h.child oldParent (leafOf old) none) x q =
      follow h.child x q := by
    apply follow_redirect_of_unreached
    intro s hs
    have hpos : h.nodeAt (walkedParts old ++ s) = some oldParent :=
      (nodeAt_append hx s).trans hs
    have hlen := congrArg List.length (ht.unique _ _ _ hpos hparent)
    rw [ha] at hlen
    simp only [List.length_append, List.length_singleton] at hlen
    omega
  have hmoved : ∀ q, follow (redirect (redirect h.child oldParent (leafOf old) none)
      newParent (leafOf new) (some x)) x q = follow h.child x q := by
    intro q
    rw [follow_redirect_of_unreached, hkeep]
    intro s hs
    rw [hkeep] at hs
    have hpos : h.nodeAt (walkedParts old ++ s) = some newParent :=
      (nodeAt_append hx s).trans hs
    exact hout ⟨s, ht.unique _ _ _ hpos hnew⟩
  have hunique : ∀ p,
      follow (redirect h.child oldParent (leafOf old) none) h.root p = some newParent →
        p = walkedParts (dirOf new) := fun p hp =>
    ht.unique _ _ _ (follow_of_detached ht hparent hp).2 hnew
  have hreach : follow (redirect h.child oldParent (leafOf old) none) h.root
      (walkedParts (dirOf new)) = some newParent := by
    rw [follow_detached ht hparent, ← ha, if_neg hout, hnew]
  refine ⟨fun q => ?_, fun q hq hin => ?_, fun q hq hq' => ?_⟩
  · rw [hb, follow_redirect_inside hunique hreach, Option.bind_some, hmoved, ← nodeAt_append hx]
    rfl
  · rw [hb] at hq
    rw [follow_redirect_outside hunique hq, follow_detached ht hparent, ← ha, if_pos hin]
  · rw [hb] at hq
    rw [follow_redirect_outside hunique hq, follow_detached ht hparent, ← ha, if_neg hq']
    rfl

theorem safe_of_proper (hold : IsProper (leafOf old))
    (hren : h.Renamed (h.relinked oldParent (leafOf old) newParent (leafOf new) x) old new) :
    IsProper (leafOf new) ∧ (h.nodes newParent).isDir = true ∧
      ¬ walkedParts old <+: walkedParts (dirOf new) := by
  have ha : walkedParts old = walkedParts (dirOf old) ++ [leafOf old] := by
    rw [walkedParts_eq old, if_pos hold]
  have hres := hren.new_resolves x (resolveNode_eq_ok_iff.mpr hx)
  rw [resolveNode_eq_ok_iff, nodeAt, root_relinked] at hres
  -- Once the node is detached, the new path does not lead to it by itself.
  have hlost : follow (redirect h.child oldParent (leafOf old) none) h.root
      (walkedParts new) ≠ some x := by
    intro hwalk
    obtain ⟨hout, hpos⟩ := follow_of_detached ht hparent hwalk
    apply hout
    rw [← ha, ht.unique _ _ _ hpos hx]
  have hdir : (h.nodes newParent).isDir = true := by
    by_contra hfile
    rw [Bool.not_eq_true] at hfile
    rw [child_relinked_file hfile] at hres
    exact hlost hres
  rw [child_relinked hdir] at hres
  have hproper : IsProper (leafOf new) := by
    by_contra himproper
    apply hlost
    rw [← hres]
    refine (follow_redirect fun s r hsplit _ => himproper ?_).symm
    have hmem : leafOf new ∈ walkedParts new := by
      rw [hsplit]
      simp
    exact isProper_of_mem_walkedParts hmem
  refine ⟨hproper, hdir, fun hin => hlost ?_⟩
  rw [← hres]
  refine (follow_redirect_of_unreached (fun s hs => ?_) _).symm
  obtain ⟨hout, hpos⟩ := follow_of_detached ht hparent hs
  apply hout
  rw [← ha, ht.unique _ _ _ hpos hnew]
  exact hin

end

theorem redirect_of_none {leaf : Name} (hx : h.nodeAt (walkedParts old) = some x)
    (hnone : h.nodeAt (walkedParts old ++ [leaf]) = none) :
    redirect h.child x leaf none = h.child := by
  apply redirect_eq_self
  rw [nodeAt_append hx, follow_cons] at hnone
  cases hc : h.child x leaf with
  | none => rfl
  | some c =>
    rw [hc] at hnone
    cases hnone

section

variable (ht : IsTree h.child h.root) (hx : h.nodeAt (walkedParts old) = some x)
  (hnew : h.nodeAt (walkedParts (dirOf new)) = some newParent)

include ht hx hnew

theorem moved_of_improper (hleaf : IsProper (leafOf new))
    (hnone : h.nodeAt (walkedParts old ++ [leafOf old]) = none)
    (hpre : walkedParts new <+: walkedParts old) :
    MovedWalks h.child (h.relinked x (leafOf old) newParent (leafOf new) x).child h.root
      (walkedParts old) (walkedParts new) := by
  have hb : walkedParts new = walkedParts (dirOf new) ++ [leafOf new] := by
    rw [walkedParts_eq new, if_pos hleaf]
  have hunique : ∀ p, follow h.child h.root p = some newParent →
      p = walkedParts (dirOf new) := fun p hp => ht.unique _ _ _ hp hnew
  obtain ⟨r, hr⟩ := hpre
  have hdir : (h.nodes newParent).isDir = true := by
    have hsome : (h.nodeAt (walkedParts new)).isSome :=
      follow_isSome_of_append (q := r) (by
        rw [hr]
        exact Option.isSome_of_eq_some hx)
    rw [hb, nodeAt_append hnew, follow_cons] at hsome
    cases hc : h.child newParent (leafOf new) with
    | none =>
      rw [hc] at hsome
      cases hsome
    | some c => exact isDir_of_child hc
  have hstay : ∀ q, follow (redirect h.child newParent (leafOf new) (some x)) x q =
      follow h.child x q := by
    apply follow_redirect_of_unreached
    intro s hs
    have hpos := ht.unique _ _ _ ((nodeAt_append hx s).trans hs) hnew
    have hlen := congrArg List.length hpos
    rw [← hr, hb] at hlen
    simp only [List.length_append, List.length_singleton] at hlen
    omega
  rw [child_relinked hdir, redirect_of_none hx hnone]
  refine ⟨fun q => ?_, fun q hq hin => ?_, fun q hq _ => ?_⟩
  · rw [hb, follow_redirect_inside hunique hnew, Option.bind_some, hstay, ← nodeAt_append hx]
    rfl
  · exact absurd (List.IsPrefix.trans ⟨r, hr⟩ hin) hq
  · rw [hb] at hq
    exact follow_redirect_outside hunique hq

theorem safe_of_improper
    (hren : h.Renamed (h.relinked x (leafOf old) newParent (leafOf new) x) old new) :
    h.nodeAt (walkedParts old ++ [leafOf old]) = none ∧
      (IsProper (leafOf new) ∧ walkedParts new <+: walkedParts old ∨
        ¬ IsProper (leafOf new) ∧ walkedParts new = walkedParts old ∧
          (h.nodes x).isDir = false) := by
  have hres := hren.new_resolves x (resolveNode_eq_ok_iff.mpr hx)
  rw [resolveNode_eq_ok_iff] at hres
  have hnone : h.nodeAt (walkedParts old ++ [leafOf old]) = none := by
    rw [Option.eq_none_iff_forall_ne_some]
    intro c hc
    -- The child is removed, and at most the node itself takes its place.
    have hbelow := hren.below [leafOf old]
    rw [hc, nodeAt_append hres, ← List.nil_append [leafOf old], follow_concat,
      follow_nil, Option.bind_some] at hbelow
    cases hdir : (h.nodes newParent).isDir with
    | false =>
      rw [child_relinked_file hdir, redirect_self] at hbelow
      cases hbelow
    | true =>
      rw [child_relinked hdir] at hbelow
      by_cases hedge : x = newParent ∧ leafOf old = leafOf new
      · rw [redirect, if_pos hedge, Option.some.injEq] at hbelow
        rw [← hbelow] at hc
        have hlen := congrArg List.length (ht.unique _ _ _ hc hx)
        simp at hlen
      · rw [redirect, if_neg hedge, redirect_self] at hbelow
        cases hbelow
  refine ⟨hnone, ?_⟩
  have hsame := redirect_of_none hx hnone
  rw [nodeAt, root_relinked] at hres
  by_cases hleaf : IsProper (leafOf new)
  · left
    refine ⟨hleaf, ?_⟩
    have hb : walkedParts new = walkedParts (dirOf new) ++ [leafOf new] := by
      rw [walkedParts_eq new, if_pos hleaf]
    cases hdir : (h.nodes newParent).isDir with
    | false =>
      rw [child_relinked_file hdir, hsame] at hres
      rw [ht.unique _ _ _ hres hx]
    | true =>
      -- A node that is still at its old place would be in two places.
      by_contra hpre
      have hstay : follow (h.relinked x (leafOf old) newParent (leafOf new) x).child
          h.root (walkedParts old) = some x := by
        rw [child_relinked hdir, hsame, follow_redirect_outside
          (fun p hp => ht.unique _ _ _ hp hnew) (hb ▸ hpre)]
        exact hx
      exact hpre (hren.tree.unique _ _ _ hres hstay ▸ List.prefix_rfl)
  · right
    have hb := walkedParts_eq_dirOf hleaf
    cases hdir : (h.nodes newParent).isDir with
    | false =>
      rw [child_relinked_file hdir, hsame] at hres
      rw [hb] at hres
      have hnode := Option.some.inj (hnew.symm.trans hres)
      refine ⟨hleaf, ?_, hnode ▸ hdir⟩
      rw [hb, ht.unique _ _ _ hres hx]
    | true =>
      -- The new parent is the node, which becomes its own child.
      exfalso
      have hstay : follow (h.relinked x (leafOf old) newParent (leafOf new) x).child
          h.root (walkedParts new) = h.nodeAt (walkedParts new) := by
        rw [child_relinked hdir, hsame]
        refine follow_redirect fun s r hsplit _ => hleaf ?_
        have hmem : leafOf new ∈ walkedParts new := by
          rw [hsplit]
          simp
        exact isProper_of_mem_walkedParts hmem
      have hnode : newParent = x := by
        rw [hstay, hb, hnew] at hres
        exact Option.some.inj hres
      have hloop : follow (h.relinked x (leafOf old) newParent (leafOf new) x).child
          h.root (walkedParts new ++ [leafOf new]) = some x := by
        rw [follow_concat, hres, Option.bind_some, child_relinked hdir, hnode, redirect_self]
      have hlen := congrArg List.length (hren.tree.unique _ _ _ hloop hres)
      simp at hlen

end

section

variable (ht : IsTree h.child h.root) (hx : h.nodeAt (walkedParts old) = some x)
  (hparent : h.nodeAt (walkedParts (dirOf old)) = some oldParent)
  (hnew : h.nodeAt (walkedParts (dirOf new)) = some newParent)

include ht hx hparent hnew

theorem moved_of_safe (hsafe : h.MoveSafe old new x newParent) :
    MovedWalks h.child (h.relinked oldParent (leafOf old) newParent (leafOf new) x).child h.root
      (walkedParts old) (walkedParts new) := by
  obtain ⟨-, hmove⟩ := hsafe
  by_cases hold : IsProper (leafOf old)
  · rw [if_pos hold] at hmove
    obtain ⟨hleaf, hdir, hout⟩ := hmove
    exact moved_of_proper ht hx hparent hnew hold hleaf hdir hout
  · rw [if_neg hold] at hmove
    -- The old path leads to what is taken for the parent.
    rw [walkedParts_eq_dirOf hold] at hx
    obtain rfl := Option.some.inj (hparent.symm.trans hx)
    rw [← walkedParts_eq_dirOf hold] at hx
    obtain ⟨hnone, ⟨hleaf, hpre⟩ | ⟨hleaf, hsame, hfile⟩⟩ := hmove
    · exact moved_of_improper ht hx hnew hleaf hnone hpre
    · have hnode : newParent = oldParent := by
        rw [← walkedParts_eq_dirOf hleaf, hsame, hx] at hnew
        exact (Option.some.inj hnew).symm
      rw [child_relinked_file (hnode ▸ hfile), redirect_of_none hx hnone, hsame]
      exact ⟨fun _ => rfl, fun q hq hin => absurd hin hq, fun _ _ _ => rfl⟩

theorem renamed_iff :
    h.Renamed (h.relinked oldParent (leafOf old) newParent (leafOf new) x) old new ↔
      h.MoveSafe old new x newParent := by
  constructor
  · intro hren
    refine ⟨hren.gone, ?_⟩
    by_cases hold : IsProper (leafOf old)
    · rw [if_pos hold]
      exact safe_of_proper ht hx hparent hnew hold hren
    · rw [if_neg hold]
      rw [walkedParts_eq_dirOf hold] at hx
      obtain rfl := Option.some.inj (hparent.symm.trans hx)
      rw [← walkedParts_eq_dirOf hold] at hx
      exact safe_of_improper ht hx hnew hren
  · intro hsafe
    exact .of_moved ht rfl (moved_of_safe ht hx hparent hnew hsafe) files_relinked hsafe.1

end

end

/-- On a finite tree `rename` is sound exactly for the paths that it can deal with. -/
theorem rename_sound_iff (h : VfsHeap H) (ht : IsTree h.child h.root)
    (old new : List UInt8) : h.RenameSound old new ↔ h.RenameSafe old new := by
  unfold RenameSound RenameSafe rename resolveParent
  cases hx : h.resolveNode old with
  | error e =>
    refine iff_of_true rfl fun x newParent hold => ?_
    rw [← resolveNode_eq_ok_iff, hx] at hold
    cases hold
  | ok x =>
    cases hparent : h.resolveNode (dirOf old) with
    | error e =>
      refine iff_of_true rfl fun y newParent _ hold => ?_
      obtain ⟨n, hn⟩ := Option.isSome_iff_exists.mp hold
      rw [← resolveNode_eq_ok_iff, hparent] at hn
      cases hn
    | ok oldParent =>
      cases hnew : h.resolveNode (dirOf new) with
      | error e =>
        refine iff_of_true rfl fun y newParent _ _ hn => ?_
        rw [← resolveNode_eq_ok_iff, hnew] at hn
        cases hn
      | ok newParent =>
        rw [resolveNode_eq_ok_iff] at hx hparent hnew
        have hiff := renamed_iff ht hx hparent hnew
        constructor
        · intro hren y n hy _ hn
          obtain rfl := Option.some.inj (hx.symm.trans hy)
          obtain rfl := Option.some.inj (hnew.symm.trans hn)
          exact hiff.mp hren
        · intro hsafe
          exact hiff.mpr (hsafe x newParent hx (Option.isSome_of_eq_some hparent) hnew)

/-- A root directory with one empty directory, `a`. -/
def exampleHeap : VfsHeap Nat where
  nodes n :=
    if n = 0 then .directory (insert [97] 1 ∅)
    else if n = 1 then .directory ∅
    else .file 0
  root := 0

theorem exampleHeap_child (n : Nat) (k : Name) :
    exampleHeap.child n k = if n = 0 ∧ k = [97] then some 1 else none := by
  unfold child exampleHeap
  dsimp only
  by_cases h0 : n = 0
  · subst h0
    by_cases hk : k = [97]
    · subst hk
      rfl
    · rw [if_pos rfl, if_neg fun h => hk h.2]
      exact lookup_insert_ne hk
  · have hedge : ¬ (n = 0 ∧ k = [97]) := fun h => h0 h.1
    rw [if_neg h0, if_neg hedge]
    split <;> rfl

theorem exampleHeap_nodeAt {p : Position} {n : Nat} (h : exampleHeap.nodeAt p = some n) :
    p = [] ∧ n = 0 ∨ p = [[97]] ∧ n = 1 := by
  match p with
  | [] => exact Or.inl ⟨rfl, (Option.some.inj h).symm⟩
  | [k] =>
    rw [nodeAt, follow_cons, exampleHeap_child] at h
    split at h
    · next hk => exact Or.inr ⟨by rw [hk.2], (Option.some.inj h).symm⟩
    · cases h
  | k :: j :: rest =>
    rw [nodeAt, follow_cons, exampleHeap_child] at h
    split at h
    · rw [Option.bind_some, follow_cons, exampleHeap_child, if_neg (by simp)] at h
      cases h
    · cases h

theorem exampleHeap_isTree : IsTree exampleHeap.child exampleHeap.root where
  unique p q n hp hq := by
    rcases exampleHeap_nodeAt hp with ⟨rfl, rfl⟩ | ⟨rfl, rfl⟩
    · rcases exampleHeap_nodeAt hq with ⟨rfl, -⟩ | ⟨-, h⟩
      · rfl
      · cases h
    · rcases exampleHeap_nodeAt hq with ⟨-, h⟩ | ⟨rfl, -⟩
      · cases h
      · rfl
  bounded := by
    refine ⟨1, fun p hp => ?_⟩
    rw [Option.eq_none_iff_forall_ne_some]
    intro n hn
    rcases exampleHeap_nodeAt hn with ⟨rfl, -⟩ | ⟨rfl, -⟩
    · exact absurd hp (by decide)
    · exact absurd hp (by decide)

/-- `rename("/a", "/b")`. -/
theorem exampleHeap_renamed : IsTree exampleHeap.child exampleHeap.root ∧
    exampleHeap.RenameSound [47, 97] [47, 98] := by
  refine ⟨exampleHeap_isTree, (rename_sound_iff _ exampleHeap_isTree _ _).mpr ?_⟩
  intro x newParent _ _ hnew
  have hroot : newParent = 0 := (Option.some.inj hnew).symm
  subst hroot
  refine ⟨?_, ?_⟩
  · intro hpre
    exact absurd hpre (by decide)
  · rw [if_pos (by decide)]
    exact ⟨by decide, rfl, by decide⟩

/-- `rename("/a", "/a/b")` detaches the directory and hangs it into itself. -/
theorem exampleHeap_lost : IsTree exampleHeap.child exampleHeap.root ∧
    ¬ exampleHeap.RenameSound [47, 97] [47, 97, 47, 98] := by
  refine ⟨exampleHeap_isTree, fun hsound => ?_⟩
  have hiff : exampleHeap.Renamed (exampleHeap.relinked 0 (leafOf [47, 97]) 1
      (leafOf [47, 97, 47, 98]) 1) [47, 97] [47, 97, 47, 98] ↔
        exampleHeap.MoveSafe [47, 97] [47, 97, 47, 98] 1 1 :=
    renamed_iff exampleHeap_isTree rfl rfl rfl
  have hsafe := (hiff.mp hsound).2
  rw [if_pos (by decide)] at hsafe
  exact hsafe.2.2 (by decide)

end VfsHeap

end ZiqaKernel
