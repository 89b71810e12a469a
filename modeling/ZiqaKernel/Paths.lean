/-
Normalisation of paths (`fs/mod.rs`).  A path is a walk from the root: a name goes down,
`..` goes up and stays at the root, and what `normalize_path` returns is the shortest
path to where the walk ends.
-/
import ZiqaKernel.Vfs

namespace ZiqaKernel

/-- One round of the loop of `normalize_path`; `parts` is the stack with its top last. -/
def pushSegment (parts : Position) (seg : Name) : Position :=
  if seg = [] ∨ seg = dotName then parts
  else if seg = dotDotName then parts.dropLast
  else parts ++ [seg]

/-- The loop of `normalize_path` from a stack on. -/
def walkFrom (parts : Position) (path : List UInt8) : Position :=
  (path.splitOn slash).foldl pushSegment parts

/-- The result of `normalize_path` for a stack. -/
def pathOf (parts : Position) : List UInt8 :=
  if parts = [] then [slash] else slash :: [slash].intercalate parts

/-- `normalize_path` -/
def normalizePath (path : List UInt8) : List UInt8 := pathOf (walkFrom [] path)

/-- `resolve_path`.  It panics if the working directory is shorter than it says. -/
def resolvePath (cwd : List UInt8) (cwdLen : Nat) (path : List UInt8) : Option (List UInt8) :=
  if cwdLen ≤ cwd.length then
    let cwdStr := if utf8Valid (cwd.take cwdLen) then cwd.take cwdLen else [slash]
    if path.head? = some slash then some (normalizePath path)
    else if cwdStr = [slash] then some (normalizePath (slash :: path))
    else some (normalizePath (Vfs.trimSlashes cwdStr ++ slash :: path))
  else none

structure PlainSegment (s : Name) : Prop where
  ne_nil : s ≠ []
  ne_dot : s ≠ dotName
  ne_dotDot : s ≠ dotDotName
  not_mem : slash ∉ s

def PlainWalk (parts : Position) : Prop := ∀ s ∈ parts, PlainSegment s

/-- An absolute path without empty segments, `.` and `..`, and without a slash at its end,
unless it is the root. -/
structure CanonicalPath (p : List UInt8) : Prop where
  absolute : p.head? = some slash
  plain : p ≠ [slash] → ∀ s ∈ p.tail.splitOn slash, s ≠ [] ∧ s ≠ dotName ∧ s ≠ dotDotName
  last : p.getLast? = some slash → p = [slash]

section

variable {parts : Position} {path : List UInt8} {s : Name}

theorem pushSegment_plain (parts : Position) (hs : PlainSegment s) :
    pushSegment parts s = parts ++ [s] := by
  rw [pushSegment, if_neg (not_or.mpr ⟨hs.ne_nil, hs.ne_dot⟩), if_neg hs.ne_dotDot]

theorem pushSegment_nil (parts : Position) : pushSegment parts [] = parts :=
  if_pos (Or.inl rfl)

theorem plainWalk_pushSegment (h : PlainWalk parts) (hs : slash ∉ s) :
    PlainWalk (pushSegment parts s) := by
  unfold pushSegment
  split
  · exact h
  · next hskip =>
    split
    · exact fun t ht => h t (List.mem_of_mem_dropLast ht)
    · next hup =>
      intro t ht
      rcases List.mem_append.mp ht with ht | ht
      · exact h t ht
      · obtain rfl := List.mem_singleton.mp ht
        exact ⟨fun hnil => hskip (.inl hnil), fun hdot => hskip (.inr hdot), hup, hs⟩

theorem not_mem_of_mem_splitOn {α : Type} [BEq α] [LawfulBEq α] {x : α} {xs part : List α}
    (h : part ∈ xs.splitOn x) : x ∉ part := by
  induction xs generalizing part with
  | nil =>
    rw [List.splitOn_nil, List.mem_singleton] at h
    rw [h]
    exact List.not_mem_nil
  | cons y ys ih =>
    rw [List.splitOn_cons_eq_if_modifyHead] at h
    split at h
    · rcases List.mem_cons.mp h with rfl | h
      · exact List.not_mem_nil
      · exact ih h
    · next hy =>
      obtain ⟨first, rest, hsplit⟩ := List.exists_cons_of_ne_nil (List.splitOn_ne_nil x ys)
      rw [hsplit] at ih
      rw [hsplit, List.modifyHead_cons] at h
      rcases List.mem_cons.mp h with rfl | h
      · intro hmem
        rcases List.mem_cons.mp hmem with rfl | hmem
        · exact hy BEq.rfl
        · exact ih List.mem_cons_self hmem
      · exact ih (List.mem_cons_of_mem _ h)

theorem plainWalk_foldl {segs : List Name} (h : PlainWalk parts) (hsegs : ∀ s ∈ segs, slash ∉ s) :
    PlainWalk (segs.foldl pushSegment parts) := by
  induction segs generalizing parts with
  | nil => exact h
  | cons s segs ih =>
    apply ih (plainWalk_pushSegment h (hsegs s List.mem_cons_self))
    exact fun t ht => hsegs t (List.mem_cons_of_mem _ ht)

theorem plainWalk_walkFrom (h : PlainWalk parts) (path : List UInt8) :
    PlainWalk (walkFrom parts path) :=
  plainWalk_foldl h fun _ => not_mem_of_mem_splitOn

theorem foldl_pushSegment_plain {segs : Position} (h : PlainWalk segs) (parts : Position) :
    segs.foldl pushSegment parts = parts ++ segs := by
  induction segs generalizing parts with
  | nil => exact (List.append_nil parts).symm
  | cons s segs ih =>
    rw [List.foldl_cons, pushSegment_plain parts (h s List.mem_cons_self),
      ih fun t ht => h t (List.mem_cons_of_mem _ ht), List.append_assoc]
    rfl

theorem walkFrom_append (parts : Position) (path rest : List UInt8) :
    walkFrom parts (path ++ slash :: rest) = walkFrom (walkFrom parts path) rest := by
  rw [walkFrom, List.splitOn_append_cons_self, List.foldl_append]
  rfl

theorem walkFrom_nil (parts : Position) : walkFrom parts [] = parts := by
  rw [walkFrom, List.splitOn_nil, List.foldl_cons, pushSegment_nil]
  rfl

theorem walkFrom_slash (parts : Position) (path : List UInt8) :
    walkFrom parts (slash :: path) = walkFrom parts path := by
  rw [← List.nil_append (slash :: path), walkFrom_append, walkFrom_nil]

theorem walkFrom_dotDot (parts : Position) : walkFrom parts dotDotName = parts.dropLast := by
  rw [walkFrom, List.splitOn_eq_singleton (by decide)]
  rfl

theorem walkFrom_pathOf (h : PlainWalk parts) : walkFrom [] (pathOf parts) = parts := by
  unfold pathOf
  split
  · next hroot =>
    rw [walkFrom_slash, walkFrom_nil, hroot]
  · next hne =>
    have hsplit := List.splitOn_intercalate slash (fun s hs => (h s hs).not_mem) hne
    rw [walkFrom_slash, walkFrom, hsplit, foldl_pushSegment_plain h, List.nil_append]

theorem plainWalk_nil : PlainWalk [] := fun _ h => absurd h List.not_mem_nil

theorem walkFrom_normalizePath (path : List UInt8) :
    walkFrom [] (normalizePath path) = walkFrom [] path :=
  walkFrom_pathOf (plainWalk_walkFrom plainWalk_nil path)

theorem walkFrom_trimSlashes (parts : Position) (path : List UInt8) :
    walkFrom parts (Vfs.trimSlashes path) = walkFrom parts path := by
  induction path using List.reverseRecOn with
  | nil => rfl
  | append_singleton path c ih =>
    rw [Vfs.trimSlashes, List.reverse_append, List.reverse_singleton, List.singleton_append]
    by_cases hc : c = slash
    · subst hc
      rw [List.dropWhile_cons_of_pos (by simp), walkFrom_append, walkFrom_nil]
      exact ih
    · rw [List.dropWhile_cons_of_neg (by simpa using hc), List.reverse_cons, List.reverse_reverse]

theorem canonicalPath_pathOf (h : PlainWalk parts) : CanonicalPath (pathOf parts) := by
  by_cases hne : parts = []
  · rw [pathOf, if_pos hne]
    exact ⟨rfl, fun hroot => absurd rfl hroot, fun _ => rfl⟩
  · have hsplit : ([slash].intercalate parts).splitOn slash = parts :=
      List.splitOn_intercalate slash (fun s hs => (h s hs).not_mem) hne
    rw [pathOf, if_neg hne]
    refine ⟨rfl, fun _ s hs => ?_, fun hlast => ?_⟩
    · rw [List.tail_cons, hsplit] at hs
      exact ⟨(h s hs).ne_nil, (h s hs).ne_dot, (h s hs).ne_dotDot⟩
    · -- a slash at the end would make the last segment empty
      cases hpath : [slash].intercalate parts using List.reverseRecOn with
      | nil => rfl
      | append_singleton path c =>
        rw [hpath, ← List.cons_append, List.getLast?_concat, Option.some.injEq] at hlast
        rw [hpath, hlast, List.splitOn_append_cons_self, List.splitOn_nil] at hsplit
        have hempty : [] ∈ parts := by
          rw [← hsplit]
          exact List.mem_append_right _ List.mem_cons_self
        exact absurd rfl (h [] hempty).ne_nil

end

/-- The laws of `normalize_path`: its result is canonical, it is idempotent, a `..` at the
end takes away the last segment if there is one, a `..` at the start does nothing, and
`resolve_path` of a relative path continues the walk to the working directory. -/
theorem normalizePath_laws (p : List UInt8) : CanonicalPath (normalizePath p) ∧
      normalizePath (normalizePath p) = normalizePath p ∧
      normalizePath (p ++ slash :: dotDotName) = pathOf (walkFrom [] p).dropLast ∧
      normalizePath (dotDotName ++ slash :: p) = normalizePath p ∧
      ∀ cwd cwdLen, cwdLen ≤ cwd.length → utf8Valid (cwd.take cwdLen) = true →
        p.head? ≠ some slash → resolvePath cwd cwdLen p =
          some (normalizePath (normalizePath (cwd.take cwdLen) ++ slash :: p)) := by
  refine ⟨canonicalPath_pathOf (plainWalk_walkFrom plainWalk_nil p), ?_, ?_, ?_, ?_⟩
  · rw [normalizePath, walkFrom_normalizePath, ← normalizePath]
  · rw [normalizePath, walkFrom_append, walkFrom_dotDot]
  · rw [normalizePath, walkFrom_append, walkFrom_dotDot]
    rfl
  · intro cwd cwdLen hlen hvalid hrel
    have hjoin : normalizePath (normalizePath (cwd.take cwdLen) ++ slash :: p) =
        pathOf (walkFrom (walkFrom [] (cwd.take cwdLen)) p) := by
      rw [normalizePath, walkFrom_append, walkFrom_normalizePath]
    rw [resolvePath, if_pos hlen, if_pos hvalid, if_neg hrel, hjoin]
    split
    · next hroot =>
      rw [hroot, normalizePath, walkFrom_slash, walkFrom_slash, walkFrom_nil]
    · rw [normalizePath, walkFrom_append, walkFrom_trimSlashes]

/-- `a/../../b` from `/tmp/`. -/
theorem normalizePath_laws_tmp : utf8Valid ((asciiBytes "/tmp/").take 5) = true ∧
      resolvePath (asciiBytes "/tmp/") 5 (asciiBytes "a/../../b") =
        some (normalizePath (normalizePath (asciiBytes "/tmp/") ++ asciiBytes "/a/../../b")) :=
  ⟨by decide, (normalizePath_laws (asciiBytes "a/../../b")).2.2.2.2 (asciiBytes "/tmp/") 5
    (by decide) (by decide) (by decide)⟩

end ZiqaKernel
