/-
Which calls of the VFS ask for the lock of the scheme registry again, or wait for
another process, while they have it.
-/
import ZiqaKernel.Schemes

namespace ZiqaKernel

open Fallible SchemeState

/-! Operations that do not offend -/

section

variable {σ α β : Type}

/-- From this state the operation neither asks for the lock of the registry while it has
it nor waits with it. -/
def Discreet (x : SchemeM σ α) (s : SchemeState σ) : Prop :=
  ∀ e, (x.run s).1 = .error e → ¬ e.Offends

variable {s : SchemeState σ}

theorem discreet_of_ok {x : SchemeM σ α} {a : α} (h : (x.run s).1 = .ok a) : Discreet x s := by
  intro e he
  rw [h] at he
  cases he

theorem discreet_of_error {x : SchemeM σ α} {e : SchemeEnd}
    (h : (x.run s).1 = .error e) : Discreet x s ↔ ¬ e.Offends := by
  refine ⟨fun hx => hx e h, fun hoff e' he' => ?_⟩
  rw [h] at he'
  cases he'
  exact hoff

@[simp]
theorem discreet_pure (a : α) (s : SchemeState σ) : Discreet (pure a : SchemeM σ α) s :=
  discreet_of_ok rfl

@[simp]
theorem discreet_gets (f : SchemeState σ → α) (s : SchemeState σ) :
    Discreet (.gets f : SchemeM σ α) s := discreet_of_ok rfl

@[simp]
theorem discreet_modify (f : SchemeState σ → SchemeState σ) (s : SchemeState σ) :
    Discreet (.modify f : SchemeM σ Unit) s := discreet_of_ok rfl

@[simp]
theorem discreet_refuse (e : AbiError) (s : SchemeState σ) :
    Discreet (refuse e : SchemeM σ α) s := (discreet_of_error rfl).mpr id

@[simp]
theorem discreet_refuseText (message : String) (s : SchemeState σ) :
    Discreet (refuseText message : SchemeM σ α) s := discreet_refuse _ s

@[simp]
theorem discreet_waitForProcess (s : SchemeState σ) :
    Discreet (waitForProcess : SchemeM σ α) s ↔ s.held = false := by
  rw [discreet_of_error rfl, SchemeEnd.Offends, Bool.not_eq_true]

@[simp]
theorem discreet_onDevices (f : σ → Except AbiError α × σ) (s : SchemeState σ) :
    Discreet (onDevices f) s := by
  intro e he
  change (f s.devices).1.mapError SchemeEnd.refused = .error e at he
  cases hf : (f s.devices).1 with
  | ok a =>
    rw [hf] at he
    cases he
  | error err =>
    rw [hf] at he
    cases he
    exact id

@[simp]
theorem discreet_gets_bind (f : SchemeState σ → α) (g : α → SchemeM σ β)
    (s : SchemeState σ) : Discreet (.gets f >>= g) s ↔ Discreet (g (f s)) s := Iff.rfl

@[simp]
theorem discreet_modify_bind (f : SchemeState σ → SchemeState σ) (g : Unit → SchemeM σ β)
    (s : SchemeState σ) : Discreet (.modify f >>= g) s ↔ Discreet (g ()) (f s) := Iff.rfl

@[simp]
theorem discreet_waitForInterrupt_bind (g : Unit → SchemeM σ β) (s : SchemeState σ) :
    Discreet (waitForInterrupt >>= g) s ↔
      Discreet (g ()) { s with irqs := s.inputs.wokenIrqs } := Iff.rfl

theorem discreet_bind (x : SchemeM σ α) (f : α → SchemeM σ β) (s : SchemeState σ) :
    Discreet (x >>= f) s ↔ Discreet x s ∧ ∀ a s', x.run s = (.ok a, s') → Discreet (f a) s' := by
  rcases hx : x.run s with ⟨r, s'⟩
  cases r with
  | ok a =>
    have hrun : (x >>= f).run s = (f a).run s' := run_bind_of_ok hx
    have hfirst : Discreet x s := discreet_of_ok (by rw [hx])
    have hrest : Discreet (x >>= f) s ↔ Discreet (f a) s' := by rw [Discreet, hrun, Discreet]
    rw [hrest]
    refine ⟨fun h => ⟨hfirst, ?_⟩, fun h => h.2 a s' rfl⟩
    rintro _ _ ⟨⟩
    exact h
  | error e =>
    have hrun : (x >>= f).run s = (.error e, s') := run_bind_of_error hx
    rw [discreet_of_error (by rw [hrun]), discreet_of_error (x := x) (by rw [hx])]
    refine ⟨fun h => ⟨h, fun a s1 h1 => by cases h1⟩, fun h => h.1⟩

@[simp]
theorem discreet_refuseText_bind (message : String) (g : α → SchemeM σ β)
    (s : SchemeState σ) : Discreet (refuseText message >>= g) s :=
  (discreet_of_error rfl).mpr id

theorem discreet_attempt_bind (x : SchemeM σ α) (g : Except SchemeEnd α → SchemeM σ β)
    (s : SchemeState σ) :
    Discreet (x.attempt >>= g) s ↔ Discreet (g (x.run s).1) (x.run s).2 := Iff.rfl

theorem discreet_lockRegistry_of_free (h : s.held = false)
    (g : Unit → SchemeM σ β) : Discreet (lockRegistry >>= g) s ↔ Discreet (g ()) s.locked := by
  have hrun : (lockRegistry : SchemeM σ Unit).run s = (.ok (), s.locked) := by
    change (if s.held then _ else _) = _
    rw [h]
    rfl
  rw [Discreet, run_bind_of_ok hrun, Discreet]

theorem discreet_lockRegistry_of_held (h : s.held = true)
    (g : Unit → SchemeM σ β) : ¬ Discreet (lockRegistry >>= g) s := by
  have hrun : ((lockRegistry : SchemeM σ Unit) >>= g).run s = (.error .reacquires, s) := by
    refine run_bind_of_error ?_
    change (if s.held then _ else _) = _
    rw [if_pos h]
  rw [discreet_of_error (by rw [hrun])]
  exact fun hno => hno trivial

@[simp]
theorem discreet_ite (c : Prop) [Decidable c] (x y : SchemeM σ α) (s : SchemeState σ) :
    Discreet (if c then x else y) s ↔ if c then Discreet x s else Discreet y s := by
  split <;> rfl

end

/-! The schemes -/

variable {path : List UInt8}

theorem mem_dropWhile {α : Type} {p : α → Bool} {x : α} {xs : List α} (hp : p x = false)
    (hmem : x ∈ xs) : x ∈ xs.dropWhile p := by
  rw [← List.takeWhile_append_dropWhile (p := p) (l := xs), List.mem_append] at hmem
  refine hmem.resolve_left fun htake => ?_
  rw [List.mem_takeWhile_imp htake] at hp
  cases hp

theorem exists_mem_splitOnP {α : Type} {p : α → Bool} {x : α} {xs : List α}
    (hp : p x = false) (hmem : x ∈ xs) : ∃ part ∈ xs.splitOnP p, x ∈ part := by
  induction xs with
  | nil => cases hmem
  | cons y ys ih =>
    rw [List.splitOnP_cons_eq_if_modifyHead]
    split
    · next hy =>
      have hne : x ≠ y := fun h => by simp [h, hy] at hp
      obtain ⟨part, hpart, hx⟩ := ih ((List.mem_cons.mp hmem).resolve_left hne)
      exact ⟨part, List.mem_cons_of_mem _ hpart, hx⟩
    · obtain ⟨first, rest, hsplit⟩ := List.exists_cons_of_ne_nil (List.splitOnP_ne_nil p ys)
      rw [hsplit] at ih
      rw [hsplit, List.modifyHead_cons]
      rcases List.mem_cons.mp hmem with rfl | hys
      · exact ⟨_, List.mem_cons_self, List.mem_cons_self⟩
      · obtain ⟨part, hpart, hx⟩ := ih hys
        rcases List.mem_cons.mp hpart with rfl | hrest
        · exact ⟨_, List.mem_cons_self, List.mem_cons_of_mem _ hx⟩
        · exact ⟨part, List.mem_cons_of_mem _ hrest, hx⟩

theorem components_ne_nil (hcolon : colon ∈ path) : components path ≠ [] := by
  obtain ⟨part, hpart, hx⟩ :=
    exists_mem_splitOnP (p := (· == slash)) (by decide) hcolon
  refine List.ne_nil_of_mem (a := part) ?_
  rw [components, List.splitOn_eq_splitOnP, List.mem_filter]
  exact ⟨hpart, decide_eq_true (List.ne_nil_of_mem hx)⟩

section

variable {σ : Type} {s : SchemeState σ} (name : Name)

theorem discreet_memoryOpen (handles : HandleTable MemoryHandle)
    (path : List UInt8) : Discreet (memoryOpen name handles path) s := by
  simp [memoryOpen]

theorem discreet_irqOpen (path : List UInt8) : Discreet (irqOpen path) s := by
  simp only [irqOpen, discreet_gets_bind, discreet_ite, discreet_refuse]
  split
  · split
    · split
      · exact discreet_refuseText _ _
      · exact discreet_of_ok rfl
    · exact discreet_refuseText _ _
  · trivial

theorem discreet_serioOpen (path : List UInt8) : Discreet (serioOpen path) s := by
  unfold serioOpen
  split
  · exact discreet_refuseText _ _
  · exact discreet_of_ok rfl

/-- The daemon opens by a path that begins with the colon; whoever else opens has to
wait for the daemon. -/
theorem discreet_userOpen (hheld : s.held = true) (name : Name) (u : UserScheme)
    (path : List UInt8) :
    Discreet (userOpen name u path) s ↔ path.head? = some colon := by
  unfold userOpen userCall
  simp [setScheme, hheld]

theorem discreet_sysSchemeOpen (handles : HandleTable TextHandle)
    (hcolon : colon ∈ path) :
    Discreet (sysSchemeOpen name handles path) s := by
  have hne : path.dropWhile (· = slash) ≠ asciiBytes "scheme" := by
    intro h
    have hmem := mem_dropWhile (p := (· = slash)) (by decide) hcolon
    rw [h] at hmem
    revert hmem
    decide
  unfold sysSchemeOpen sysText
  rw [if_neg hne, discreet_bind]
  refine ⟨?_, fun _ _ _ => discreet_of_ok rfl⟩
  simp

theorem discreet_namespaceOpen (handles : HandleTable NamespaceHandle)
    (hcolon : colon ∈ path) :
    Discreet (namespaceOpen name handles path) s := by
  unfold namespaceOpen
  rw [discreet_modify_bind, discreet_bind]
  refine ⟨?_, fun _ _ _ => discreet_of_ok rfl⟩
  unfold namespaceResource
  split
  · next hnil => exact absurd hnil (components_ne_nil hcolon)
  · rw [discreet_gets_bind]
    split
    · exact discreet_refuseText _ _
    · exact discreet_pure _ _
  · rw [discreet_gets_bind]
    split
    · exact discreet_refuseText _ _
    · simp
  · exact discreet_refuseText _ _

def Scheme.OpenFree (path : List UInt8) : Scheme σ → Prop
  | .user _ => path.head? = some colon
  | _ => True

theorem discreet_openPath (hheld : s.held = true) (name : Name)
    (hcolon : colon ∈ path) (flags : Nat) (scheme : Scheme σ) :
    Discreet (scheme.openPath name path flags) s ↔ scheme.OpenFree path := by
  cases scheme with
  | irq => exact iff_of_true (discreet_irqOpen path) trivial
  | memory handles => exact iff_of_true (discreet_memoryOpen name handles path) trivial
  | serio => exact iff_of_true (discreet_serioOpen path) trivial
  | user u => exact discreet_userOpen hheld name u path
  | sys handles => exact iff_of_true (discreet_sysSchemeOpen name handles hcolon) trivial
  | namespaces handles =>
    exact iff_of_true (discreet_namespaceOpen name handles hcolon) trivial
  | plain ops => exact iff_of_true (discreet_onDevices _ _) trivial
  | debug | pipe | time | keyboard | dtb | event | rand =>
    exact iff_of_true (discreet_of_ok rfl) trivial

/-- A reader waits for another process at an empty pipe or queue, or for a daemon. -/
def Scheme.ReadFree (queues : Nat → Option (List IoEvent)) (id : Nat) : Scheme σ → Prop
  | .pipe pipes => pipes id ≠ some []
  | .event => queues id ≠ some []
  | .user _ => id = usizeMax
  | _ => True

theorem discreet_pipeRead (hheld : s.held = true) (name : Name)
    (pipes : Nat → Option (List UInt8)) (id count : Nat) :
    Discreet (pipeRead name pipes id count) s ↔ pipes id ≠ some [] := by
  unfold pipeRead
  split
  · next hnone => simp [hnone]
  · next hempty => simp [hempty, hheld]
  · next queue hne hsome =>
    refine iff_of_true (discreet_of_ok rfl) ?_
    rw [hsome]
    exact fun h => hne (Option.some.inj h)

theorem discreet_eventRead (hheld : s.held = true) (id count : Nat) :
    Discreet (eventRead id count) s ↔ s.queues id ≠ some [] := by
  unfold eventRead
  rw [discreet_gets_bind]
  split
  · next hnone => simp [hnone]
  · next hempty => simp [hempty, hheld]
  · next hsome => simp [hsome]

theorem discreet_userRead (hheld : s.held = true) (name : Name) (u : UserScheme)
    (id count : Nat) : Discreet (userRead name u id count) s ↔ id = usizeMax := by
  unfold userRead userCall
  by_cases hid : id = usizeMax
  · rw [if_pos hid, discreet_ite]
    refine iff_of_true ?_ hid
    split
    · exact discreet_refuseText _ _
    · split
      · exact discreet_refuseText _ _
      · exact discreet_of_ok rfl
  · simp [hid, setScheme, hheld]

theorem discreet_irqRead (id count : Nat) : Discreet (irqRead id count) s := by
  unfold irqRead
  rw [discreet_gets_bind]
  split
  · exact discreet_refuseText _ _
  · rw [discreet_waitForInterrupt_bind, discreet_gets_bind]
    split
    · exact discreet_refuseText _ _
    · exact discreet_of_ok rfl

theorem discreet_memoryRead (handles : HandleTable MemoryHandle)
    (id count : Nat) : Discreet (memoryRead name handles id count) s := by
  unfold memoryRead
  split
  · exact discreet_refuseText _ _
  · exact discreet_refuseText _ _
  · exact discreet_of_ok rfl

theorem discreet_serioRead (id count : Nat) : Discreet (serioRead id count) s := by
  unfold serioRead
  rw [discreet_gets_bind]
  split
  · exact discreet_refuseText _ _
  · exact discreet_refuseText _ _
  · simp

theorem discreet_read (hheld : s.held = true) (name : Name) (id count : Nat) (scheme : Scheme σ) :
    Discreet (scheme.read name id count) s ↔ scheme.ReadFree s.queues id := by
  cases scheme with
  | pipe pipes => exact discreet_pipeRead hheld name pipes id count
  | event => exact discreet_eventRead hheld id count
  | user u => exact discreet_userRead hheld name u id count
  | debug => exact iff_of_true (discreet_refuse _ _) trivial
  | keyboard => exact iff_of_true (discreet_refuseText _ _) trivial
  | time | rand => exact iff_of_true (discreet_of_ok rfl) trivial
  | irq => exact iff_of_true (discreet_irqRead id count) trivial
  | memory handles => exact iff_of_true (discreet_memoryRead name handles id count) trivial
  | serio => exact iff_of_true (discreet_serioRead id count) trivial
  | dtb | sys | namespaces =>
    refine iff_of_true ?_ trivial
    simp only [Scheme.read, dtbRead, sysSchemeRead, namespaceRead]
    split
    · exact discreet_refuseText _ _
    · exact discreet_of_ok rfl
  | plain ops => exact iff_of_true (discreet_onDevices _ _) trivial

/-- A writer locks the registry with its first entry for an event queue, and waits for a
daemon. -/
def Scheme.WriteFree (queues : Nat → Option (List IoEvent)) (id : Nat) (buf : List UInt8) :
    Scheme σ → Prop
  | .event => queues id = none ∨ splitInterest buf = none
  | .user _ => id = usizeMax
  | _ => True

theorem not_discreet_registerInterest (hheld : s.held = true) (queueId : Nat)
    (i : Interest) : ¬ Discreet (registerInterest queueId i) s := by
  unfold registerInterest
  rw [discreet_modify_bind]
  apply discreet_lockRegistry_of_held
  exact hheld

theorem discreet_registerAll (hheld : s.held = true) (queueId : Nat) (buf : List UInt8) :
    Discreet (registerAll queueId buf.length buf) s ↔ splitInterest buf = none := by
  cases buf with
  | nil => exact iff_of_true (discreet_pure _ _) rfl
  | cons b rest =>
    rw [List.length_cons, registerAll]
    split
    · next hnone => exact iff_of_true (discreet_refuseText _ _) hnone
    · next i rest hsome =>
      rw [discreet_bind, hsome]
      refine iff_of_false (fun h => ?_) (fun h => by cases h)
      exact not_discreet_registerInterest hheld queueId i h.1
    · intro h
      cases h

theorem discreet_eventWrite (hheld : s.held = true) (id : Nat) (buf : List UInt8) :
    Discreet (eventWrite id buf) s ↔ s.queues id = none ∨ splitInterest buf = none := by
  unfold eventWrite
  rw [discreet_gets_bind]
  split
  · next hnone => exact iff_of_true (discreet_refuseText _ _) (.inl hnone)
  · next queue hsome =>
    rw [discreet_bind, discreet_registerAll hheld, hsome]
    simp

theorem discreet_userWrite (hheld : s.held = true) (name : Name) (u : UserScheme) (id : Nat)
    (buf : List UInt8) : Discreet (userWrite name u id buf) s ↔ id = usizeMax := by
  unfold userWrite userCall
  by_cases hid : id = usizeMax
  · simp [hid]
  · simp [hid, setScheme, hheld]

theorem discreet_pipeWrite (pipes : Nat → Option (List UInt8)) (id : Nat)
    (buf : List UInt8) : Discreet (pipeWrite name pipes id buf) s := by
  unfold pipeWrite
  split
  · exact discreet_refuseText _ _
  · exact discreet_of_ok rfl

theorem discreet_memoryWrite (handles : HandleTable MemoryHandle) (id : Nat)
    (buf : List UInt8) : Discreet (memoryWrite name handles id buf) s := by
  unfold memoryWrite
  split
  · exact discreet_refuseText _ _
  · exact discreet_refuseText _ _
  · exact discreet_of_ok rfl

theorem discreet_serioWrite (id : Nat) (buf : List UInt8) : Discreet (serioWrite id buf) s := by
  unfold serioWrite
  rw [discreet_gets_bind]
  split
  · exact discreet_refuseText _ _
  · exact discreet_refuseText _ _
  · exact discreet_of_ok rfl
  · exact discreet_pure _ _

theorem discreet_namespaceWrite (handles : HandleTable NamespaceHandle)
    (id : Nat) (buf : List UInt8) : Discreet (namespaceWrite name handles id buf) s := by
  unfold namespaceWrite
  split
  · exact discreet_refuseText _ _
  · simp
  · exact discreet_refuseText _ _

theorem discreet_write (hheld : s.held = true) (name : Name) (id : Nat) (buf : List UInt8)
    (scheme : Scheme σ) :
    Discreet (scheme.write name id buf) s ↔ scheme.WriteFree s.queues id buf := by
  cases scheme with
  | event => exact discreet_eventWrite hheld id buf
  | user u => exact discreet_userWrite hheld name u id buf
  | debug | keyboard | rand => exact iff_of_true (discreet_of_ok rfl) trivial
  | time | irq | sys => exact iff_of_true (discreet_refuseText _ _) trivial
  | dtb => exact iff_of_true (discreet_refuse _ _) trivial
  | pipe pipes => exact iff_of_true (discreet_pipeWrite name pipes id buf) trivial
  | memory handles => exact iff_of_true (discreet_memoryWrite name handles id buf) trivial
  | serio => exact iff_of_true (discreet_serioWrite id buf) trivial
  | namespaces handles =>
    exact iff_of_true (discreet_namespaceWrite name handles id buf) trivial
  | plain ops => exact iff_of_true (discreet_onDevices _ _) trivial

def Scheme.CloseFree (id : Nat) : Scheme σ → Prop
  | .user _ => id = usizeMax
  | _ => True

theorem discreet_close (hheld : s.held = true) (name : Name) (id : Nat) (scheme : Scheme σ) :
    Discreet (scheme.close name id) s ↔ scheme.CloseFree id := by
  cases scheme with
  | user u =>
    simp [Scheme.close, Scheme.CloseFree, userClose, userCall, setScheme, hheld]
  | memory | sys =>
    refine iff_of_true ?_ trivial
    simp only [Scheme.close, memoryClose, sysSchemeClose]
    split
    · exact discreet_refuseText _ _
    · exact discreet_modify _ _
  | plain ops => exact iff_of_true (discreet_onDevices _ _) trivial
  | debug | pipe | time | irq | keyboard | dtb | event | serio | rand | namespaces =>
    exact iff_of_true (discreet_of_ok rfl) trivial

end

/-! The calls -/

section

variable {σ α : Type} {s : SchemeState σ}

theorem discreet_withRegistry (hfree : s.held = false) (body : SchemeM σ α) :
    Discreet (withRegistry body) s ↔ Discreet body s.locked := by
  unfold withRegistry
  rw [discreet_lockRegistry_of_free hfree, discreet_attempt_bind]
  cases hend : (body.run s.locked).1 with
  | ok a => exact iff_of_true (discreet_of_ok rfl) (discreet_of_ok hend)
  | error e =>
    rw [discreet_of_error hend]
    cases e with
    | refused err => exact iff_of_true ((discreet_of_error rfl).mpr id) id
    | reacquires => exact discreet_of_error rfl
    | waits holding => exact discreet_of_error rfl

inductive VfsCall (σ : Type) where
  | handleScheme (path : List UInt8) (flags : Nat)
  | openPath (path : List UInt8) (flags : Nat)
  | read (handle : VfsHandle σ) (count offset : Nat)
  | write (handle : VfsHandle σ) (buf : List UInt8) (offset : Nat)
  | close (handle : VfsHandle σ)

namespace VfsCall

def run : VfsCall σ → SchemeM σ Unit
  | .handleScheme path flags => do let _ ← ZiqaKernel.handleScheme path flags
  | .openPath path flags => do let _ ← vfsOpen path flags
  | .read handle count offset => do let _ ← vfsRead count offset handle
  | .write handle buf offset => do let _ ← vfsWrite buf offset handle
  | .close handle => vfsClose handle

/-- The scheme that a path or a handle reaches has nobody wait or lock. -/
def Free (s : SchemeState σ) : VfsCall σ → Prop
  | .handleScheme path _ | .openPath path _ =>
    colon ∈ path → ∀ scheme, s.scheme (schemeName path) = some scheme → scheme.OpenFree path
  | .read (.scheme name id) _ _ =>
    ∀ scheme, s.scheme name = some scheme → scheme.ReadFree s.queues id
  | .write (.scheme name id) buf _ =>
    ∀ scheme, s.scheme name = some scheme → scheme.WriteFree s.queues id buf
  | .close (.scheme name id) => ∀ scheme, s.scheme name = some scheme → scheme.CloseFree id
  | _ => True

end VfsCall

theorem discreet_withScheme (hfree : s.held = false) (name : Name) (missing : SchemeM σ α)
    (op : Scheme σ → SchemeM σ α) (P : Scheme σ → Prop) (hmissing : Discreet missing s.locked)
    (hop : ∀ scheme, Discreet (op scheme) s.locked ↔ P scheme) :
    Discreet (withRegistry do
      match ← .gets fun s => s.scheme name with
      | none => missing
      | some scheme => op scheme) s ↔
      ∀ scheme, s.scheme name = some scheme → P scheme := by
  rw [discreet_withRegistry hfree, discreet_gets_bind]
  have hscheme : s.locked.scheme name = s.scheme name := rfl
  rw [hscheme]
  cases s.scheme name with
  | none => exact iff_of_true hmissing fun _ h => by cases h
  | some scheme =>
    exact (hop scheme).trans ⟨fun h _ heq => Option.some.inj heq ▸ h, fun h => h scheme rfl⟩

theorem discreet_handleScheme (hfree : s.held = false) (path : List UInt8) (flags : Nat) :
    Discreet (handleScheme path flags) s ↔ (colon ∈ path →
      ∀ scheme, s.scheme (schemeName path) = some scheme → scheme.OpenFree path) := by
  unfold handleScheme
  by_cases hcolon : colon ∈ path
  · rw [if_pos (List.contains_iff_mem.mpr hcolon)]
    refine (discreet_withScheme hfree (schemeName path) _ _ (·.OpenFree path)
      (discreet_pure _ _) fun scheme => ?_).trans ⟨fun h _ => h, fun h => h hcolon⟩
    rw [discreet_bind, discreet_openPath (s := s.locked) rfl _ hcolon]
    exact and_iff_left fun _ _ _ => discreet_pure _ _
  · rw [if_neg (mt List.contains_iff_mem.mp hcolon)]
    exact iff_of_true (discreet_pure _ _) fun h => absurd h hcolon

theorem discreet_vfsOpen (path : List UInt8) (flags : Nat) :
    Discreet (vfsOpen path flags) s ↔ Discreet (handleScheme path flags) s := by
  unfold vfsOpen
  rw [discreet_bind]
  refine and_iff_left fun opened s' _ => ?_
  cases opened with
  | some id => exact discreet_pure _ _
  | none =>
    dsimp only
    rw [discreet_gets_bind]
    split
    · exact discreet_refuse _ _
    · split
      · exact discreet_pure _ _
      · exact discreet_refuseText _ _

theorem discreet_onScheme (hfree : s.held = false) (name : Name)
    (op : Scheme σ → SchemeM σ α) (P : Scheme σ → Prop)
    (hop : ∀ scheme, Discreet (op scheme) s.locked ↔ P scheme) :
    Discreet (onScheme name op) s ↔ ∀ scheme, s.scheme name = some scheme → P scheme :=
  discreet_withScheme hfree name _ op P (discreet_refuseText _ _) hop

theorem discreet_discard (x : SchemeM σ α) (s : SchemeState σ) :
    Discreet (do let _ ← x) s ↔ Discreet x s := by
  rw [discreet_bind]
  exact and_iff_left fun _ _ _ => discreet_pure _ _

/-- A call that finds the lock of the registry free neither asks for it twice nor waits
with it exactly when it meets the condition. -/
theorem discreet_iff_free (call : VfsCall σ) (s : SchemeState σ) (hfree : s.held = false) :
    (∀ e, (call.run.run s).1 = .error e → ¬ e.Offends) ↔ call.Free s := by
  change Discreet call.run s ↔ call.Free s
  cases call with
  | handleScheme path flags =>
    exact (discreet_discard _ _).trans (discreet_handleScheme hfree path flags)
  | openPath path flags =>
    exact ((discreet_discard _ _).trans (discreet_vfsOpen path flags)).trans
      (discreet_handleScheme hfree path flags)
  | read handle count offset =>
    refine (discreet_discard _ _).trans ?_
    cases handle with
    | file ops => exact iff_of_true (discreet_onDevices _ _) trivial
    | scheme name id =>
      refine discreet_onScheme hfree name _ _ fun scheme => ?_
      exact discreet_read (s := s.locked) rfl name id count scheme
  | write handle buf offset =>
    refine (discreet_discard _ _).trans ?_
    cases handle with
    | file ops => exact iff_of_true (discreet_onDevices _ _) trivial
    | scheme name id =>
      refine discreet_onScheme hfree name _ _ fun scheme => ?_
      exact discreet_write (s := s.locked) rfl name id buf scheme
  | close handle =>
    cases handle with
    | file ops => exact iff_of_true (discreet_pure _ _) trivial
    | scheme name id =>
      refine discreet_onScheme hfree name _ _ fun scheme => ?_
      exact discreet_close (s := s.locked) rfl name id scheme

end

/-! The schemes after the boot -/

def refusingScheme : PlainScheme Unit where
  openPath _ _ s := (.error (.other "unknown path"), s)
  read _ _ s := (.error (.other "bad handle"), s)
  write _ _ s := (.error (.other "bad handle"), s)
  close _ s := (.ok (), s)

/-- The kernel after the boot, where none of the schemes that are given by their answers
knows a path. -/
def bootSchemes : SchemeState Unit :=
  .boot (initSchemes refusingScheme refusingScheme refusingScheme refusingScheme
    refusingScheme refusingScheme) () ⟨[], 0, 0, [], fun _ => none, 0⟩

theorem discreet_bootOpen : bootSchemes.held = false ∧ ∀ e,
      ((VfsCall.openPath (asciiBytes "pipe:") 0).run.run bootSchemes).1 = .error e →
        ¬ e.Offends := by
  refine ⟨rfl, (discreet_iff_free _ bootSchemes rfl).mpr fun _ scheme hscheme => ?_⟩
  have hpipe : some (Scheme.pipe fun _ => none) = some scheme := hscheme
  rw [← Option.some.inj hpipe]
  trivial

def openedSchemes : SchemeState Unit :=
  ((VfsCall.openPath (asciiBytes "pipe:") 0).run.run
    ((VfsCall.openPath (asciiBytes "event:") 0).run.run bootSchemes).2).2

def pipeInterest : List UInt8 :=
  [4] ++ asciiBytes "pipe" ++ leBytes 8 1 ++ leBytes 8 1 ++ leBytes 8 0

/-- To be told of a pipe locks the registry twice, and a read of the empty pipe keeps the
registry locked until somebody writes, for which the registry is needed. -/
theorem openedSchemes_offend : ∃ s : SchemeState Unit, s.held = false ∧
      ((VfsCall.write (.scheme (asciiBytes "event") 1) pipeInterest 0).run.run s).1 =
        .error .reacquires ∧
      ((VfsCall.read (.scheme (asciiBytes "pipe") 1) 1 0).run.run s).1 = .error (.waits true) :=
  ⟨openedSchemes, rfl, rfl, rfl⟩

end ZiqaKernel
