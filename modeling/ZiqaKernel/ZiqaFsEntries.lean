/-
Directory blocks of ZiqaFS: which entries a block holds, and what adding and
removing one does to them.  `write_entry_raw` takes the first slot that is free,
however long the entry was that used to be there; the other entries survive only
where the new entry is exactly as long, or nothing follows.
-/
import ZiqaKernel.RecordWalk
import ZiqaKernel.ZiqaFsDir

namespace ZiqaKernel

open Image

section

variable {buf buf' : Block} {off o : Nat} {target t : UInt32} {name n : Name}

def entryNameLen (buf : Block) (off : Nat) : Nat := (u16At buf.get (off + 4)).toNat

def entryLength (buf : Block) (off : Nat) : Nat := (u16At buf.get (off + 6)).toNat

/-- `dirent_foreach` goes on behind the entry at `off`. -/
structure HeaderOk (buf : Block) (off : Nat) : Prop where
  room : off + 8 ≤ 4096
  low : 8 ≤ entryLength buf off
  high : entryLength buf off ≤ 260
  fits : off + entryLength buf off ≤ 4096

/-- The offsets at which `dirent_foreach` looks for an entry. -/
abbrev Visits (buf : Block) : Nat → Prop := Walk (entryLength buf) (HeaderOk buf)

/-- Entries are no longer than the longest one that `dirent_foreach` accepts, and
a name ends before the next entry begins. -/
structure Tidy (buf : Block) : Prop where
  length_le : ∀ off, Visits buf off → off + 8 ≤ 4096 → entryLength buf off ≤ 260
  name_le : ∀ off, Visits buf off → HeaderOk buf off →
    8 + entryNameLen buf off ≤ entryLength buf off

def entrySpan (name : Name) : Nat := (8 + name.length + 3) / 4 * 4

/-- The entry at `off` is one that `write_entry_raw` goes past. -/
def Occupied (buf : Block) (off : Nat) : Prop :=
  u32At buf.get off ≠ 0 ∧ 8 ≤ entryLength buf off

theorem entrySlot_some {span fuel : Nat} (ho : Walk (entryLength buf) (Occupied buf) o)
    (h : entrySlot buf span fuel o = some off) :
    Walk (entryLength buf) (Occupied buf) off ∧ ¬ Occupied buf off ∧ off + span ≤ 4096 := by
  induction fuel generalizing o with
  | zero => simp [entrySlot] at h
  | succ fuel ih =>
    unfold entrySlot at h
    dsimp only at h
    split_ifs at h with hfull hzero hshort
    · obtain rfl := Option.some.inj h
      exact ⟨ho, fun hocc => hocc.1 hzero, by omega⟩
    · obtain rfl := Option.some.inj h
      refine ⟨ho, fun hocc => ?_, by omega⟩
      have hlow := hocc.2
      unfold entryLength at hlow
      omega
    · refine ih (ho.next ⟨hzero, ?_⟩) h
      unfold entryLength
      omega

/-- The block with the entry written at `off`. -/
def placeEntry (buf : Block) (off : Nat) (target : UInt32) (name : Name) : Block :=
  (((buf.splice off 4 (le32 target)).splice (off + 4) 2
    (le16 (UInt16.ofNat name.length))).splice (off + 6) 2
    (le16 (UInt16.ofNat (entrySpan name)))).splice (off + 8) name.length
    fun k => name.getD k 0

theorem writeEntryRaw_ok (h : writeEntryRaw buf target name = .ok buf') :
    name.length ≤ 252 ∧ ∃ off, entrySlot buf (entrySpan name) 513 0 = some off ∧
      buf' = placeEntry buf off target name := by
  unfold writeEntryRaw at h
  split_ifs at h with hlong
  refine ⟨by omega, ?_⟩
  dsimp only at h
  cases hslot : entrySlot buf ((8 + name.length + 3) / 4 * 4) 513 0 with
  | none => simp [hslot] at h
  | some off =>
    rw [hslot] at h
    exact ⟨off, hslot, (Except.ok.inj h).symm⟩

/-- A slot of the block into which an entry `name` can be written without damage
to the others. -/
structure SlotClean (buf : Block) (name : Name) (off : Nat) : Prop where
  walk : Walk (entryLength buf) (Occupied buf) off
  unoccupied : ¬ Occupied buf off
  fits : off + entrySpan name ≤ 4096
  short : name.length ≤ 252
  clean : entryLength buf off = entrySpan name ∨ ∀ k, off ≤ k → buf.get k = 0

theorem placeEntry_outside (buf : Block) (target : UInt32) {k : Nat}
    (hk : k < off ∨ off + 8 + name.length ≤ k) :
    (placeEntry buf off target name).get k = buf.get k := by
  unfold placeEntry
  rw [get_splice_outside _ _ (by omega), get_splice_outside _ _ (by omega),
    get_splice_outside _ _ (by omega), get_splice_outside _ _ (by omega)]

theorem placeEntry_inode (buf : Block) (target : UInt32) (hfit : off + entrySpan name ≤ 4096) :
    u32At (placeEntry buf off target name).get off = target := by
  unfold entrySpan at hfit
  refine u32At_eq fun k hk => ?_
  unfold placeEntry
  rw [get_splice_outside _ _ (by omega), get_splice_outside _ _ (by omega),
    get_splice_outside _ _ (by omega),
    get_splice_inside _ _ hk (by omega)]

theorem placeEntry_nameLen (buf : Block) (target : UInt32)
    (hfit : off + entrySpan name ≤ 4096) (hshort : name.length ≤ 252) :
    entryNameLen (placeEntry buf off target name) off = name.length := by
  have hlen : u16At (placeEntry buf off target name).get (off + 4) = UInt16.ofNat name.length := by
    unfold entrySpan at hfit
    refine u16At_eq fun k hk => ?_
    unfold placeEntry
    rw [get_splice_outside _ _ (by omega), get_splice_outside _ _ (by omega),
      get_splice_inside _ _ hk (by omega)]
  rw [entryNameLen, hlen, UInt16.toNat_ofNat']
  omega

theorem placeEntry_length (buf : Block) (target : UInt32) (hfit : off + entrySpan name ≤ 4096) :
    entryLength (placeEntry buf off target name) off = entrySpan name := by
  have hlen : u16At (placeEntry buf off target name).get (off + 6) =
      UInt16.ofNat (entrySpan name) := by
    unfold entrySpan at hfit
    refine u16At_eq fun k hk => ?_
    unfold placeEntry
    rw [get_splice_outside _ _ (by omega), get_splice_inside _ _ hk (by omega)]
  rw [entryLength, hlen, UInt16.toNat_ofNat']
  omega

theorem placeEntry_name (buf : Block) (target : UInt32) (hfit : off + entrySpan name ≤ 4096) :
    (placeEntry buf off target name).slice (off + 8) name.length = name := by
  unfold entrySpan at hfit
  refine List.ext_getElem? fun k => ?_
  by_cases hk : k < name.length
  · rw [getElem?_slice _ _ hk]
    unfold placeEntry
    rw [get_splice_inside _ _ hk (by omega), List.getD_eq_getElem?_getD,
      List.getElem?_eq_getElem hk, Option.getD_some]
  · rw [List.getElem?_eq_none (by rw [length_slice]; omega), List.getElem?_eq_none (by omega)]

/-- Two blocks with the same eight bytes at `o`. -/
structure SameHeader (buf buf' : Block) (o : Nat) : Prop where
  inode : u32At buf'.get o = u32At buf.get o
  nameLen : entryNameLen buf' o = entryNameLen buf o
  length : entryLength buf' o = entryLength buf o

theorem SameHeader.of_bytes (h : ∀ k < 8, buf'.get (o + k) = buf.get (o + k)) :
    SameHeader buf buf' o where
  inode := u32At_congr fun k hk => h k (by omega)
  nameLen := by
    refine congrArg UInt16.toNat (u16At_congr fun k hk => ?_)
    rw [Nat.add_assoc]
    exact h (4 + k) (by omega)
  length := by
    refine congrArg UInt16.toNat (u16At_congr fun k hk => ?_)
    rw [Nat.add_assoc]
    exact h (6 + k) (by omega)

theorem SameHeader.symm (h : SameHeader buf buf' o) : SameHeader buf' buf o :=
  ⟨h.inode.symm, h.nameLen.symm, h.length.symm⟩

theorem SameHeader.headerOk (h : SameHeader buf buf' o) (hok : HeaderOk buf' o) :
    HeaderOk buf o where
  room := hok.room
  low := h.length ▸ hok.low
  high := h.length ▸ hok.high
  fits := h.length ▸ hok.fits

theorem HeaderOk.pos (h : HeaderOk buf o) : 0 < entryLength buf o := by
  have hlow := h.low
  omega

theorem Occupied.pos (h : Occupied buf o) : 0 < entryLength buf o := by
  have hlow := h.2
  omega

theorem entrySpan_ge (name : Name) : 8 + name.length ≤ entrySpan name := by
  unfold entrySpan
  omega

namespace SlotClean

variable (h : SlotClean buf name off)
include h

theorem span_le : entrySpan name ≤ 260 := by
  have hshort := h.short
  unfold entrySpan
  omega

theorem apart (ho : Visits buf o) (hne : o ≠ off) :
    (8 ≤ entryLength buf o ∧ o + entryLength buf o ≤ off) ∨
      (off + entrySpan name ≤ o ∧ entryLength buf off = entrySpan name) := by
  rcases Nat.lt_or_gt_of_ne hne with hlt | hgt
  · obtain ⟨hocc, hle⟩ := Walk.passed (fun _ => HeaderOk.pos) (fun _ => Occupied.pos) ho h.walk hlt
    exact Or.inl ⟨hocc.2, hle⟩
  · obtain ⟨hheader, hle⟩ := Walk.passed (fun _ => Occupied.pos) (fun _ => HeaderOk.pos)
      h.walk ho hgt
    rcases h.clean with hsame | hzero
    · exact Or.inr ⟨hsame ▸ hle, hsame⟩
    · have hlow := hheader.low
      unfold entryLength u16At at hlow
      rw [hzero _ (by omega), hzero _ (by omega)] at hlow
      exact absurd hlow (by decide)

theorem sameHeader (target : UInt32) (ho : Visits buf o) (hne : o ≠ off) :
    SameHeader buf (placeEntry buf off target name) o := by
  refine .of_bytes fun k hk => placeEntry_outside _ _ ?_
  have hspan := entrySpan_ge name
  rcases h.apart ho hne with ⟨hlow, hle⟩ | ⟨hle, -⟩ <;> omega

theorem slice_eq (target : UInt32) (htidy : Tidy buf) (ho : Visits buf o)
    (hheader : HeaderOk buf o) (hne : o ≠ off) :
    (placeEntry buf off target name).slice (o + 8) (entryNameLen buf o) =
      buf.slice (o + 8) (entryNameLen buf o) := by
  unfold Image.slice
  refine List.map_congr_left fun k hk => placeEntry_outside _ _ ?_
  have hspan := entrySpan_ge name
  have hname := htidy.name_le o ho hheader
  rw [List.mem_range] at hk
  rcases h.apart ho hne with ⟨hlow, hle⟩ | ⟨hle, -⟩ <;> omega

theorem headerOk_self (target : UInt32) : HeaderOk (placeEntry buf off target name) off := by
  have hspan := entrySpan_ge name
  have hfits := h.fits
  refine ⟨by omega, ?_, ?_, ?_⟩ <;> rw [placeEntry_length _ _ h.fits]
  · omega
  · exact h.span_le
  · exact hfits

/-- The scan of the new block visits what the scan of the old block visits, and
at most the end of the new entry besides, where it finds nothing. -/
theorem visits (target : UInt32) (ho : Visits (placeEntry buf off target name) o) :
    Visits buf o ∨ entryLength (placeEntry buf off target name) o = 0 := by
  induction ho with
  | start => exact Or.inl .start
  | @next o _ hheader ih =>
    rcases ih with ho | hzero
    · by_cases hne : o = off
      · subst hne
        rw [placeEntry_length _ _ h.fits]
        rcases h.clean with hsame | hzero
        · refine Or.inl (hsame ▸ ho.next ⟨?_, ?_, ?_, ?_⟩)
          · exact hheader.room
          · rw [hsame]
            have hspan := entrySpan_ge name
            omega
          · exact hsame ▸ h.span_le
          · exact hsame ▸ h.fits
        · right
          have hspan := entrySpan_ge name
          unfold entryLength u16At
          rw [placeEntry_outside _ _ (by omega), placeEntry_outside _ _ (by omega),
            hzero _ (by omega), hzero _ (by omega)]
          rfl
      · have hsame := h.sameHeader target ho hne
        left
        rw [hsame.length]
        exact ho.next (hsame.headerOk hheader)
    · have hlow := hheader.low
      omega

theorem tidy (target : UInt32) (htidy : Tidy buf) : Tidy (placeEntry buf off target name) where
  length_le o ho hroom := by
    rcases h.visits target ho with hold | hzero
    · by_cases hne : o = off
      · rw [hne, placeEntry_length _ _ h.fits]
        exact h.span_le
      · rw [(h.sameHeader target hold hne).length]
        exact htidy.length_le o hold hroom
    · omega
  name_le o ho hheader := by
    rcases h.visits target ho with hold | hzero
    · by_cases hne : o = off
      · rw [hne, placeEntry_length _ _ h.fits, placeEntry_nameLen _ _ h.fits h.short]
        exact entrySpan_ge name
      · have hsame := h.sameHeader target hold hne
        rw [hsame.length, hsame.nameLen]
        exact htidy.name_le o hold (hsame.headerOk hheader)
    · have hlow := hheader.low
      omega

theorem visits_slot (htidy : Tidy buf) : Visits buf off := by
  have hreach : ∀ {o}, Walk (entryLength buf) (Occupied buf) o → o ≤ 4096 → Visits buf o := by
    intro o ho
    induction ho with
    | start => exact fun _ => .start
    | @next o _ hocc ih =>
      intro hle
      have hlow := hocc.2
      have ho := ih (by omega)
      exact ho.next ⟨by omega, hlow, htidy.length_le o ho (by omega), hle⟩
  have hfits := h.fits
  exact hreach h.walk (by omega)

end SlotClean

/-- In this block the entry `name` would be written without damage to others. -/
def EntryClean (buf : Block) (name : Name) : Prop :=
  ∀ off, entrySlot buf (entrySpan name) 513 0 = some off →
    entryLength buf off = entrySpan name ∨ ∀ k, off ≤ k → buf.get k = 0

theorem EntryClean.slot (hclean : EntryClean buf name)
    (h : writeEntryRaw buf target name = .ok buf') :
    ∃ off, SlotClean buf name off ∧ buf' = placeEntry buf off target name := by
  obtain ⟨hshort, off, hslot, hbuf⟩ := writeEntryRaw_ok h
  obtain ⟨hwalk, hfree, hfits⟩ := entrySlot_some .start hslot
  exact ⟨off, ⟨hwalk, hfree, hfits, hshort, hclean off hslot⟩, hbuf⟩

theorem entryLength_zero (off : Nat) : entryLength zero off = 0 := by
  unfold entryLength u16At
  rw [get_zero, get_zero]
  rfl

theorem not_headerOk_zero : ¬ HeaderOk zero off := fun h => by
  have hlow := h.low
  rw [entryLength_zero] at hlow
  omega

theorem tidy_zero : Tidy zero where
  length_le off _ _ := by
    rw [entryLength_zero]
    omega
  name_le _ _ h := absurd h not_headerOk_zero

theorem entryClean_zero (name : Name) : EntryClean zero name :=
  fun _ _ => Or.inr fun k _ => get_zero k

/-- The block with the inode number of the entry at `off` cleared. -/
def clearEntry (buf : Block) (off : Nat) : Block := buf.splice off 4 fun _ => 0

theorem clearEntry_inode (hroom : off + 8 ≤ 4096) : u32At (clearEntry buf off).get off = 0 := by
  refine u32At_eq fun k hk => ?_
  rw [clearEntry, get_splice_inside _ _ hk (by omega)]
  interval_cases k <;> rfl

section

variable (hoff : Visits buf off) (hheader : HeaderOk buf off)
include hoff hheader

theorem clearEntry_sameHeader (ho : Visits buf o) (hne : o ≠ off) :
    SameHeader buf (clearEntry buf off) o := by
  have hpos : ∀ o, HeaderOk buf o → 0 < entryLength buf o := fun _ => HeaderOk.pos
  have hlow := hheader.low
  refine .of_bytes fun k hk => get_splice_outside _ _ ?_
  rcases Nat.lt_or_gt_of_ne hne with hlt | hgt
  · obtain ⟨hother, hle⟩ := Walk.passed hpos hpos ho hoff hlt
    have hlow' := hother.low
    omega
  · obtain ⟨-, hle⟩ := Walk.passed hpos hpos hoff ho hgt
    omega

theorem clearEntry_slice (htidy : Tidy buf) (ho : Visits buf o) (hok : HeaderOk buf o) :
    (clearEntry buf off).slice (o + 8) (entryNameLen buf o) =
      buf.slice (o + 8) (entryNameLen buf o) := by
  have hpos : ∀ o, HeaderOk buf o → 0 < entryLength buf o := fun _ => HeaderOk.pos
  have hname := htidy.name_le o ho hok
  have hlow := hheader.low
  unfold Image.slice
  refine List.map_congr_left fun k hk => Image.get_splice_outside _ _ ?_
  rw [List.mem_range] at hk
  rcases Nat.lt_trichotomy o off with hlt | rfl | hgt
  · obtain ⟨-, hle⟩ := Walk.passed hpos hpos ho hoff hlt
    omega
  · omega
  · obtain ⟨-, hle⟩ := Walk.passed hpos hpos hoff ho hgt
    omega

end

theorem clearEntry_nameLen (buf : Block) (off : Nat) :
    entryNameLen (clearEntry buf off) off = entryNameLen buf off :=
  congrArg UInt16.toNat (u16At_congr fun _ _ =>
    get_splice_outside _ _ (by omega))

theorem clearEntry_length (buf : Block) (off : Nat) :
    entryLength (clearEntry buf off) off = entryLength buf off :=
  congrArg UInt16.toNat (u16At_congr fun _ _ =>
    get_splice_outside _ _ (by omega))

theorem clearEntry_lengths (hoff : Visits buf off) (hheader : HeaderOk buf off)
    (ho : Visits buf o) :
    entryLength (clearEntry buf off) o = entryLength buf o ∧
      entryNameLen (clearEntry buf off) o = entryNameLen buf o := by
  by_cases hne : o = off
  · subst hne
    exact ⟨clearEntry_length buf o, clearEntry_nameLen buf o⟩
  · have hsame := clearEntry_sameHeader hoff hheader ho hne
    exact ⟨hsame.length, hsame.nameLen⟩

theorem HeaderOk.congr (h : HeaderOk buf o)
    (hlen : entryLength buf' o = entryLength buf o) : HeaderOk buf' o :=
  ⟨h.room, hlen ▸ h.low, hlen ▸ h.high, hlen ▸ h.fits⟩

theorem clearEntry_visits (hoff : Visits buf off) (hheader : HeaderOk buf off) :
    Visits (clearEntry buf off) o ↔ Visits buf o := by
  constructor
  · intro ho
    refine ho.congr fun o ho hok => ?_
    have hlen := (clearEntry_lengths hoff hheader ho).1
    exact ⟨hok.congr hlen.symm, hlen.symm⟩
  · intro ho
    induction ho with
    | start => exact .start
    | next ho hok ih =>
      have hlen := (clearEntry_lengths hoff hheader ho).1
      exact hlen ▸ ih.next (hok.congr hlen)

theorem clearEntry_tidy (hoff : Visits buf off) (hheader : HeaderOk buf off)
    (htidy : Tidy buf) : Tidy (clearEntry buf off) where
  length_le o ho hroom := by
    rw [clearEntry_visits hoff hheader] at ho
    rw [(clearEntry_lengths hoff hheader ho).1]
    exact htidy.length_le o ho hroom
  name_le o ho hok := by
    rw [clearEntry_visits hoff hheader] at ho
    obtain ⟨hlen, hname⟩ := clearEntry_lengths hoff hheader ho
    rw [hlen, hname]
    exact htidy.name_le o ho (hok.congr hlen.symm)

theorem removeSlot_some {fuel limit : Nat} (htidy : Tidy buf) (hlimit : limit ≤ 4096)
    (ho : Visits buf o) (h : removeSlot buf limit target fuel o = some off) :
    Visits buf off ∧ HeaderOk buf off ∧ u32At buf.get off = target := by
  induction fuel generalizing o with
  | zero => simp [removeSlot] at h
  | succ fuel ih =>
    unfold removeSlot at h
    by_cases hroom' : o + 8 ≤ limit
    · have hroom := Nat.le_trans hroom' hlimit
      rw [if_pos hroom'] at h
      dsimp only at h
      split_ifs at h with hstop hfound
      · have hheader : HeaderOk buf o := by
          refine ⟨hroom, ?_, htidy.length_le o ho hroom, ?_⟩ <;>
            unfold entryLength <;> omega
        obtain rfl := Option.some.inj h
        exact ⟨ho, hheader, hfound⟩
      · have hheader : HeaderOk buf o := by
          refine ⟨hroom, ?_, htidy.length_le o ho hroom, ?_⟩ <;>
            unfold entryLength <;> omega
        exact ih (ho.next hheader) h
    · rw [if_neg hroom'] at h
      exact absurd h (by simp)

theorem removeEntryRaw_true {size : Nat} (htidy : Tidy buf)
    (h : (removeEntryRaw buf size target).2 = true) :
    ∃ off, Visits buf off ∧ HeaderOk buf off ∧ u32At buf.get off = target ∧
      (removeEntryRaw buf size target).1 = clearEntry buf off := by
  unfold removeEntryRaw at h ⊢
  cases hslot : removeSlot buf (min size 4096) target 513 0 with
  | none => simp [hslot] at h
  | some off =>
    obtain ⟨hoff, hheader, hinode⟩ :=
      removeSlot_some htidy (Nat.min_le_right size 4096) .start hslot
    exact ⟨off, hoff, hheader, hinode, rfl⟩

end

end ZiqaKernel
