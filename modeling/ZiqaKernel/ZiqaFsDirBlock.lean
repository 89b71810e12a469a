/-
A directory block as a finite map from names to inodes: what `dirent_foreach` enumerates
after entries have been written and removed.  The chain of entries survives as long as no
entry is written over a freed one of another length.
-/
import ZiqaKernel.StepRuns
import ZiqaKernel.ZiqaFsEntries

namespace ZiqaKernel

open Image

section

variable {buf buf' : Block} {off o fuel : Nat} {target t : UInt32} {name n : Name}

/-- The entry at `off` is one that `dirent_foreach` shows. -/
def Shows (buf : Block) (off : Nat) : Prop :=
  u32At buf.get off ≠ 0 ∧ 0 < entryNameLen buf off ∧ entryNameLen buf off ≤ 252 ∧
    off + 8 + entryNameLen buf off ≤ 4096 ∧
    utf8Valid (buf.slice (off + 8) (entryNameLen buf off)) = true

instance (buf : Block) (off : Nat) : Decidable (Shows buf off) :=
  inferInstanceAs (Decidable (_ ∧ _))

/-- What `dirent_foreach` shows of the entry at `off`. -/
def shown (buf : Block) (off : Nat) : List (UInt32 × Name) :=
  if Shows buf off then [(u32At buf.get off, buf.slice (off + 8) (entryNameLen buf off))] else []

theorem direntScan_headerOk (h : HeaderOk buf off) (fuel : Nat) :
    direntScan buf 4096 (fuel + 1) off =
      shown buf off ++ direntScan buf 4096 fuel (off + entryLength buf off) := by
  have hlow := h.low
  have hhigh := h.high
  have hfits := h.fits
  unfold entryLength at hlow hhigh hfits
  rw [direntScan, if_pos h.room]
  dsimp only
  rw [if_neg (by omega), shown]
  by_cases hshows : Shows buf off
  · rw [if_pos hshows]
    exact if_pos hshows
  · rw [if_neg hshows]
    exact if_neg hshows

theorem direntScan_not_headerOk (h : ¬ HeaderOk buf off) (fuel : Nat) :
    direntScan buf 4096 fuel off = [] := by
  cases fuel with
  | zero => rfl
  | succ fuel =>
    rw [direntScan]
    by_cases hroom : off + 8 ≤ 4096
    · rw [if_pos hroom]
      dsimp only
      rw [if_pos]
      by_contra hstop
      apply h
      refine ⟨hroom, ?_, ?_, ?_⟩ <;> unfold entryLength <;> omega
    · rw [if_neg hroom]

theorem shown_congr (hsame : SameHeader buf buf' off)
    (hslice : buf'.slice (off + 8) (entryNameLen buf off) =
      buf.slice (off + 8) (entryNameLen buf off)) : shown buf' off = shown buf off := by
  have hiff : Shows buf' off ↔ Shows buf off := by
    unfold Shows
    rw [hsame.inode, hsame.nameLen, hslice]
  by_cases hshows : Shows buf off
  · rw [shown, shown, if_pos hshows, if_pos (hiff.mpr hshows), hsame.inode, hsame.nameLen, hslice]
  · rw [shown, shown, if_neg hshows, if_neg (mt hiff.mp hshows)]

theorem shown_of_inode_zero (h : u32At buf.get off = 0) : shown buf off = [] :=
  if_neg fun hshows => hshows.1 h

theorem not_headerOk_of_zero (hzero : ∀ k, o ≤ k → buf.get k = 0) : ¬ HeaderOk buf o := by
  intro h
  have hlow := h.low
  unfold entryLength u16At at hlow
  rw [hzero _ (by omega), hzero _ (by omega)] at hlow
  exact absurd hlow (by decide)

def FuelFor (fuel off : Nat) : Prop := 4104 ≤ off + 8 * fuel

theorem FuelFor.next (h : FuelFor (fuel + 1) off) (hheader : HeaderOk buf off) :
    FuelFor fuel (off + entryLength buf off) := by
  have hlow := hheader.low
  unfold FuelFor at h ⊢
  omega

theorem fuelFor_start : FuelFor 513 0 := by
  unfold FuelFor
  omega

instance (buf : Block) (off : Nat) : Decidable (HeaderOk buf off) :=
  decidable_of_iff (off + 8 ≤ 4096 ∧ 8 ≤ entryLength buf off ∧ entryLength buf off ≤ 260 ∧
      off + entryLength buf off ≤ 4096)
    ⟨fun h => ⟨h.1, h.2.1, h.2.2.1, h.2.2.2⟩, fun h => ⟨h.room, h.low, h.high, h.fits⟩⟩

/-- A name that `dirent_foreach` shows. -/
structure ShownName (name : Name) : Prop where
  ne_nil : name ≠ []
  valid : utf8Valid name = true

namespace SlotClean

variable (h : SlotClean buf name off)
include h

theorem shown_eq (target : UInt32) (htidy : Tidy buf) (ho : Visits buf o)
    (hheader : HeaderOk buf o) (hne : o ≠ off) :
    shown (placeEntry buf off target name) o = shown buf o :=
  shown_congr (h.sameHeader target ho hne) (h.slice_eq target htidy ho hheader hne)

theorem shown_self (htarget : target ≠ 0) (hname : ShownName name) :
    shown (placeEntry buf off target name) off = [(target, name)] := by
  have hspan := entrySpan_ge name
  have hfits := h.fits
  have hshows : Shows (placeEntry buf off target name) off := by
    unfold Shows
    rw [placeEntry_inode _ _ h.fits, placeEntry_nameLen _ _ h.fits h.short,
      placeEntry_name _ _ h.fits]
    exact ⟨htarget, List.length_pos_iff.mpr hname.ne_nil, h.short, by omega, hname.valid⟩
  rw [shown, if_pos hshows, placeEntry_inode _ _ h.fits, placeEntry_nameLen _ _ h.fits h.short,
    placeEntry_name _ _ h.fits]

theorem scan_behind (target : UInt32) (htidy : Tidy buf) (ho : Visits buf o) (hbehind : off < o)
    (fuel : Nat) :
    direntScan (placeEntry buf off target name) 4096 fuel o = direntScan buf 4096 fuel o := by
  induction fuel generalizing o with
  | zero => rfl
  | succ fuel ih =>
    have hsame := h.sameHeader target ho (Nat.ne_of_gt hbehind)
    by_cases hheader : HeaderOk buf o
    · rw [direntScan_headerOk hheader, direntScan_headerOk (hsame.symm.headerOk hheader),
        h.shown_eq target htidy ho hheader (Nat.ne_of_gt hbehind), hsame.length,
        ih (ho.next hheader) (by omega)]
    · rw [direntScan_not_headerOk hheader,
        direntScan_not_headerOk fun hnew => hheader (hsame.headerOk hnew)]

theorem scan_slot (htidy : Tidy buf) (htarget : target ≠ 0) (hname : ShownName name) (fuel : Nat) :
    direntScan (placeEntry buf off target name) 4096 (fuel + 1) off =
      (target, name) :: direntScan buf 4096 (fuel + 1) off := by
  have hspan := entrySpan_ge name
  rw [direntScan_headerOk (h.headerOk_self target), h.shown_self htarget hname,
    placeEntry_length _ _ h.fits, List.singleton_append]
  congr 1
  rcases h.clean with hlength | hzero
  · have hheader : HeaderOk buf off := by
      have hroom := h.fits
      exact ⟨by omega, by omega, hlength ▸ h.span_le, hlength ▸ h.fits⟩
    have hinode : u32At buf.get off = 0 := by
      by_contra hinode
      exact h.unoccupied ⟨hinode, hheader.low⟩
    rw [direntScan_headerOk hheader, shown_of_inode_zero hinode, List.nil_append, hlength]
    refine h.scan_behind target htidy ?_ (by omega) fuel
    exact hlength ▸ (h.visits_slot htidy).next hheader
  · rw [direntScan_not_headerOk (not_headerOk_of_zero hzero)]
    apply direntScan_not_headerOk
    refine not_headerOk_of_zero fun k hk => ?_
    rw [placeEntry_outside _ _ (by omega)]
    exact hzero k (by omega)

theorem scan_place (htidy : Tidy buf) (htarget : target ≠ 0) (hname : ShownName name)
    (ho : Visits buf o) (hbefore : o ≤ off) (hfuel : FuelFor fuel o) :
    ∃ before behind, direntScan buf 4096 fuel o = before ++ behind ∧
      direntScan (placeEntry buf off target name) 4096 fuel o =
        before ++ (target, name) :: behind := by
  have hfits := h.fits
  induction fuel generalizing o with
  | zero =>
    unfold FuelFor at hfuel
    omega
  | succ fuel ih =>
    rcases Nat.lt_or_eq_of_le hbefore with hlt | rfl
    · obtain ⟨hocc, hle⟩ := Walk.passed (fun _ => HeaderOk.pos) (fun _ => Occupied.pos) ho
        h.walk hlt
      have hlow := hocc.2
      have hheader : HeaderOk buf o :=
        ⟨by omega, hlow, htidy.length_le o ho (by omega), by omega⟩
      have hsame := h.sameHeader target ho (Nat.ne_of_lt hlt)
      obtain ⟨before, behind, hold, hnew⟩ := ih (ho.next hheader) hle (hfuel.next hheader)
      refine ⟨shown buf o ++ before, behind, ?_, ?_⟩
      · rw [direntScan_headerOk hheader, hold, List.append_assoc]
      · rw [direntScan_headerOk (hsame.symm.headerOk hheader),
          h.shown_eq target htidy ho hheader (Nat.ne_of_lt hlt), hsame.length, hnew,
          List.append_assoc]
    · exact ⟨[], _, rfl, h.scan_slot htidy htarget hname fuel⟩

theorem foreach_place (htidy : Tidy buf) (htarget : target ≠ 0) (hname : ShownName name) :
    ∃ before behind, direntForeach buf 4096 = before ++ behind ∧
      direntForeach (placeEntry buf off target name) 4096 = before ++ (target, name) :: behind :=
  h.scan_place htidy htarget hname .start (Nat.zero_le _) fuelFor_start

end SlotClean

section

variable (hoff : Visits buf off) (hheader : HeaderOk buf off) (htidy : Tidy buf)
include hoff hheader htidy

theorem shown_clearEntry (ho : Visits buf o) (hok : HeaderOk buf o) (hne : o ≠ off) :
    shown (clearEntry buf off) o = shown buf o :=
  shown_congr (clearEntry_sameHeader hoff hheader ho hne)
    (clearEntry_slice hoff hheader htidy ho hok)

theorem scan_clear_behind (ho : Visits buf o) (hbehind : off < o) (fuel : Nat) :
    direntScan (clearEntry buf off) 4096 fuel o = direntScan buf 4096 fuel o := by
  induction fuel generalizing o with
  | zero => rfl
  | succ fuel ih =>
    have hlength := (clearEntry_lengths hoff hheader ho).1
    by_cases hok : HeaderOk buf o
    · rw [direntScan_headerOk hok, direntScan_headerOk (hok.congr hlength),
        shown_clearEntry hoff hheader htidy ho hok (Nat.ne_of_gt hbehind), hlength,
        ih (ho.next hok) (by omega)]
    · rw [direntScan_not_headerOk hok,
        direntScan_not_headerOk fun hnew => hok (hnew.congr hlength.symm)]

theorem scan_clear (ho : Visits buf o) (hbefore : o ≤ off) (hfuel : FuelFor fuel o) :
    ∃ before behind, direntScan buf 4096 fuel o = before ++ (shown buf off ++ behind) ∧
      direntScan (clearEntry buf off) 4096 fuel o = before ++ behind := by
  have hroom := hheader.room
  induction fuel generalizing o with
  | zero =>
    unfold FuelFor at hfuel
    omega
  | succ fuel ih =>
    have hlength := (clearEntry_lengths hoff hheader ho).1
    rcases Nat.lt_or_eq_of_le hbefore with hlt | rfl
    · have hpos : ∀ o, HeaderOk buf o → 0 < entryLength buf o := fun _ => HeaderOk.pos
      obtain ⟨hok, hle⟩ := Walk.passed hpos hpos ho hoff hlt
      obtain ⟨before, behind, hold, hnew⟩ := ih (ho.next hok) hle (hfuel.next hok)
      refine ⟨shown buf o ++ before, behind, ?_, ?_⟩
      · rw [direntScan_headerOk hok, hold, List.append_assoc]
      · rw [direntScan_headerOk (hok.congr hlength),
          shown_clearEntry hoff hheader htidy ho hok (Nat.ne_of_lt hlt), hlength, hnew,
          List.append_assoc]
    · have hbehind := scan_clear_behind hoff hheader htidy (hoff.next hheader)
        (Nat.lt_add_of_pos_right hheader.pos) fuel
      refine ⟨[], _, direntScan_headerOk hheader fuel, ?_⟩
      rw [direntScan_headerOk (hheader.congr hlength),
        shown_of_inode_zero (clearEntry_inode hheader.room), hlength, hbehind]

theorem foreach_clear :
    ∃ before behind, direntForeach buf 4096 = before ++ (shown buf off ++ behind) ∧
      direntForeach (clearEntry buf off) 4096 = before ++ behind :=
  scan_clear hoff hheader htidy .start (Nat.zero_le _) fuelFor_start

end

structure Enumerable (buf : Block) : Prop where
  tidy : Tidy buf
  shows_of_ne : ∀ off, Visits buf off → HeaderOk buf off → u32At buf.get off ≠ 0 → Shows buf off

theorem enumerable_zero : Enumerable zero :=
  ⟨tidy_zero, fun _ _ hheader => absurd hheader not_headerOk_zero⟩

theorem shows_iff_shown : Shows buf off ↔ shown buf off ≠ [] := by
  unfold shown
  split
  · next h => exact iff_of_true h (List.cons_ne_nil _ _)
  · next h => exact iff_of_false h fun hne => hne rfl

theorem Enumerable.place (h : Enumerable buf) (hslot : SlotClean buf name off)
    (htarget : target ≠ 0) (hname : ShownName name) :
    Enumerable (placeEntry buf off target name) where
  tidy := hslot.tidy target h.tidy
  shows_of_ne o ho hheader hinode := by
    by_cases hne : o = off
    · rw [hne, shows_iff_shown, hslot.shown_self htarget hname]
      exact List.cons_ne_nil _ _
    · rcases hslot.visits target ho with hold | hzero
      · have hsame := hslot.sameHeader target hold hne
        have hok := hsame.headerOk hheader
        rw [shows_iff_shown, hslot.shown_eq target h.tidy hold hok hne, ← shows_iff_shown]
        exact h.shows_of_ne o hold hok (hsame.inode ▸ hinode)
      · have hlow := hheader.low
        omega

theorem Enumerable.clear (h : Enumerable buf) (hoff : Visits buf off)
    (hheader : HeaderOk buf off) : Enumerable (clearEntry buf off) where
  tidy := clearEntry_tidy hoff hheader h.tidy
  shows_of_ne o ho hok hinode := by
    have hold := (clearEntry_visits hoff hheader).mp ho
    by_cases hne : o = off
    · rw [hne, clearEntry_inode hheader.room] at hinode
      exact absurd rfl hinode
    · have hsame := clearEntry_sameHeader hoff hheader hold hne
      have hok' := hsame.headerOk hok
      rw [shows_iff_shown, shown_clearEntry hoff hheader h.tidy hold hok' hne, ← shows_iff_shown]
      exact h.shows_of_ne o hold hok' (hsame.inode ▸ hinode)

end

/-! Histories of one block -/

inductive DirBlockCall where
  | write (target : UInt32) (name : Name)
  | remove (size : Nat) (target : UInt32)

namespace DirBlockCall

def run : DirBlockCall → Block → Block
  | .write target name, buf => writeEntryOrKeep buf target name
  | .remove size target, buf => (removeEntryRaw buf size target).1

/-- A write that succeeds adds its pair to what is enumerated, a removal that succeeds
takes one pair of its inode away, and nothing else changes. -/
def Exact : DirBlockCall → Block → Prop
  | .write target name, buf => ∀ buf', writeEntryRaw buf target name = .ok buf' →
      (direntForeach buf' 4096).Perm ((target, name) :: direntForeach buf 4096)
  | .remove size target, buf => (removeEntryRaw buf size target).2 = true →
      ∃ name, (direntForeach buf 4096).Perm
        ((target, name) :: direntForeach (removeEntryRaw buf size target).1 4096)

/-- The condition on a call: the inode number is not zero, and a name that is written is
not empty and goes to the end of the entries or over a freed entry of the same length. -/
def Fitting : DirBlockCall → Block → Prop
  | .write target name, buf => target ≠ 0 ∧ ShownName name ∧ EntryClean buf name
  | .remove _ target, _ => target ≠ 0

end DirBlockCall

open DirBlockCall

variable {buf : Block} {target : UInt32} {name : Name}

theorem Enumerable.write (h : Enumerable buf) (htarget : target ≠ 0) (hname : ShownName name)
    (hclean : EntryClean buf name) :
    Enumerable (DirBlockCall.run (.write target name) buf) ∧ Exact (.write target name) buf := by
  constructor
  · rw [DirBlockCall.run, writeEntryOrKeep]
    split
    · next buf' hwrite =>
      obtain ⟨off, hslot, rfl⟩ := hclean.slot hwrite
      exact h.place hslot htarget hname
    · exact h
  · intro buf' hwrite
    obtain ⟨off, hslot, rfl⟩ := hclean.slot hwrite
    obtain ⟨before, behind, hold, hnew⟩ := hslot.foreach_place h.tidy htarget hname
    rw [hold, hnew]
    exact List.perm_middle

theorem Enumerable.remove (h : Enumerable buf) (size : Nat) (htarget : target ≠ 0) :
    Enumerable (DirBlockCall.run (.remove size target) buf) ∧ Exact (.remove size target) buf := by
  rw [DirBlockCall.run, Exact]
  by_cases hremoved : (removeEntryRaw buf size target).2 = true
  · obtain ⟨off, hoff, hheader, hinode, heq⟩ := removeEntryRaw_true h.tidy hremoved
    rw [heq]
    refine ⟨h.clear hoff hheader, fun _ => ⟨buf.slice (off + 8) (entryNameLen buf off), ?_⟩⟩
    have hshows := h.shows_of_ne off hoff hheader (hinode ▸ htarget)
    obtain ⟨before, behind, hold, hnew⟩ := foreach_clear hoff hheader h.tidy
    rw [hold, hnew, shown, if_pos hshows, hinode]
    exact List.perm_middle
  · refine ⟨?_, fun h => absurd h hremoved⟩
    have hsame : (removeEntryRaw buf size target).1 = buf := by
      unfold removeEntryRaw at hremoved ⊢
      split
      · next hslot => simp [hslot] at hremoved
      · rfl
    rw [hsame]
    exact h

theorem writeEntryRaw_of_isSome (h : (writeEntryRaw buf target name).toOption.isSome = true) :
    writeEntryRaw buf target name = .ok (writeEntryOrKeep buf target name) := by
  unfold writeEntryOrKeep
  cases hwrite : writeEntryRaw buf target name with
  | error e =>
    rw [hwrite] at h
    cases h
  | ok buf' => rfl

/-- From an empty block on, every fitting call has exactly its effect on what is
enumerated. -/
theorem exact_of_fitting (calls : List DirBlockCall)
    (hfitting : EachStep DirBlockCall.run Fitting calls zero) :
    EachStep DirBlockCall.run Exact calls zero := by
  refine eachStep_of_eachStep (fun c buf h hc => ?_) enumerable_zero hfitting
  cases c with
  | write target name => exact h.write hc.1 hc.2.1 hc.2.2
  | remove size target => exact h.remove size hc

def freedEntry : Block :=
  (DirBlockCall.remove 4096 2).run ((DirBlockCall.write 2 (asciiBytes "a")).run zero)

theorem entryClean_freedEntry : EntryClean freedEntry (asciiBytes "c") := by
  intro off hoff
  have hslot : entrySlot freedEntry (entrySpan (asciiBytes "c")) 513 0 = some 0 := by
    decide +kernel
  cases hslot.symm.trans hoff
  left
  decide +kernel

/-- An entry is removed, and another of the same length takes its place. -/
theorem exact_freedEntry : EachStep DirBlockCall.run Exact
      [.write 2 (asciiBytes "a"), .remove 4096 2, .write 4 (asciiBytes "c")] zero := by
  have htwo : (2 : UInt32) ≠ 0 := by decide
  exact exact_of_fitting _ ⟨⟨htwo, ⟨by decide, by decide⟩, entryClean_zero _⟩, htwo,
    ⟨by decide, ⟨by decide, by decide⟩, entryClean_freedEntry⟩, trivial⟩

/-- Two entries with names of different lengths, the first of which has been removed. -/
def longNameRemoved : Block :=
  [DirBlockCall.write 2 (asciiBytes "a long name"), .write 3 (asciiBytes "b"),
    .remove 4096 2].foldl (fun buf c => c.run buf) zero

/-- A short name over a long one: the entry behind it is no longer seen. -/
theorem shortName_hides_entry : ¬ EachStep DirBlockCall.run Exact
      ([.write 2 (asciiBytes "a long name"), .write 3 (asciiBytes "b"), .remove 4096 2] ++
        [.write 4 (asciiBytes "c")]) Image.zero := by
  rw [eachStep_append, ← longNameRemoved]
  rintro ⟨-, hwrite, -⟩
  have hperm := hwrite _ (writeEntryRaw_of_isSome (by decide +kernel))
  exact absurd hperm.length_eq (by decide +kernel)

end ZiqaKernel
