/-
Overwriting a file from its start and reading the whole of it back.  The bytes
past the end of the data stay, so the file reads as the data only when it was
not longer, or when what follows the data is a hole.
-/
import ZiqaKernel.ZiqaFsVector

namespace ZiqaKernel

open Fallible

/-- The loop of `read_raw_all` over the `read` of a file of `size` bytes: the
parts that the calls return, until one of them is empty.  Every round but the
last reads a byte, so `size` rounds suffice. -/
def readWhole {ε : Type} (read : Nat → Nat → Except ε (List UInt8)) (size : Nat) :
    Nat → Nat → Except ε (List UInt8)
  | 0, _ => .ok []
  | fuel + 1, total =>
    if total < size then
      match read total (size - total) with
      | .error e => .error e
      | .ok part =>
        if part = [] then .ok []
        else (readWhole read size fuel (total + part.length)).map (part ++ ·)
    else .ok []

section

variable {ε : Type} {read : Nat → Nat → Except ε (List UInt8)} {size : Nat} {data : List UInt8}

theorem readWhole_empty {fuel total : Nat} (h : total < size → read total (size - total) = .ok []) :
    readWhole read size fuel total = .ok [] := by
  cases fuel with
  | zero => rfl
  | succ fuel =>
    rw [readWhole]
    by_cases htotal : total < size
    · simp [htotal, h htotal]
    · rw [if_neg htotal]

theorem readWhole_eq (h : read 0 size = .ok data) (hlen : data.length ≤ size)
    (hstop : data.length < size → read data.length (size - data.length) = .ok []) :
    readWhole read size size 0 = .ok data := by
  by_cases hne : data = []
  · subst hne
    exact readWhole_empty hstop
  · have hpos := List.length_pos_iff.mpr hne
    obtain ⟨n, rfl⟩ : ∃ n, size = n + 1 := ⟨size - 1, by omega⟩
    rw [readWhole, if_pos (by omega), Nat.sub_zero, h]
    simp only [hne, ↓reduceIte, Nat.zero_add]
    rw [readWhole_empty hstop]
    change Except.ok (data ++ []) = _
    rw [List.append_nil]

theorem readWhole_eq_ok (hsize : 0 < size) (h : readWhole read size size 0 = .ok data) :
    ∃ part, read 0 size = .ok part ∧ part <+: data := by
  obtain ⟨n, rfl⟩ : ∃ n, size = n + 1 := ⟨size - 1, by omega⟩
  rw [readWhole, if_pos (by omega), Nat.sub_zero] at h
  cases hread : read 0 (n + 1) with
  | error e => simp [hread] at h
  | ok part =>
    refine ⟨part, rfl, ?_⟩
    simp only [hread] at h
    split_ifs at h with hempty
    · rw [hempty]
      exact List.nil_prefix
    · obtain ⟨rest, -, rfl⟩ := Except.map_eq_ok h
      exact List.prefix_append part rest

end

section

variable {v : Contents} {n toRead fuel done : Nat}

theorem readBytes_hole (hmax : toRead ≤ 2 ^ 32) (hn : n ≤ toRead)
    (haligned : n % 4096 = 0) (hhole : v (n / 4096) = .ok none) (hdone : done ≤ n) :
    readBytes v 0 toRead fuel done = readBytes v 0 n fuel done := by
  induction fuel generalizing done with
  | zero => rfl
  | succ fuel ih =>
    rw [readBytes, readBytes]
    rcases Nat.lt_or_eq_of_le hdone with hlt | rfl
    · -- the chunk ends before the hole begins
      have hchunk : min (toRead - done) (4096 - (0 + done) % 4096) =
          min (n - done) (4096 - (0 + done) % 4096) := by omega
      have hrest : readBytes v 0 toRead fuel (done + min (n - done) (4096 - (0 + done) % 4096)) =
          readBytes v 0 n fuel (done + min (n - done) (4096 - (0 + done) % 4096)) :=
        ih (by omega)
      rw [if_pos (by omega), if_pos hlt, hchunk]
      simp only [hrest]
    · rw [if_neg (Nat.lt_irrefl done)]
      by_cases hmore : done < toRead
      · rw [if_pos hmore, Nat.zero_add, logicalOf_of_lt (by omega), hhole]
      · rw [if_neg hmore]

theorem lt_length_readBytes {bytes : List UInt8} (hmax : toRead ≤ 2 ^ 32)
    (hn : n < toRead) (hbytes : ∀ p < n, (byteAt v p).isSome)
    (hhole : v (n / 4096) ≠ .ok none) (hdone : done ≤ n) (hfuel : toRead - done ≤ fuel)
    (h : readBytes v 0 toRead fuel done = .ok bytes) : n < done + bytes.length := by
  induction fuel generalizing done bytes with
  | zero => omega
  | succ fuel ih =>
    rw [readBytes, if_pos (by omega), Nat.zero_add, logicalOf_of_lt (by omega)] at h
    cases hv : v (done / 4096) with
    | error e => simp [hv] at h
    | ok block =>
      cases block with
      | none =>
        rcases Nat.lt_or_eq_of_le hdone with hlt | rfl
        · have hsome := hbytes done hlt
          rw [byteAt, hv] at hsome
          exact absurd hsome (by simp)
        · exact absurd hv hhole
      | some buf =>
        simp only [hv] at h
        obtain ⟨rest, hrest, rfl⟩ := Except.map_eq_ok h
        rw [List.length_append, Image.length_slice]
        by_cases hchunk : n < done + min (toRead - done) (4096 - done % 4096)
        · omega
        · have hnext := ih (by omega) (by omega) hrest
          omega

end

section

variable {fs fs' : ZiqaFs} {x x' : Inode} {id now : UInt32} {buf : List UInt8} {n : Nat}

theorem writeLoop_bound {fuel pos : Nat} {rest : List UInt8}
    (hfuel : rest.length ≤ fuel) (hpos : pos ≤ maxBlocks * 4096)
    (h : (writeLoop fuel x pos rest).run fs = (.ok x', fs')) :
    pos + rest.length ≤ maxBlocks * 4096 := by
  induction fuel generalizing x pos rest fs with
  | zero => omega
  | succ fuel ih =>
    rw [writeLoop] at h
    by_cases hrest : rest = []
    · rw [hrest]
      exact hpos
    · rw [if_neg hrest, run_bind_eq_ok_iff] at h
      obtain ⟨x1, fs1, hround, h⟩ := h
      obtain ⟨old, sum, -, -, -, -, -, hmap, -⟩ := writeRound_ok hround
      have hlogical := (blockMap_eq_ok hmap).2
      have hlen := List.length_pos_iff.mpr hrest
      rw [maxBlocks] at hpos hlogical
      rw [logicalOf_of_lt (by omega)] at hlogical
      have hnext := ih (by rw [List.length_drop]; omega) (by rw [maxBlocks]; omega) h
      rw [List.length_drop] at hnext
      omega

theorem writeLoop_beyond {L : Layout} {fuel pos : Nat} {rest : List UInt8}
    (hfuel : rest.length ≤ fuel) (hres : Reserved fs)
    (hx : Exclusive (tree L fs.device x) (InUse fs.device))
    (hmode : x.mode ≠ inodeModeDir) (hmax : pos + rest.length ≤ 2 ^ 32)
    (h : (writeLoop fuel x pos rest).run fs = (.ok x', fs')) {k : Nat}
    (hk : pos + rest.length ≤ k * 4096) :
    contents fs'.device x' k = contents fs.device x k := by
  induction fuel generalizing x pos rest fs with
  | zero =>
    simp only [writeLoop, run_pure, Prod.mk.injEq, Except.ok.injEq] at h
    rw [← h.1, ← h.2]
  | succ fuel ih =>
    rw [writeLoop] at h
    by_cases hrest : rest = []
    · rw [if_pos hrest] at h
      rw [run_pure_eq_ok_iff] at h
      rw [← h.1, ← h.2]
    · rw [if_neg hrest, run_bind_eq_ok_iff] at h
      obtain ⟨x1, fs1, hround, h⟩ := h
      have hlen := List.length_pos_iff.mpr hrest
      obtain ⟨hrew, hgeo, -, _, _, -, -, -, hcontents⟩ :=
        writeRound_spec hres hx hmode hround
      have hlogical : k ≠ logicalOf pos := by
        rw [logicalOf_of_lt (by omega)]
        omega
      rw [ih (by rw [List.length_drop]; omega) (hrew.reserved hx hres hgeo)
        hrew.exclusive (hrew.mode ▸ hmode) (by rw [List.length_drop]; omega) h
        (by rw [List.length_drop]; omega), hcontents, if_neg hlogical]

theorem writeFile_beyond {L : Layout} (howned : Owned L fs.device (liveInode fs.device))
    (hres : Reserved fs) (hload : loadInode fs.device id = .ok x)
    (h : (writeFile now id 0 buf).run fs = (.ok n, fs')) :
    buf.length ≤ maxBlocks * 4096 ∧ ∃ y, loadInode fs'.device id = .ok y ∧
      ∀ k, buf.length ≤ k * 4096 → contents fs'.device y k = contents fs.device x k := by
  obtain ⟨x0, x', fs1, sb, hload0, hmode, hloop, hid, hfit, hrange, rfl⟩ :=
    writeFile_ok h
  obtain rfl : x0 = x := Except.ok.inj (hload0.symm.trans hload)
  have hx := howned.exclusive_tree (liveInode_eq_some_iff.mpr hload)
  have hbound := writeLoop_bound (Nat.le_refl _) (Nat.zero_le _) hloop
  rw [Nat.zero_add] at hbound
  obtain ⟨hrew, -, -, -⟩ := writeLoop_spec (Nat.le_refl _) hres hx hmode hloop
  generalize hy : grown x' now ((0 + buf.length) % 2 ^ 64) = y
  have htree : tree L fs1.device y.stamped = tree L fs1.device x' := by
    subst hy
    exact tree_congr rfl rfl rfl rfl
  have hmap : contents fs1.device y.stamped = contents fs1.device x' := by
    subst hy
    rfl
  have hx1 : Exclusive (tree L fs1.device y.stamped) (InUse fs1.device) :=
    htree ▸ hrew.exclusive
  refine ⟨hbound, y.stamped, loadInode_stored_self sb hid hfit hrange y, fun k hk => ?_⟩
  rw [(sameTree_stored sb y hx1).contents_eq, hmap]
  rw [maxBlocks] at hbound
  exact writeLoop_beyond (Nat.le_refl _) hres hx hmode (by omega) hloop (by omega)

/-- The file is not longer than the data, or what follows the data is a hole. -/
def Replaces (d : Disk) (x : Inode) (data : List UInt8) : Prop :=
  x.size.toNat ≤ data.length ∨ data.length % 4096 = 0 ∧ contents d x (data.length / 4096) = .ok none

theorem fileRead_of_le {d : Disk} {offset len : Nat} (hload : loadInode d id = .ok x)
    (hlen : offset + len = x.size.toNat) :
    fileRead d id offset len = readBytes (contents d x) offset len len 0 := by
  rw [fileRead, hload]
  simp only
  by_cases hoff : offset ≥ x.size.toNat
  · obtain rfl : len = 0 := by omega
    rw [if_pos hoff]
    rfl
  · rw [if_neg hoff, Nat.min_eq_right (by omega)]

/-- After an overwrite from the start the file reads as the data exactly when the
data replace it. -/
theorem writeFile_whole_iff (hs : Sound fs) (hload : loadInode fs.device id = .ok x)
    (h : (writeFile now id 0 buf).run fs = (.ok n, fs')) :
    ∃ y, loadInode fs'.device id = .ok y ∧
      (readWhole (fileRead fs'.device id) y.size.toNat y.size.toNat 0 = .ok buf ↔
        Replaces fs.device x buf) := by
  obtain ⟨hbound, y, hy, hbeyond⟩ :=
    writeFile_beyond hs.owned hs.healthy.reserved hload h
  obtain ⟨x0, y0, hupd, hbytes⟩ := writeFile_spec hs.owned hs.healthy.reserved h
  obtain rfl : x0 = x := Except.ok.inj (hupd.before.symm.trans hload)
  obtain rfl : y0 = y := Except.ok.inj (hupd.after.symm.trans hy)
  obtain ⟨hsize, hwrote⟩ := hbytes (by omega)
  rw [Nat.zero_add] at hsize
  have hmax := y0.size.toNat_lt
  have hinside : ∀ k < buf.length, byteAt (contents fs'.device y0) k = some (buf.getD k 0) := by
    intro k hk
    have hbyte := hwrote.inside k hk
    rw [Nat.zero_add] at hbyte
    rw [hbyte, List.getD_eq_getElem?_getD, List.getElem?_eq_getElem hk, Option.getD_some]
  have hdata : ∀ fuel, buf.length ≤ fuel →
      readBytes (contents fs'.device y0) 0 buf.length fuel 0 = .ok buf := by
    intro fuel hfuel
    rw [maxBlocks] at hbound
    rw [readBytes_of_byteAt (f := fun k => buf.getD k 0) (by omega) (Nat.zero_add _)
      hfuel (by simpa using hinside), map_getD_range]
  have hend : buf.length % 4096 = 0 → buf.length ≤ buf.length / 4096 * 4096 :=
    fun haligned => (Nat.div_mul_cancel (Nat.dvd_of_mod_eq_zero haligned)).ge
  refine ⟨y0, hy, ?_, ?_⟩
  · intro hread
    by_contra hnot
    rw [Replaces, not_or, not_and] at hnot
    obtain ⟨hlong, hblock⟩ := hnot
    have hhole : contents fs'.device y0 (buf.length / 4096) ≠ .ok none := by
      by_cases haligned : buf.length % 4096 = 0
      · rw [hbeyond _ (hend haligned)]
        exact hblock haligned
      · -- the last block of the data
        obtain ⟨b, hb, -⟩ := exists_of_byteAt (hinside (buf.length - 1) (by omega))
        have hdiv : (buf.length - 1) / 4096 = buf.length / 4096 := by omega
        rw [hdiv] at hb
        rw [hb]
        simp
    obtain ⟨part, hpart, hprefix⟩ := readWhole_eq_ok (by omega) hread
    rw [fileRead_of_le hy (Nat.zero_add _)] at hpart
    have hsome : ∀ p < buf.length, (byteAt (contents fs'.device y0) p).isSome := by
      intro p hp
      rw [hinside p hp]
      rfl
    have hlonger := lt_length_readBytes (by omega) (by omega) hsome hhole
      (Nat.zero_le _) (by omega) hpart
    have hle := hprefix.length_le
    omega
  · rintro (hshort | ⟨haligned, hhole⟩)
    · have hlen : y0.size.toNat = buf.length := by omega
      rw [hlen]
      apply readWhole_eq
      · rw [fileRead_of_le hy (by omega), hdata _ (Nat.le_refl _)]
      · exact Nat.le_refl _
      · exact fun hlt => absurd hlt (Nat.lt_irrefl _)
    · rw [← hbeyond _ (hend haligned)] at hhole
      apply readWhole_eq
      · rw [fileRead_of_le hy (Nat.zero_add _),
          readBytes_hole (by omega) (by omega) haligned hhole (Nat.zero_le _),
          hdata _ (by omega)]
      · omega
      · intro hlt
        have hfirst : (buf.length + 0) / 4096 = buf.length / 4096 := rfl
        rw [fileRead_of_le hy (by omega)]
        obtain ⟨k, hk⟩ : ∃ k, y0.size.toNat - buf.length = k + 1 :=
          ⟨y0.size.toNat - buf.length - 1, by omega⟩
        rw [hk, readBytes, if_pos (by omega), logicalOf_of_lt (by omega), hfirst, hhole]

end

end ZiqaKernel
