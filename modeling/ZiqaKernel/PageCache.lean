/-
The page cache of the file systems (`fs/pagecache.rs`): sixteen slots, an entry for a page
in one of them, and the entry used least recently replaced when they are all taken.
-/
import ZiqaKernel.StepRuns
import ZiqaKernel.ZiqaFsBlock

namespace ZiqaKernel

structure PageKey where
  fileId : UInt32
  pageNum : UInt32
deriving DecidableEq

/-- `CacheEntry`; of its 4096 bytes the first `size` are in use. -/
structure CacheEntry where
  key : PageKey
  data : List UInt8
  size : Nat
  accessCount : Nat
  dirty : Bool

/-! The slots -/

def cachedEntry (key : PageKey) : List (Option CacheEntry) → Option CacheEntry
  | [] => none
  | none :: rest => cachedEntry key rest
  | some e :: rest => if e.key = key then some e else cachedEntry key rest

def updateFirst (key : PageKey) (f : CacheEntry → CacheEntry) :
    List (Option CacheEntry) → List (Option CacheEntry)
  | [] => []
  | none :: rest => none :: updateFirst key f rest
  | some e :: rest => if e.key = key then some (f e) :: rest else some e :: updateFirst key f rest

/-- The loop of `put` that looks for an empty slot or the entry used least recently, from
slot `i` on. -/
def lruSlot : List (Option CacheEntry) → Nat → Nat → Option Nat → Option Nat
  | [], _, _, lruIdx => lruIdx
  | none :: _, i, _, _ => some i
  | some e :: rest, i, minAccess, lruIdx =>
    if e.accessCount < minAccess then lruSlot rest (i + 1) e.accessCount (some i)
    else lruSlot rest (i + 1) minAccess lruIdx

def slotKeys (entries : List (Option CacheEntry)) : List PageKey :=
  entries.filterMap (·.map CacheEntry.key)

variable {f : CacheEntry → CacheEntry}

section

variable {entries : List (Option CacheEntry)} {key k : PageKey}

@[simp] theorem slotKeys_none_cons : slotKeys (none :: entries) = slotKeys entries := rfl

@[simp] theorem slotKeys_some_cons (e : CacheEntry) :
    slotKeys (some e :: entries) = e.key :: slotKeys entries := rfl

theorem cachedEntry_eq_none_iff : cachedEntry key entries = none ↔ key ∉ slotKeys entries := by
  induction entries with
  | nil => simp [cachedEntry, slotKeys]
  | cons slot rest ih =>
    cases slot with
    | none => simpa [cachedEntry] using ih
    | some e =>
      by_cases hkey : e.key = key
      · simp [cachedEntry, hkey]
      · simp [cachedEntry, hkey, ih, Ne.symm hkey]

theorem cachedEntry_updateFirst (hf : ∀ e, (f e).key = e.key) :
    cachedEntry k (updateFirst key f entries) =
      if k = key then (cachedEntry key entries).map f else cachedEntry k entries := by
  induction entries with
  | nil => simp [cachedEntry, updateFirst]
  | cons slot rest ih =>
    cases slot with
    | none => exact ih
    | some e =>
      by_cases hkey : e.key = key
      · by_cases hk : k = key
        · simp [cachedEntry, updateFirst, hkey, hk, hf]
        · simp [cachedEntry, updateFirst, hkey, hk, hf, Ne.symm hk]
      · by_cases hk : k = key
        · subst hk
          simpa [cachedEntry, updateFirst, hkey] using ih
        · simp [cachedEntry, updateFirst, hkey, hk, ih]

theorem slotKeys_updateFirst (hf : ∀ e, (f e).key = e.key) :
    slotKeys (updateFirst key f entries) = slotKeys entries := by
  induction entries with
  | nil => rfl
  | cons slot rest ih =>
    cases slot with
    | none => exact ih
    | some e =>
      rw [updateFirst]
      split
      · rw [slotKeys_some_cons, slotKeys_some_cons, hf]
      · rw [slotKeys_some_cons, slotKeys_some_cons, ih]

theorem length_updateFirst (key : PageKey) (f : CacheEntry → CacheEntry)
    (entries : List (Option CacheEntry)) :
    (updateFirst key f entries).length = entries.length := by
  induction entries with
  | nil => rfl
  | cons slot rest ih =>
    cases slot with
    | none => exact congrArg (· + 1) ih
    | some e =>
      rw [updateFirst]
      split
      · rfl
      · exact congrArg (· + 1) ih

/-- The slot that is found is one of those looked at; it is empty, or there is no empty
one. -/
theorem lruSlot_spec {i minAccess j : Nat} {lruIdx : Option Nat}
    (h : lruSlot entries i minAccess lruIdx = some j) :
    lruIdx = some j ∧ (∀ slot ∈ entries, slot.isSome) ∨ i ≤ j ∧ j < i + entries.length ∧
        (entries[j - i]? = some none ∨ ∀ slot ∈ entries, slot.isSome) := by
  induction entries generalizing i minAccess lruIdx with
  | nil => exact .inl ⟨h, by simp⟩
  | cons slot rest ih =>
    cases slot with
    | none =>
      obtain rfl : i = j := Option.some.inj h
      exact .inr ⟨le_rfl, by simp, .inl (by simp)⟩
    | some e =>
      -- What holds of the rest holds with this entry before it.
      have hlater (hj : i + 1 ≤ j) (hlt : j < i + 1 + rest.length)
          (hempty : rest[j - (i + 1)]? = some none ∨ ∀ slot ∈ rest, slot.isSome) :
          i ≤ j ∧ j < i + (some e :: rest).length ∧
            ((some e :: rest)[j - i]? = some none ∨ ∀ slot ∈ some e :: rest, slot.isSome) := by
        obtain ⟨d, rfl⟩ := Nat.exists_eq_add_of_le hj
        rw [show i + 1 + d - (i + 1) = d by omega] at hempty
        rw [show i + 1 + d - i = d + 1 by omega, List.getElem?_cons_succ, List.forall_mem_cons,
          List.length_cons]
        exact ⟨by omega, by omega, hempty.imp_right fun hall => ⟨rfl, hall⟩⟩
      rw [lruSlot] at h
      split at h
      · rcases ih h with ⟨hi, hall⟩ | ⟨hj, hlt, hempty⟩
        · obtain rfl := Option.some.inj hi
          exact .inr ⟨le_rfl, by simp, .inr (by simpa using hall)⟩
        · exact .inr (hlater hj hlt hempty)
      · rcases ih h with ⟨hi, hall⟩ | ⟨hj, hlt, hempty⟩
        · exact .inl ⟨hi, by simpa using hall⟩
        · exact .inr (hlater hj hlt hempty)

variable {new : CacheEntry} {i : Nat}

theorem mem_slotKeys_set (h : k ∈ slotKeys (entries.set i (some new))) :
    k = new.key ∨ k ∈ slotKeys entries := by
  obtain ⟨slot, hslot, hkey⟩ := List.mem_filterMap.mp h
  rcases List.mem_or_eq_of_mem_set hslot with hslot | rfl
  · exact .inr (List.mem_filterMap.mpr ⟨slot, hslot, hkey⟩)
  · exact .inl (Option.some.inj hkey).symm

theorem nodup_slotKeys_set (h : (slotKeys entries).Nodup) (hnew : new.key ∉ slotKeys entries) :
    (slotKeys (entries.set i (some new))).Nodup := by
  induction entries generalizing i with
  | nil => exact h
  | cons slot rest ih =>
    cases slot with
    | none =>
      cases i with
      | zero => exact List.nodup_cons.mpr ⟨hnew, h⟩
      | succ i => exact ih h hnew
    | some e =>
      rw [slotKeys_some_cons, List.mem_cons, not_or] at hnew
      rw [slotKeys_some_cons, List.nodup_cons] at h
      cases i with
      | zero => exact List.nodup_cons.mpr ⟨hnew.2, h.2⟩
      | succ i =>
        refine List.nodup_cons.mpr ⟨fun hmem => ?_, ih h.2 hnew.2⟩
        rcases mem_slotKeys_set hmem with heq | hmem
        · exact hnew.1 heq.symm
        · exact h.1 hmem

theorem cachedEntry_set (h : (slotKeys entries).Nodup) (hnew : new.key ∉ slotKeys entries)
    (hi : i < entries.length) : cachedEntry k (entries.set i (some new)) =
      if k = new.key then some new
      else if entries[i]?.join.map CacheEntry.key = some k then none
      else cachedEntry k entries := by
  induction entries generalizing i with
  | nil => cases hi
  | cons slot rest ih =>
    cases slot with
    | none =>
      cases i with
      | zero => simp [cachedEntry, eq_comm]
      | succ i => exact ih h hnew (Nat.lt_of_succ_lt_succ hi)
    | some e =>
      rw [slotKeys_some_cons, List.mem_cons, not_or] at hnew
      rw [slotKeys_some_cons, List.nodup_cons] at h
      cases i with
      | zero =>
        by_cases hk : e.key = k
        · have hrest : cachedEntry k rest = none := cachedEntry_eq_none_iff.mpr (hk ▸ h.1)
          simp [cachedEntry, hk, hrest, eq_comm]
        · simp [cachedEntry, hk, Ne.symm hk, eq_comm]
      | succ i =>
        have hrest := ih h.2 hnew.2 (Nat.lt_of_succ_lt_succ hi)
        by_cases hk : e.key = k
        · have hother : rest[i]?.join.map CacheEntry.key ≠ some k := by
            intro heq
            obtain ⟨e', he', hkey⟩ := Option.map_eq_some_iff.mp heq
            rw [Option.join_eq_some_iff] at he'
            exact h.1 (List.mem_filterMap.mpr
              ⟨some e', List.mem_of_getElem? he', by simp [hkey, hk]⟩)
          subst hk
          simp [cachedEntry, hother, Ne.symm hnew.1]
        · simp [cachedEntry, hk, hrest]

end

/-! The cache -/

/-- `PageCache`. -/
structure PageCache where
  entries : List (Option CacheEntry)
  accessEpoch : Nat
  slots : entries.length = 16

namespace PageCache

def new : PageCache where
  entries := List.replicate 16 none
  accessEpoch := 0
  slots := rfl

def update (c : PageCache) (key : PageKey) (f : CacheEntry → CacheEntry) : PageCache where
  entries := updateFirst key f c.entries
  accessEpoch := c.accessEpoch
  slots := (length_updateFirst key f c.entries).trans c.slots

def get (c : PageCache) (key : PageKey) : Option (List UInt8) × PageCache :=
  let epoch := (c.accessEpoch + 1) % 2 ^ 64
  ((cachedEntry key c.entries).map fun e => e.data.take e.size,
    { c.update key fun e => { e with accessCount := epoch } with accessEpoch := epoch })

def put (c : PageCache) (key : PageKey) (data : List UInt8) : Except AbiError Unit × PageCache :=
  if data.length > 4096 then (.error .outOfMemory, c)
  else if (cachedEntry key c.entries).isSome then
    (.ok (), c.update key fun e => { e with
      data := data ++ e.data.drop data.length
      size := data.length
      accessCount := c.accessEpoch
      dirty := true })
  else
    match lruSlot c.entries 0 (2 ^ 64 - 1) none with
    | none => (.error .outOfMemory, c)
    | some idx => (.ok (), {
        entries := c.entries.set idx (some {
          key := key
          data := data ++ List.replicate (4096 - data.length) 0
          size := data.length
          accessCount := c.accessEpoch
          dirty := true })
        accessEpoch := c.accessEpoch
        slots := List.length_set.trans c.slots })

def markDirty (c : PageCache) (key : PageKey) : PageCache :=
  c.update key fun e => { e with dirty := true }

def flush (c : PageCache) : Nat × PageCache :=
  (c.entries.countP (·.any CacheEntry.dirty), {
    entries := c.entries.map (·.map fun e => { e with dirty := false })
    accessEpoch := c.accessEpoch
    slots := List.length_map .. |>.trans c.slots })

def clear (_ : PageCache) : PageCache := new

/-- The key of the entry that a successful `put` of `key` takes the slot of. -/
def evicts (c : PageCache) (key : PageKey) : Option PageKey :=
  if (cachedEntry key c.entries).isSome then none
  else (lruSlot c.entries 0 (2 ^ 64 - 1) none).bind fun idx =>
    c.entries[idx]?.join.map CacheEntry.key

def contents (c : PageCache) (key : PageKey) : Option (List UInt8) :=
  (cachedEntry key c.entries).map fun e => e.data.take e.size

def UniqueKeys (c : PageCache) : Prop := (slotKeys c.entries).Nodup

section

variable {c : PageCache} {key k : PageKey}

theorem UniqueKeys.update (h : c.UniqueKeys)
    (hf : ∀ e, (f e).key = e.key) : (c.update key f).UniqueKeys :=
  (congrArg List.Nodup (slotKeys_updateFirst hf)).mpr h

theorem contents_update (hf : ∀ e, (f e).key = e.key) : (c.update key f).contents k =
      if k = key then (cachedEntry key c.entries).map fun e => (f e).data.take (f e).size
      else c.contents k := by
  rw [contents, update, cachedEntry_updateFirst hf]
  split
  · rw [Option.map_map]
    rfl
  · rfl

theorem contents_update_same (hf : ∀ e, (f e).key = e.key)
    (hdata : ∀ e, (f e).data.take (f e).size = e.data.take e.size) :
    (c.update key f).contents k = c.contents k := by
  rw [contents_update hf]
  split
  · next hk => simp only [hdata, contents, hk]
  · rfl

theorem contents_flush : c.flush.2.contents k = c.contents k := by
  have hmap (entries : List (Option CacheEntry)) :
      cachedEntry k (entries.map (·.map fun e => { e with dirty := false })) =
        (cachedEntry k entries).map fun e => { e with dirty := false } := by
    induction entries with
    | nil => rfl
    | cons slot rest ih =>
      cases slot with
      | none => exact ih
      | some e =>
        by_cases hk : e.key = k
        · simp [cachedEntry, hk]
        · simp [cachedEntry, hk, ih]
  rw [contents, flush, hmap, Option.map_map]
  rfl

theorem slotKeys_flush : slotKeys c.flush.2.entries = slotKeys c.entries := by
  rw [slotKeys, flush, List.filterMap_map]
  refine List.filterMap_congr fun slot _ => ?_
  cases slot <;> rfl

theorem put_spec {data : List UInt8} {c' : PageCache} (hc : c.UniqueKeys)
    (h : c.put key data = (.ok (), c')) :
    c'.UniqueKeys ∧ ∀ k, c'.contents k =
      if k = key then some data else if c.evicts key = some k then none else c.contents k := by
  rw [put] at h
  split_ifs at h with hlength hcached
  · cases h
  · obtain rfl := (Prod.mk.inj h).2
    refine ⟨hc.update fun _ => rfl, fun k => ?_⟩
    obtain ⟨e, he⟩ := Option.isSome_iff_exists.mp hcached
    rw [contents_update (by intro; rfl), evicts, if_pos hcached, he, Option.map_some,
      List.take_left]
    simp
  · split at h
    · cases h
    · next idx hidx =>
      obtain rfl := (Prod.mk.inj h).2
      have hnew : key ∉ slotKeys c.entries := cachedEntry_eq_none_iff.mp (by simpa using hcached)
      have hlt : idx < c.entries.length := by
        rcases lruSlot_spec hidx with ⟨hnone, -⟩ | ⟨-, hlt, -⟩
        · cases hnone
        · omega
      refine ⟨nodup_slotKeys_set hc hnew, fun k => ?_⟩
      rw [contents, cachedEntry_set hc hnew hlt, evicts, if_neg hcached, hidx, Option.bind_some]
      split_ifs
      · rw [Option.map_some, List.take_left]
      · rfl
      · rfl

theorem put_error {data : List UInt8} {e : AbiError} {c' : PageCache}
    (h : c.put key data = (.error e, c')) : c' = c := by
  rw [put] at h
  split_ifs at h
  · exact (Prod.mk.inj h).2.symm
  · cases h
  · split at h
    · exact (Prod.mk.inj h).2.symm
    · cases h

theorem full_of_evicts (h : c.evicts key = some k) :
    c.contents key = none ∧ ∀ slot ∈ c.entries, slot.isSome := by
  rw [evicts] at h
  split_ifs at h with hcached
  obtain ⟨idx, hidx, h⟩ := Option.bind_eq_some_iff.mp h
  refine ⟨by simpa [contents] using hcached, ?_⟩
  rcases lruSlot_spec hidx with ⟨-, hall⟩ | ⟨-, -, hempty | hall⟩
  · exact hall
  · rw [Nat.sub_zero] at hempty
    rw [hempty] at h
    cases h
  · exact hall

end

end PageCache

/-! Histories -/

inductive CacheCall where
  | get (key : PageKey)
  | put (key : PageKey) (data : List UInt8)
  | markDirty (key : PageKey)
  | flush
  | clear

/-- A cache with the bytes of the last successful `put` of each key, and those of them whose
entry was not evicted since, nor the cache cleared. -/
structure CacheHistory where
  cache : PageCache
  last : PageKey → Option (List UInt8)
  due : PageKey → Option (List UInt8)

namespace CacheHistory

open PageCache

def start : CacheHistory := ⟨.new, fun _ => none, fun _ => none⟩

def step : CacheCall → CacheHistory → CacheHistory
  | .get key, h => { h with cache := (h.cache.get key).2 }
  | .put key data, h =>
    match h.cache.put key data with
    | (.error _, c) => { h with cache := c }
    | (.ok (), c) => {
        cache := c
        last := fun k => if k = key then some data else h.last k
        due := fun k => if k = key then some data
          else if h.cache.evicts key = some k then none else h.due k }
  | .markDirty key, h => { h with cache := h.cache.markDirty key }
  | .flush, h => { h with cache := h.cache.flush.2 }
  | .clear, h => { h with cache := h.cache.clear, due := fun _ => none }

structure Faithful (h : CacheHistory) : Prop where
  unique : h.cache.UniqueKeys
  contents : ∀ k, h.cache.contents k = h.due k
  last : ∀ k, h.due k = none ∨ h.due k = h.last k

theorem Faithful.sameContents {h : CacheHistory} (hh : h.Faithful) {c : PageCache}
    (hkeys : slotKeys c.entries = slotKeys h.cache.entries)
    (hsame : ∀ k, c.contents k = h.cache.contents k) : Faithful { h with cache := c } where
  unique := (congrArg List.Nodup hkeys).mpr hh.unique
  contents k := (hsame k).trans (hh.contents k)
  last := hh.last

theorem Faithful.step {h : CacheHistory} (hh : h.Faithful) (call : CacheCall) :
    (step call h).Faithful := by
  cases call with
  | get key =>
    exact hh.sameContents (slotKeys_updateFirst fun _ => rfl)
      fun k => contents_update_same (fun _ => rfl) fun _ => rfl
  | put key data =>
    rw [CacheHistory.step]
    split
    · next hput => exact put_error hput ▸ hh
    · next hput =>
      obtain ⟨hunique, hcontents⟩ := put_spec hh.unique hput
      refine ⟨hunique, fun k => ?_, fun k => ?_⟩
      · rw [hcontents, hh.contents]
      · dsimp only
        split_ifs
        · exact .inr rfl
        · exact .inl rfl
        · exact hh.last k
  | markDirty key =>
    exact hh.sameContents (slotKeys_updateFirst fun _ => rfl)
      fun k => contents_update_same (fun _ => rfl) fun _ => rfl
  | flush => exact hh.sameContents slotKeys_flush fun k => contents_flush
  | clear => exact ⟨List.nodup_nil, fun _ => rfl, fun _ => .inl rfl⟩

/-- Along every sequence of calls the cache is a partial map: the keys differ, `get`
returns what the last `put` has stored unless the entry was evicted or the cache cleared
since, and an entry is evicted only for a new key while all sixteen slots are taken. -/
theorem cache_isMap (calls : List CacheCall) : AlongRun step (fun h => h.cache.UniqueKeys ∧
        (∀ k, (h.cache.get k).1 = h.due k ∧ (h.due k = none ∨ h.due k = h.last k)) ∧
        ∀ key k, h.cache.evicts key = some k → h.cache.contents key = none ∧
          h.cache.entries.length = 16 ∧ ∀ slot ∈ h.cache.entries, slot.isSome)
      calls start := by
  have hstart : start.Faithful := ⟨List.nodup_nil, fun _ => rfl, fun _ => .inl rfl⟩
  refine (alongRun_of_eachStep (P := Faithful) (fun call h hh _ => hh.step call) hstart
    (eachStep_true calls _)).imp fun h hh => ?_
  refine ⟨hh.unique, fun k => ⟨hh.contents k, hh.last k⟩, fun key k hevicts => ?_⟩
  obtain ⟨hnew, hfull⟩ := full_of_evicts hevicts
  exact ⟨hnew, h.cache.slots, hfull⟩

end CacheHistory

end ZiqaKernel
