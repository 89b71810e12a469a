/-
The mapper of the `x86_64` crate, which is no code of the kernel.  The calls that the
kernel makes of an `OffsetPageTable` are parameters of everything that is built on them,
and what the crate documents about them are hypotheses, each with a name.
-/
import ZiqaKernel.PageSpace

namespace ZiqaKernel

/-- `MapToError`. -/
inductive MapToError where
  | frameAllocationFailed
  | parentEntryHugePage
  | pageAlreadyMapped

/-- The calls of the mapper, for the tables at `root` and the 4 KiB page of the address
`v`. -/
class Mapper where
  /-- `map_to`, with the frame allocator of the kernel. -/
  mapTo (root v frame : Nat) (flags : PageTableFlags) (m : PhysMemory) :
    Except MapToError Unit × PhysMemory
  /-- `translate_addr(..).is_some()`.  Without a result the call has panicked. -/
  translateAddr (root v : Nat) (t : Tables) : Option Bool
  /-- The tables after `unmap`.  The kernel does nothing with the frame. -/
  unmap (root v : Nat) (t : Tables) : Tables
  /-- The tables after `update_flags`. -/
  updateFlags (root v : Nat) (flags : PageTableFlags) (t : Tables) : Tables

namespace Mapper

variable [Mapper]

/-- `map_to` fails on an address that is mapped: with `PageAlreadyMapped`, or with
`ParentEntryHugePage` inside a huge page. -/
class RefusesMapped : Prop where
  mapTo_of_mapped {root v : Nat} {m : PhysMemory} (frame : Nat) (flags : PageTableFlags)
    (h : (walk m.tables v 4 root).isSome = true) :
    ∃ e m', mapTo root v frame flags m = (.error e, m')

/-- `map_to` in a tree of tables, with the flags of a present page.  When it succeeds it has
added the page, for which it takes at most three frames, and the entries above the page pass
on the rights of the page.  It succeeds for a page that has no entry when three frames are
left. -/
class MapsPages : Prop where
  mapTo_adds {root v frame : Nat} {flags : PageTableFlags} {m m' : PhysMemory}
    (h : PageSpace m root) (hv : LowerHalf v) (hframe : frame ∉ m.free)
    (hpresent : flags.present = true) (hmap : mapTo root v frame flags m = (.ok (), m')) :
    PageEntryAdded m m' root v ⟨frame, flags⟩ 3
  mapTo_isOk {root v frame : Nat} {flags : PageTableFlags} {m : PhysMemory}
    (h : PageSpace m root) (hv : LowerHalf v) (hframe : frame ∉ m.free)
    (hpresent : flags.present = true) (hroom : 3 ≤ m.free.length)
    (hpage : pageEntry m.tables v root = none) : ∃ m', mapTo root v frame flags m = (.ok (), m')

/-- `translate_addr` finds a page whose entry can be reached exactly if the entry is in use. -/
class FindsPages : Prop where
  translateAddr_of_route {root v : Nat} {t : Tables} {r : Route}
    (h : routeTo t v 4 root = some r) :
    translateAddr root v t = some (decide (t r.frame r.index ≠ .unused))

/-- `unmap` removes the entry that holds the frame of the page.  Where there is no such
entry it is an error and nothing changes. -/
class UnmapsPages : Prop where
  unmap_of_frame {root v : Nat} {t : Tables} {r : Route} (h : routeTo t v 4 root = some r)
    (hframe : (t r.frame r.index).frame.isSome = true) :
    unmap root v t = t.set r.frame r.index .unused
  unmap_of_no_frame {root v : Nat} {t : Tables}
    (h : ∀ r, routeTo t v 4 root = some r → (t r.frame r.index).frame = none) : unmap root v t = t

/-- `update_flags` replaces the flags of the entry of the page.  Where no entry is in use it
is an error and nothing changes. -/
class UpdatesFlags : Prop where
  updateFlags_of_used {root v : Nat} {t : Tables} {r : Route} (flags : PageTableFlags)
    (h : routeTo t v 4 root = some r) (hused : t r.frame r.index ≠ .unused) :
    updateFlags root v flags t = t.set r.frame r.index ⟨(t r.frame r.index).addr, flags⟩
  updateFlags_of_unused {root v : Nat} {t : Tables} (flags : PageTableFlags)
    (h : ∀ r, routeTo t v 4 root = some r → t r.frame r.index = .unused) :
    updateFlags root v flags t = t

export RefusesMapped (mapTo_of_mapped)
export MapsPages (mapTo_adds mapTo_isOk)
export FindsPages (translateAddr_of_route)
export UnmapsPages (unmap_of_frame unmap_of_no_frame)
export UpdatesFlags (updateFlags_of_used updateFlags_of_unused)

end Mapper

end ZiqaKernel
