/-
The ring-buffer log of the kernel (`klog.rs`), whose newest entries stay.
-/
import ZiqaKernel.ByteImage
import ZiqaKernel.RingQueue

namespace ZiqaKernel

def klogCapacity : Nat := 256
def klogMsgLen : Nat := 128

inductive Level where
  | error
  | warn
  | info
  | debug
deriving DecidableEq

def Level.rank : Level → Nat
  | error => 0
  | warn => 1
  | info => 2
  | debug => 3

structure LogEntry where
  level : Level
  tick : UInt64
  msg : Image klogMsgLen
  msgLen : Nat

/-- `LogEntry::empty` -/
def LogEntry.empty : LogEntry := ⟨.info, 0, Image.zero, 0⟩

/-- What an entry says: level, tick and `msg[..msg_len]`. -/
def LogEntry.record (e : LogEntry) : Level × UInt64 × List UInt8 :=
  (e.level, e.tick, (List.range e.msgLen).map e.msg.get)

structure KernelLog where
  entries : Nat → LogEntry
  head : Nat
  tail : Nat
  count : Nat
  minLevel : Level

namespace KernelLog

/-- `KernelLog::new` -/
def new : KernelLog := ⟨fun _ => .empty, 0, 0, 0, .info⟩

/-- The entry that `log` stores: at most 128 bytes of the message. -/
def entryOf (level : Level) (tick : UInt64) (msg : List UInt8) : LogEntry :=
  let len := min msg.length klogMsgLen
  { LogEntry.empty with
    level := level
    tick := tick
    msg := LogEntry.empty.msg.splice 0 len fun i => msg.getD i 0
    msgLen := len }

/-- `KernelLog::log`, on the bytes of the message. -/
def log (l : KernelLog) (level : Level) (tick : UInt64) (msg : List UInt8) : KernelLog :=
  if level.rank > l.minLevel.rank then l
  else
    let l' := { l with
      entries := Function.update l.entries l.tail (entryOf level tick msg)
      tail := (l.tail + 1) % klogCapacity }
    if l.count < klogCapacity then { l' with count := l.count + 1 }
    else { l' with head := (l.head + 1) % klogCapacity }

/-- `KlogIter` -/
structure Iter where
  log : KernelLog
  pos : Nat

def iter (l : KernelLog) : Iter := ⟨l, 0⟩

/-- `KlogIter::next` -/
def Iter.next (it : Iter) : Option (LogEntry × Iter) :=
  if it.pos ≥ it.log.count then none
  else some (it.log.entries ((it.log.head + it.pos) % klogCapacity), { it with pos := it.pos + 1 })

theorem Iter.next_eq_some {it it' : Iter} {e : LogEntry} (h : it.next = some (e, it')) :
    it.pos < it.log.count ∧ e = it.log.entries ((it.log.head + it.pos) % klogCapacity) ∧
      it' = { it with pos := it.pos + 1 } := by
  unfold next at h
  split at h
  · cases h
  · next hpos =>
    obtain ⟨rfl, rfl⟩ := Prod.mk.inj (Option.some.inj h)
    exact ⟨by omega, rfl, rfl⟩

/-- A `for` loop over the iterator: the entries it goes through. -/
def Iter.collect (it : Iter) : List LogEntry :=
  match _h : it.next with
  | none => []
  | some (e, it') => e :: it'.collect
termination_by it.log.count - it.pos
decreasing_by
  obtain ⟨hlt, -, rfl⟩ := Iter.next_eq_some _h
  dsimp only
  omega

/-- A call of `log`, or an assignment to `min_level`. -/
inductive Call where
  | log (level : Level) (tick : UInt64) (msg : List UInt8)
  | setMinLevel (level : Level)

def step (l : KernelLog) : Call → KernelLog
  | .log level tick msg => l.log level tick msg
  | .setMinLevel level => { l with minLevel := level }

/-- The entries that pass the filter in force at the call, with their messages cut. -/
def accepted (minLevel : Level) : List Call → List (Level × UInt64 × List UInt8)
  | [] => []
  | .log level tick msg :: calls =>
    if level.rank ≤ minLevel.rank then (level, tick, msg.take klogMsgLen) :: accepted minLevel calls
    else accepted minLevel calls
  | .setMinLevel level :: calls => accepted level calls

theorem record_entryOf (level : Level) (tick : UInt64) (msg : List UInt8) :
    (entryOf level tick msg).record = (level, tick, msg.take klogMsgLen) := by
  have hbytes : (List.range (min msg.length klogMsgLen)).map (entryOf level tick msg).msg.get =
      msg.take klogMsgLen := by
    apply List.ext_getElem
    · simp [Nat.min_comm]
    · intro i hi _
      simp only [List.length_map, List.length_range, lt_inf_iff] at hi
      simp [entryOf, Image.get_splice, hi]
  simp only [LogEntry.record, ← hbytes]
  rfl

def window (l : KernelLog) : List LogEntry := ringWindow l.entries klogCapacity l.head l.count

theorem collect_eq (it : Iter) : it.collect = (List.range' it.pos (it.log.count - it.pos)).map
    fun i => it.log.entries ((it.log.head + i) % klogCapacity) := by
  fun_induction Iter.collect it with
  | case1 it h =>
    have hend : it.pos ≥ it.log.count := by
      by_contra hlt
      simp [Iter.next, hlt] at h
    simp [Nat.sub_eq_zero_of_le hend]
  | case2 it e it' h ih =>
    obtain ⟨hlt, rfl, rfl⟩ := Iter.next_eq_some h
    have hcount : it.log.count - it.pos = it.log.count - (it.pos + 1) + 1 := by omega
    rw [ih, hcount, List.range'_succ, List.map_cons]

theorem collect_iter (l : KernelLog) : l.iter.collect = l.window := by
  rw [collect_eq, window, ringWindow, List.range_eq_range']
  rfl

structure Keeps (l : KernelLog) (records : List (Level × UInt64 × List UInt8)) : Prop where
  head_lt : l.head < klogCapacity
  tail_eq : l.tail = (l.head + l.count) % klogCapacity
  count_eq : l.count = min records.length klogCapacity
  window_eq : l.window.map LogEntry.record = records.rtake klogCapacity

variable {l : KernelLog} {records : List (Level × UInt64 × List UInt8)} {level : Level}

theorem Keeps.log (h : l.Keeps records) (haccept : level.rank ≤ l.minLevel.rank) (tick : UInt64)
    (msg : List UInt8) :
    (l.log level tick msg).Keeps (records ++ [(level, tick, msg.take klogMsgLen)]) := by
  obtain ⟨hhead, htail, hcount, hwindow⟩ := h
  rw [window] at hwindow
  rw [KernelLog.log, if_neg (by omega)]
  dsimp only
  split_ifs with hroom
  · refine ⟨hhead, ?_, ?_, ?_⟩
    · rw [htail, Nat.mod_add_mod, Nat.add_assoc]
    · rw [List.length_append, List.length_singleton]
      dsimp only
      omega
    · rw [window, htail, ringWindow_push _ hhead hroom, rtake_concat_of_lt (by omega),
        List.map_append, hwindow, List.map_singleton, record_entryOf]
  · have hfull : l.count = klogCapacity := by omega
    rw [hfull, Nat.add_mod_right, Nat.mod_eq_of_lt hhead] at htail
    rw [hfull] at hwindow
    refine ⟨Nat.mod_lt _ (by omega), ?_, ?_, ?_⟩
    · rw [htail, hfull, Nat.add_mod_right, Nat.mod_mod]
    · rw [List.length_append, List.length_singleton]
      dsimp only
      omega
    · rw [window, htail, hfull, ringWindow_replace _ hhead, rtake_concat_of_le (by omega) (by omega),
        List.map_append, List.map_tail, hwindow, List.map_singleton, record_entryOf]

theorem Keeps.run (h : l.Keeps records) (calls : List Call) :
    (calls.foldl step l).Keeps (records ++ accepted l.minLevel calls) := by
  induction calls generalizing l records with
  | nil => simpa [accepted] using h
  | cons call calls ih =>
    cases call with
    | log level tick msg =>
      have hmin : (l.log level tick msg).minLevel = l.minLevel := by
        unfold KernelLog.log
        split_ifs <;> rfl
      by_cases haccept : level.rank ≤ l.minLevel.rank
      · simpa [step, accepted, haccept, hmin] using ih (h.log haccept tick msg)
      · have hsame : l.log level tick msg = l := if_pos (by omega)
        simpa [step, accepted, haccept, hsame] using ih h
    | setMinLevel level =>
      have hset : ({ l with minLevel := level } : KernelLog).Keeps records :=
        ⟨h.head_lt, h.tail_eq, h.count_eq, h.window_eq⟩
      exact ih hset

/-- After any calls the iterator yields the newest entries that were accepted, the oldest of
them first. -/
theorem collect_newest (calls : List Call) :
    ((calls.foldl step new).iter.collect).map LogEntry.record =
      (accepted Level.info calls).rtake (min (accepted Level.info calls).length klogCapacity) := by
  have hnew : new.Keeps [] := ⟨by decide, by decide, by decide, rfl⟩
  have hkeeps : (calls.foldl step new).Keeps (accepted Level.info calls) := hnew.run calls
  have hlast : (accepted Level.info calls).length - min (accepted Level.info calls).length
      klogCapacity = (accepted Level.info calls).length - klogCapacity := by omega
  rw [collect_iter, hkeeps.window_eq, List.rtake, List.rtake, hlast]

end KernelLog

end ZiqaKernel
