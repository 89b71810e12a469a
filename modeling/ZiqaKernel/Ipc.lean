/-
Message channels (`ipc/mod.rs`): fixed-size messages in a ring of sixteen slots,
and the table in which a channel is found by its number.
-/
import ZiqaKernel.RingQueue
import ZiqaKernel.StepRuns

namespace ZiqaKernel

open RingQueue Function

/-- `MSG_MAX`. -/
def msgMax : Nat := 256

/-- A message: of its buffer only the first `len` bytes are ever read. -/
structure Message where
  sender : Nat
  data : List UInt8
  len_le : data.length ≤ msgMax

/-- `Message::new`: what does not fit is cut off. -/
def Message.new (sender : Nat) (data : List UInt8) : Message where
  sender := sender
  data := data.take msgMax
  len_le := List.length_take_le msgMax data

inductive IpcError where
  | full
  | empty
  | invalidChannel
deriving DecidableEq

/-- `Channel`, with `RING_CAP` slots. -/
abbrev Channel : Type := RingQueue Message 16

namespace Channel

def new : Channel := empty (by decide)

def send (chan : Channel) (msg : Message) : Except IpcError Channel :=
  match chan.push msg with
  | none => .error .full
  | some chan' => .ok chan'

def recv (chan : Channel) : Except IpcError (Message × Channel) :=
  match chan.pop with
  | none => .error .empty
  | some popped => .ok popped

def IsFull (chan : Channel) : Prop := (chan.head + 1) % 16 = chan.tail

theorem send_eq_error_iff {chan : Channel} {msg : Message} {e : IpcError} :
    chan.send msg = .error e ↔ e = .full ∧ chan.toList.length = 15 := by
  have hfull : chan.push msg = none ↔ chan.toList.length = 15 := by
    rw [push_eq_none_iff, ringSpan_full chan.tail_lt chan.head_lt,
      length_toList, size]
    exact Nat.add_right_cancel_iff
  rw [← hfull, send]
  cases chan.push msg with
  | none => simp [eq_comm]
  | some chan' => simp

theorem recv_eq_error_iff {chan : Channel} {e : IpcError} :
    chan.recv = .error e ↔ e = .empty ∧ chan.toList = [] := by
  rw [← pop_eq_none_iff, recv]
  cases chan.pop with
  | none => simp [eq_comm]
  | some popped => simp

inductive Call where
  | send (msg : Message)
  | recv

/-- A channel with the messages that were accepted and those that were handed out so far. -/
structure History where
  channel : Channel
  sent : List Message
  received : List Message

namespace History

def start : History := ⟨.new, [], []⟩

def step : Call → History → History
  | .send msg, h =>
    match h.channel.send msg with
    | .error _ => h
    | .ok chan => { h with channel := chan, sent := h.sent ++ [msg] }
  | .recv, h =>
    match h.channel.recv with
    | .error _ => h
    | .ok (msg, chan) => { h with channel := chan, received := h.received ++ [msg] }

/-- What has been accepted is what has been handed out and what waits, in order. -/
def InOrder (h : History) : Prop := h.sent = h.received ++ h.channel.toList

theorem InOrder.step {h : History} (hh : h.InOrder) (call : Call) : (step call h).InOrder := by
  unfold InOrder at hh ⊢
  cases call with
  | send msg =>
    rw [History.step, Channel.send]
    cases hpush : h.channel.push msg with
    | none => exact hh
    | some chan =>
      change h.sent ++ [msg] = h.received ++ chan.toList
      rw [toList_push hpush, hh, List.append_assoc]
  | recv =>
    rw [History.step, Channel.recv]
    cases hpop : h.channel.pop with
    | none => exact hh
    | some popped =>
      change h.sent = (h.received ++ [popped.1]) ++ popped.2.toList
      rw [hh, toList_pop hpop, List.append_assoc, List.singleton_append]

/-- Along every sequence of calls a channel is a queue of at most 15 messages. -/
theorem channel_isQueue (calls : List Call) :
    AlongRun step (fun h => h.sent = h.received ++ h.channel.toList ∧
      (∀ msg e, h.channel.send msg = .error e ↔
        e = .full ∧ h.sent.length = h.received.length + 15) ∧
      ∀ e, h.channel.recv = .error e ↔ e = .empty ∧ h.sent = h.received) calls start := by
  have hstart : start.InOrder := rfl
  have halong : AlongRun step InOrder calls start :=
    alongRun_of_eachStep (P := InOrder) (fun call _ hh _ => hh.step call) hstart
      (eachStep_true calls start)
  refine halong.imp fun h hh => ⟨hh, fun msg e => ?_, fun e => ?_⟩
  · rw [send_eq_error_iff, hh, List.length_append, Nat.add_left_cancel_iff]
  · rw [recv_eq_error_iff, hh, List.append_right_eq_self]

end History

end Channel

/-- `MAX_CHANNELS`. -/
def maxChannels : Nat := 32

/-- `ChannelTable`; numbers start at one. -/
structure ChannelTable where
  channels : Nat → Option Channel

namespace ChannelTable

def get (t : ChannelTable) (id : Nat) : Option Channel :=
  if id = 0 ∨ id > maxChannels then none else t.channels (id - 1)

/-- The table with another channel under a number that `get` accepts. -/
def set (t : ChannelTable) (id : Nat) (chan : Channel) : ChannelTable :=
  ⟨Function.update t.channels (id - 1) (some chan)⟩

/-- `create`: the first unused number. -/
def create (t : ChannelTable) : Option (Nat × ChannelTable) :=
  ((List.range maxChannels).find? fun i => (t.channels i).isNone).map fun i =>
    (i + 1, t.set (i + 1) .new)

/-- `ipc::send`. -/
def send (t : ChannelTable) (id sender : Nat) (data : List UInt8) : Except IpcError ChannelTable :=
  match t.get id with
  | none => .error .invalidChannel
  | some chan =>
    match chan.send (.new sender data) with
    | .error e => .error e
    | .ok chan' => .ok (t.set id chan')

/-- `ipc::recv`. -/
def recv (t : ChannelTable) (id : Nat) : Except IpcError (Message × ChannelTable) :=
  match t.get id with
  | none => .error .invalidChannel
  | some chan =>
    match chan.recv with
    | .error e => .error e
    | .ok (msg, chan') => .ok (msg, t.set id chan')

def pending (t : ChannelTable) (id : Nat) : List Message :=
  (t.get id).elim [] toList

variable {t t' : ChannelTable} {id : Nat}

theorem get_set {chan : Channel} (hid : (t.get id).isSome) :
    (t.set id chan).get id = some chan := by
  unfold get at hid ⊢
  split
  · next h => simp [h] at hid
  · exact Function.update_self ..

theorem get_set_ne {chan : Channel} {other : Nat} (hid : (t.get id).isSome)
    (hne : other ≠ id) : (t.set id chan).get other = t.get other := by
  unfold get at hid ⊢
  split
  · rfl
  · apply Function.update_of_ne
    split at hid
    · cases hid
    · omega

theorem send_ok {sender : Nat} {data : List UInt8} (h : t.send id sender data = .ok t') :
    t'.pending id = t.pending id ++ [.new sender data] ∧
      ∀ other ≠ id, t'.pending other = t.pending other := by
  rw [send] at h
  split at h
  · cases h
  · next chan hchan =>
    rw [Channel.send] at h
    have hid : (t.get id).isSome := by rw [hchan]; rfl
    split at h
    · cases h
    · next chan' hsend =>
      obtain rfl := Except.ok.inj h
      split at hsend
      · cases hsend
      · next pushed hpush =>
        obtain rfl := Except.ok.inj hsend
        constructor
        · rw [pending, get_set hid, pending, hchan]
          exact toList_push hpush
        · intro other hne
          rw [pending, get_set_ne hid hne, pending]

theorem send_room {sender : Nat} {data : List UInt8} (h : t.send id sender data = .ok t') :
    ∃ chan, t.get id = some chan ∧ ¬ chan.IsFull := by
  rw [send] at h
  split at h
  · cases h
  · next chan hchan =>
    refine ⟨chan, hchan, fun hfull => ?_⟩
    rw [Channel.send, push_eq_none_iff.mpr hfull] at h
    cases h

theorem recv_ok {msg : Message} (h : t.recv id = .ok (msg, t')) :
    t.pending id = msg :: t'.pending id ∧ ∀ other ≠ id, t'.pending other = t.pending other := by
  rw [recv] at h
  split at h
  · cases h
  · next chan hchan =>
    rw [Channel.recv] at h
    have hid : (t.get id).isSome := by rw [hchan]; rfl
    split at h
    · cases h
    · next msg' chan' hrecv =>
      obtain ⟨rfl, rfl⟩ := Prod.mk.inj (Except.ok.inj h)
      split at hrecv
      · cases hrecv
      · next popped hpop =>
        obtain rfl := Except.ok.inj hrecv
        constructor
        · rw [pending, hchan, pending, get_set hid]
          exact toList_pop hpop
        · intro other hne
          rw [pending, get_set_ne hid hne, pending]

theorem recv_error_iff : (∃ e, t.recv id = .error e) ↔ t.pending id = [] := by
  rw [recv, pending]
  cases hchan : t.get id with
  | none => exact iff_of_true ⟨_, rfl⟩ rfl
  | some chan =>
    dsimp only [Option.elim_some]
    rw [← pop_eq_none_iff, Channel.recv]
    cases hpop : chan.pop with
    | none => exact iff_of_true ⟨_, rfl⟩ rfl
    | some popped => simp

/-- `destroy`: what waits in the channel is lost with it. -/
def destroy (t : ChannelTable) (id : Nat) : Bool × ChannelTable :=
  if (t.get id).isSome then (true, ⟨update t.channels (id - 1) none⟩) else (false, t)

theorem pending_update {slot : Option Channel} (h : slot.elim [] toList = []) (i : Nat) :
    pending ⟨update t.channels i slot⟩ id = if id = i + 1 then [] else t.pending id := by
  dsimp only [pending, get]
  by_cases hid : id = i + 1
  · rw [if_pos hid, hid, Nat.add_sub_cancel, update_self]
    split
    · rfl
    · exact h
  · rw [if_neg hid]
    split
    · rfl
    · rw [update_of_ne (by omega)]

theorem pending_create : (t.create.elim t Prod.snd).pending id = t.pending id := by
  rw [create]
  cases hfree : (List.range maxChannels).find? fun i => (t.channels i).isNone with
  | none => rfl
  | some i =>
    have hnone : t.channels i = none := by simpa using List.find?_some hfree
    refine (pending_update rfl i).trans ?_
    split_ifs with hid
    · rw [hid, pending, get, Nat.add_sub_cancel, hnone, ite_self, Option.elim_none]
    · rfl

theorem pending_destroy (other : Nat) :
    (t.destroy id).2.pending other = if other = id then [] else t.pending other := by
  unfold destroy
  split
  · next h =>
    have hpos : id - 1 + 1 = id := by
      unfold get at h
      split at h
      · cases h
      · omega
    rw [pending_update rfl, hpos]
  · next h =>
    split_ifs with heq
    · rw [heq, pending, Option.not_isSome_iff_eq_none.mp h, Option.elim_none]
    · rfl

inductive Call where
  | create
  | destroy (id : Nat)
  | send (id sender : Nat) (data : List UInt8)
  | recv (id : Nat)

/-- The table, with what the channels in it have accepted and handed out so far. -/
structure Traffic where
  table : ChannelTable
  sent : Nat → List Message
  received : Nat → List Message

namespace Traffic

def step : Call → Traffic → Traffic
  | .create, s => { s with table := s.table.create.elim s.table Prod.snd }
  | .destroy id, s => ⟨(s.table.destroy id).2, update s.sent id [], update s.received id []⟩
  | .send id sender data, s =>
    match s.table.send id sender data with
    | .error _ => s
    | .ok t => { s with table := t, sent := update s.sent id (s.sent id ++ [.new sender data]) }
  | .recv id, s =>
    match s.table.recv id with
    | .error _ => s
    | .ok (msg, t) =>
      { s with table := t, received := update s.received id (s.received id ++ [msg]) }

def InOrder (s : Traffic) : Prop := ∀ id, s.sent id = s.received id ++ s.table.pending id

theorem InOrder.step {s : Traffic} (h : s.InOrder) (call : Call) : (step call s).InOrder := by
  intro id
  have hid := h id
  cases call with
  | create => exact hid.trans (congrArg _ pending_create.symm)
  | destroy k =>
    dsimp only [Traffic.step]
    by_cases hk : id = k <;> simp [pending_destroy, hk, hid]
  | send k sender data =>
    rw [Traffic.step]
    split
    · exact hid
    · next t hsend =>
      obtain ⟨hself, hothers⟩ := send_ok hsend
      by_cases hk : id = k
      · simp [hk, hself, h k]
      · simp [hk, hothers id hk, hid]
  | recv k =>
    rw [Traffic.step]
    split
    · exact hid
    · next msg t hrecv =>
      obtain ⟨hself, hothers⟩ := recv_ok hrecv
      by_cases hk : id = k
      · simp [hk, hself, h k]
      · simp [hk, hothers id hk, hid]

/-- However the calls are mixed, each channel hands out what was sent to it, in order,
and nothing else. -/
theorem channels_inOrder (calls : List Call) :
    AlongRun step InOrder calls ⟨⟨fun _ => none⟩, fun _ => [], fun _ => []⟩ := by
  refine alongRun_of_eachStep (fun call _ hs _ => hs.step call) ?_ (eachStep_true calls _)
  intro id
  simp [pending, get]

end Traffic

end ChannelTable

end ZiqaKernel
