/-
How sockets refer to each other: the two ends of a connection, and the sockets that wait
for a listener, all by number.  The references are sound as long as the processes use
different numbers.
-/
import ZiqaKernel.Sockets

namespace ZiqaKernel

open Function FdTable

variable {P : Type}

namespace SocketKernel

/-! The table after a change -/

variable {m n : Nat}

section

variable (k : SocketKernel P)

theorem sockets_modify_self (n : Nat) (f : SocketEntry P → SocketEntry P) :
    (k.modify n f).sockets n = (k.sockets n).map f := SocketManager.modify_self f

theorem sockets_modify_of_ne (h : m ≠ n) (f : SocketEntry P → SocketEntry P) :
    (k.modify n f).sockets m = k.sockets m := SocketManager.modify_of_ne h f

theorem sockets_modify (n : Nat) (f : SocketEntry P → SocketEntry P) (m : Nat) :
    (k.modify n f).sockets m = (k.sockets m).map fun e => if m = n then f e else e :=
  SocketManager.modify_apply f m

theorem sockets_create (n : Nat) (e : SocketEntry P) (m : Nat) :
    (k.create n e).sockets m = if m = n then some e else k.sockets m := by
  by_cases h : m = n
  · rw [if_pos h, h]
    exact update_self ..
  · rw [if_neg h]
    exact update_of_ne h ..

end

/-! Conditions on the calls -/

/-- No other process has the descriptor open that the process is given next. -/
def NumberFree (k : SocketKernel P) (p : P) : Prop :=
  ∀ n, (k.fds p).lowestFree = some n → ∀ q, q ≠ p → (k.fds q).get n = none

def NotPending (k : SocketKernel P) (n : Nat) : Prop :=
  ∀ l e, k.sockets l = some e → n ∉ e.pending

def Reachable (k : SocketKernel P) (a : SockAddr) : Prop :=
  a.isLocal = true → k.findListener a.port a.addr = none → k.findAnyListener = none

/-- The condition on a call: a new descriptor has a number that no other process uses, a
socket that asks for a connection has none and waits for none, and does not end up with
another listener, and no socket is closed that waits for a connection. -/
def Careful (k : SocketKernel P) (p : P) : SocketCall → Prop
  | .socket _ _ | .accept _ _ _ => k.NumberFree p
  | .connect fd addr _ => (k.sockets fd).bind (·.paired) = none ∧ k.NotPending fd ∧
      ∀ a, addr = some (.ok a) → k.Reachable a
  | .close fd => k.NotPending fd
  | _ => True

/-! The invariant -/

/-- A socket has its number from its creator alone, connections have two ends, and who
waits for a connection has asked for it once and has none. -/
structure Tidy (k : SocketKernel P) : Prop where
  owned : ∀ n e, k.sockets n = some e → ((k.fds e.creator).get n).isSome
  apart : ∀ n e, k.sockets n = some e → ∀ q, q ≠ e.creator → (k.fds q).get n = none
  joined : ∀ n e m, k.sockets n = some e → e.paired = some m →
    ∃ e', k.sockets m = some e' ∧ e'.paired = some n
  waiting : ∀ l e m, k.sockets l = some e → m ∈ e.pending →
    ∃ c, k.sockets m = some c ∧ c.asked = some l ∧ c.paired = none
  once : ∀ l e, k.sockets l = some e → e.pending.Nodup

/-- The second socket has the creator and the connection of the first, and fewer wait
for it. -/
structure Eases (e e' : SocketEntry P) : Prop where
  creator : e'.creator = e.creator
  paired : e'.paired = e.paired
  asked : e'.asked = e.asked
  pending : e'.pending.Sublist e.pending

/-- The descriptors are the same, and so are the sockets, up to what `Eases` allows. -/
structure EasesTo (k k' : SocketKernel P) : Prop where
  fds : k'.fds = k.fds
  old : ∀ n e', k'.sockets n = some e' → ∃ e, k.sockets n = some e ∧ Eases e e'
  new : ∀ n e, k.sockets n = some e → ∃ e', k'.sockets n = some e' ∧ Eases e e'

variable {e : SocketEntry P}

section

variable {k k' k'' : SocketKernel P}

theorem Eases.refl (e : SocketEntry P) : Eases e e := ⟨rfl, rfl, rfl, .refl _⟩

theorem Eases.trans {e' e'' : SocketEntry P} (h : Eases e e') (h' : Eases e' e'') : Eases e e'' :=
  ⟨h'.creator.trans h.creator, h'.paired.trans h.paired, h'.asked.trans h.asked,
    h'.pending.trans h.pending⟩

theorem EasesTo.refl (k : SocketKernel P) : EasesTo k k :=
  ⟨rfl, fun _ e' h => ⟨e', h, .refl e'⟩, fun _ e h => ⟨e, h, .refl e⟩⟩

theorem EasesTo.trans (h : EasesTo k k') (h' : EasesTo k' k'') : EasesTo k k'' where
  fds := h'.fds.trans h.fds
  old n e'' he'' := by
    obtain ⟨e', he', h2⟩ := h'.old n e'' he''
    obtain ⟨e, he, h1⟩ := h.old n e' he'
    exact ⟨e, he, h1.trans h2⟩
  new n e he := by
    obtain ⟨e', he', h1⟩ := h.new n e he
    obtain ⟨e'', he'', h2⟩ := h'.new n e' he'
    exact ⟨e'', he'', h1.trans h2⟩

theorem EasesTo.modify (k : SocketKernel P) (n : Nat) {f : SocketEntry P → SocketEntry P}
    (hf : ∀ e, Eases e (f e)) : EasesTo k (k.modify n f) where
  fds := rfl
  old m e' he' := by
    rw [sockets_modify] at he'
    obtain ⟨e, he, rfl⟩ := Option.map_eq_some_iff.mp he'
    refine ⟨e, he, ?_⟩
    split
    · exact hf e
    · exact .refl e
  new m e he := by
    rw [sockets_modify, he]
    refine ⟨_, rfl, ?_⟩
    split
    · exact hf e
    · exact .refl e

/-- The two kernels differ at most in the socket under one number, which is eased. -/
def Touches (k k' : SocketKernel P) (n : Nat) : Prop :=
  k' = k ∨ ∃ f, k' = k.modify n f ∧ ∀ e, Eases e (f e)

theorem Touches.easesTo (h : Touches k k' n) : EasesTo k k' := by
  rcases h with rfl | ⟨f, rfl, hf⟩
  · exact .refl _
  · exact .modify k n hf

theorem Touches.sockets_of_ne (h : Touches k k' n) (hm : m ≠ n) :
    k'.sockets m = k.sockets m := by
  rcases h with rfl | ⟨f, rfl, -⟩
  · rfl
  · exact k.sockets_modify_of_ne hm f

theorem Tidy.of_easesTo (hk : k.Tidy) (h : EasesTo k k') : k'.Tidy where
  owned n e' he' := by
    obtain ⟨e, he, hease⟩ := h.old n e' he'
    rw [h.fds, hease.creator]
    exact hk.owned n e he
  apart n e' he' := by
    obtain ⟨e, he, hease⟩ := h.old n e' he'
    rw [h.fds, hease.creator]
    exact hk.apart n e he
  joined n e' m he' hpaired := by
    obtain ⟨e, he, hease⟩ := h.old n e' he'
    obtain ⟨d, hd, hback⟩ := hk.joined n e m he (hease.paired ▸ hpaired)
    obtain ⟨d', hd', hease'⟩ := h.new m d hd
    exact ⟨d', hd', hease'.paired.trans hback⟩
  waiting l e' m he' hmem := by
    obtain ⟨e, he, hease⟩ := h.old l e' he'
    obtain ⟨c, hc, hasked, hpaired⟩ := hk.waiting l e m he (hease.pending.subset hmem)
    obtain ⟨c', hc', hease'⟩ := h.new m c hc
    exact ⟨c', hc', hease'.asked.trans hasked, hease'.paired.trans hpaired⟩
  once l e' he' := by
    obtain ⟨e, he, hease⟩ := h.old l e' he'
    exact (hk.once l e he).sublist hease.pending

theorem Tidy.creator_eq (hk : k.Tidy) {p : P}
    (hopen : ((k.fds p).get n).isSome) (he : k.sockets n = some e) : e.creator = p := by
  by_contra hne
  rw [hk.apart n e he p (Ne.symm hne)] at hopen
  cases hopen

/-- There is no socket under a number that is about to be given to a process, if no other
process uses it. -/
theorem Tidy.vacant (hk : k.Tidy) {p : P} (hfree : k.NumberFree p)
    (hlow : (k.fds p).lowestFree = some n) : k.sockets n = none := by
  by_contra hsome
  obtain ⟨e, he⟩ := Option.ne_none_iff_exists'.mp hsome
  have hopen := hk.owned n e he
  by_cases hp : e.creator = p
  · rw [hp, (lowestFree_eq_some hlow).1] at hopen
    cases hopen
  · rw [hfree n hlow e.creator hp] at hopen
    cases hopen

theorem ne_of_vacant (hn : k.sockets n = none) (he : k.sockets m = some e) : m ≠ n := by
  rintro rfl
  rw [hn] at he
  cases he

theorem Tidy.ne_of_mem_pending (hk : k.Tidy) {l : Nat}
    (hn : k.sockets n = none) (he : k.sockets l = some e) (hm : m ∈ e.pending) : m ≠ n := by
  obtain ⟨c, hc, -⟩ := hk.waiting l e m he hm
  exact ne_of_vacant hn hc

theorem Tidy.notPending_vacant (hk : k.Tidy) (hn : k.sockets n = none) :
    k.NotPending n := fun _ _ he hmem => hk.ne_of_mem_pending hn he hmem rfl

theorem Tidy.create [DecidableEq P] (hk : k.Tidy) {p : P} (hfree : k.NumberFree p)
    {t : FdTable} {path : List UInt8} {flags : UInt32}
    (halloc : (k.fds p).allocFile path flags = some (n, t)) (domain socktype : UInt32) :
    ((k.setFds p t).create n (.new p domain socktype)).Tidy := by
  have hlow := lowestFree_of_allocFile halloc
  have hvacant := hk.vacant hfree hlow
  have hget (q : P) (i : Nat) (hi : i ≠ n) : ((k.setFds p t).fds q).get i = (k.fds q).get i := by
    by_cases hq : q = p
    · subst hq
      change (update k.fds q t q).get i = _
      rw [update_self, get_of_allocFile halloc, if_neg hi]
    · change (update k.fds p t q).get i = _
      rw [update_of_ne hq]
  constructor
  case owned =>
    intro i e he
    rw [sockets_create] at he
    split at he
    · next hi =>
      cases he
      change ((update k.fds p t p).get i).isSome
      rw [update_self, get_of_allocFile halloc, if_pos hi]
      rfl
    · next hi =>
      change (((k.setFds p t).fds e.creator).get i).isSome
      rw [hget _ i hi]
      exact hk.owned i e he
  case apart =>
    intro i e he q hq
    rw [sockets_create] at he
    split at he
    · next hi =>
      cases he
      have hqp : q ≠ p := hq
      change (update k.fds p t q).get i = none
      rw [update_of_ne hqp, hi]
      exact hfree n hlow q hqp
    · next hi =>
      change ((k.setFds p t).fds q).get i = none
      rw [hget _ i hi]
      exact hk.apart i e he q hq
  case joined =>
    intro i e m he hpaired
    rw [sockets_create] at he
    split at he
    · cases he
      cases hpaired
    · obtain ⟨d, hd, hback⟩ := hk.joined i e m he hpaired
      refine ⟨d, ?_, hback⟩
      rw [sockets_create, if_neg (ne_of_vacant hvacant hd)]
      exact hd
  case waiting =>
    intro l e m he hmem
    rw [sockets_create] at he
    split at he
    · cases he
      cases hmem
    · obtain ⟨c, hc, hrest⟩ := hk.waiting l e m he hmem
      refine ⟨c, ?_, hrest⟩
      rw [sockets_create, if_neg (hk.ne_of_mem_pending hvacant he hmem)]
      exact hc
  case once =>
    intro l e he
    rw [sockets_create] at he
    split at he
    · cases he
      exact List.nodup_nil
    · exact hk.once l e he

theorem sockets_remove_self (k : SocketKernel P) (n : Nat) : (k.remove n).sockets n = none :=
  update_self ..

theorem sockets_remove_of_ne (k : SocketKernel P) (h : m ≠ n) : (k.remove n).sockets m =
      if (k.sockets n).bind (·.paired) = some m then (k.sockets m).map SocketEntry.cutOff
      else k.sockets m :=
  (SocketManager.remove_apply n m).trans (if_neg h)

/-- What is left of another socket when one is removed: it may have lost its
connection. -/
theorem of_sockets_remove {e' : SocketEntry P} (h : (k.remove n).sockets m = some e') :
    m ≠ n ∧ ∃ e, k.sockets m = some e ∧ e'.creator = e.creator ∧ e'.pending = e.pending ∧
      (e'.paired = none ∨ e'.paired = e.paired ∧ (k.sockets n).bind (·.paired) ≠ some m) := by
  have hne : m ≠ n := by
    rintro rfl
    rw [sockets_remove_self] at h
    cases h
  refine ⟨hne, ?_⟩
  rw [sockets_remove_of_ne k hne] at h
  split at h
  · obtain ⟨e, he, rfl⟩ := Option.map_eq_some_iff.mp h
    exact ⟨e, he, rfl, rfl, .inl rfl⟩
  · next hno => exact ⟨e', h, rfl, rfl, .inr ⟨rfl, hno⟩⟩

theorem Tidy.remove (hk : k.Tidy) (hno : k.NotPending n) : (k.remove n).Tidy where
  owned m e' he' := by
    obtain ⟨-, e, he, hcreator, -⟩ := of_sockets_remove he'
    rw [hcreator]
    exact hk.owned m e he
  apart m e' he' := by
    obtain ⟨-, e, he, hcreator, -⟩ := of_sockets_remove he'
    rw [hcreator]
    exact hk.apart m e he
  joined m e' x he' hpaired := by
    obtain ⟨hne, e, he, -, -, hnone | ⟨hsame, hother⟩⟩ := of_sockets_remove he'
    · rw [hnone] at hpaired
      cases hpaired
    · obtain ⟨d, hd, hback⟩ := hk.joined m e x he (hsame ▸ hpaired)
      have hx : x ≠ n := by
        rintro rfl
        rw [hd] at hother
        exact hother hback
      refine ⟨d, ?_, hback⟩
      rw [sockets_remove_of_ne k hx, if_neg, hd]
      -- a socket that is connected with `n` is not connected with `m`
      intro hnx
      obtain ⟨a, ha, hax⟩ := Option.bind_eq_some_iff.mp hnx
      obtain ⟨d', hd', hdn⟩ := hk.joined n a x ha hax
      rw [hd] at hd'
      cases hd'
      rw [hback] at hdn
      exact hne (Option.some.inj hdn)
  waiting l e' m he' hmem := by
    obtain ⟨-, e, he, -, hpending, -⟩ := of_sockets_remove he'
    rw [hpending] at hmem
    obtain ⟨c, hc, hasked, hpaired⟩ := hk.waiting l e m he hmem
    have hm : m ≠ n := fun heq => hno l e he (heq ▸ hmem)
    rw [sockets_remove_of_ne k hm, hc]
    split
    · exact ⟨c.cutOff, rfl, hasked, rfl⟩
    · exact ⟨c, rfl, hasked, hpaired⟩
  once l e' he' := by
    obtain ⟨-, e, he, -, hpending, -⟩ := of_sockets_remove he'
    rw [hpending]
    exact hk.once l e he

/-- What asking for a connection does to the socket under the number `m`. -/
def asking (fd l m : Nat) (e : SocketEntry P) : SocketEntry P :=
  { e with
    state := if m = fd then .connected else e.state
    pending := if m = l then e.pending ++ [fd] else e.pending
    asked := if m = fd then some l else e.asked }

theorem sockets_ask (k : SocketKernel P) (fd l m : Nat) :
    (k.ask fd l).sockets m = (k.sockets m).map (asking fd l m) := by
  unfold ask
  rw [sockets_modify, sockets_modify, Option.map_map]
  congr 1
  funext e
  simp only [comp_apply, asking]
  split
  · split
    · rfl
    · rfl
  · split
    · rfl
    · rfl

theorem Tidy.ask (hk : k.Tidy) {fd : Nat} {a : SocketEntry P} (ha : k.sockets fd = some a)
    (hpaired : a.paired = none) (hno : k.NotPending fd) (l : Nat) : (k.ask fd l).Tidy where
  owned n e' he' := by
    rw [sockets_ask] at he'
    obtain ⟨e, he, rfl⟩ := Option.map_eq_some_iff.mp he'
    exact hk.owned n e he
  apart n e' he' := by
    rw [sockets_ask] at he'
    obtain ⟨e, he, rfl⟩ := Option.map_eq_some_iff.mp he'
    exact hk.apart n e he
  joined n e' m he' hpaired := by
    rw [sockets_ask] at he'
    obtain ⟨e, he, rfl⟩ := Option.map_eq_some_iff.mp he'
    obtain ⟨d, hd, hback⟩ := hk.joined n e m he hpaired
    exact ⟨asking fd l m d, by rw [sockets_ask, hd]; rfl, hback⟩
  waiting l' e' m he' hmem := by
    rw [sockets_ask] at he'
    obtain ⟨e, he, rfl⟩ := Option.map_eq_some_iff.mp he'
    rw [sockets_ask]
    by_cases hold : m ∈ e.pending
    · obtain ⟨c, hc, hasked, hcp⟩ := hk.waiting l' e m he hold
      have hm : m ≠ fd := fun heq => hno l' e he (heq ▸ hold)
      exact ⟨asking fd l m c, by rw [hc]; rfl, (if_neg hm).trans hasked, hcp⟩
    · dsimp only [asking] at hmem
      split at hmem
      · next hl =>
        have hm : m = fd := by
          rcases List.mem_append.mp hmem with h | h
          · exact absurd h hold
          · exact List.mem_singleton.mp h
        subst hm hl
        exact ⟨asking m l' m a, by rw [ha]; rfl, if_pos rfl, hpaired⟩
      · exact absurd hmem hold
  once l' e' he' := by
    rw [sockets_ask] at he'
    obtain ⟨e, he, rfl⟩ := Option.map_eq_some_iff.mp he'
    dsimp only [asking]
    split
    · exact List.nodup_append.mpr ⟨hk.once l' e he, List.nodup_singleton fd, fun x hx y hy =>
        fun heq => hno l' e he (by rw [← List.mem_singleton.mp hy, ← heq]; exact hx)⟩
    · exact hk.once l' e he

theorem easesTo_pop (k : SocketKernel P) (l : Nat) : EasesTo k (k.pop l) :=
  .modify k l fun e => ⟨rfl, rfl, rfl, e.pending.dropLast_sublist⟩

theorem Tidy.notPending_pop (hk : k.Tidy) {l client : Nat}
    (he : k.sockets l = some e) (hlast : e.pending.getLast? = some client) :
    (k.pop l).NotPending client := by
  have hsplit : e.pending.dropLast ++ [client] = e.pending :=
    List.dropLast_append_getLast? client hlast
  obtain ⟨c, hc, hasked, -⟩ := hk.waiting l e client he (List.mem_of_getLast? hlast)
  intro l' e' he' hmem
  obtain ⟨d, hd, hease⟩ := (easesTo_pop k l).old l' e' he'
  obtain ⟨c', hc', hasked', -⟩ := hk.waiting l' d client hd (hease.pending.subset hmem)
  -- the socket has asked one listener only
  rw [hc] at hc'
  cases hc'
  rw [hasked] at hasked'
  cases hasked'
  rw [pop, sockets_modify_self, he] at he'
  cases he'
  have hnodup := hk.once l e he
  rw [← hsplit] at hnodup
  exact (List.disjoint_of_nodup_append hnodup) hmem (List.mem_singleton_self client)

section

variable {l client fd : Nat}

/-- What joining does to the socket under the number `m`, apart from the addresses and
the state. -/
theorem of_sockets_join (hne : client ≠ fd) {e' : SocketEntry P}
    (h : (k.join l client fd).sockets m = some e') :
    ∃ e, k.sockets m = some e ∧ e'.creator = e.creator ∧ e'.pending = e.pending ∧
      e'.asked = e.asked ∧ e'.paired =
        if m = fd then some client else if m = client then some fd else e.paired := by
  unfold join at h
  rw [sockets_modify, sockets_modify, Option.map_map] at h
  obtain ⟨e, he, rfl⟩ := Option.map_eq_some_iff.mp h
  refine ⟨e, he, ?_⟩
  dsimp only [Function.comp_apply]
  by_cases hfd : m = fd
  · subst hfd
    have hclient : ¬ m = client := Ne.symm hne
    simp [hclient]
  · by_cases hclient : m = client
    · simp [hclient, hne]
    · simp [hfd, hclient]

theorem exists_sockets_join (l client fd : Nat) (he : k.sockets m = some e) :
    ∃ e', (k.join l client fd).sockets m = some e' := by
  unfold join
  rw [sockets_modify, sockets_modify, he]
  exact ⟨_, rfl⟩

theorem Tidy.join (hk : k.Tidy) (hne : client ≠ fd) {a c : SocketEntry P}
    (ha : k.sockets fd = some a) (hc : k.sockets client = some c) (hap : a.paired = none)
    (hcp : c.paired = none) (hfd : k.NotPending fd) (hclient : k.NotPending client) :
    (k.join l client fd).Tidy where
  owned n e' he' := by
    obtain ⟨e, he, hcreator, -⟩ := of_sockets_join hne he'
    rw [hcreator]
    exact hk.owned n e he
  apart n e' he' := by
    obtain ⟨e, he, hcreator, -⟩ := of_sockets_join hne he'
    rw [hcreator]
    exact hk.apart n e he
  joined n e' m he' hpaired := by
    obtain ⟨e, he, -, -, -, hsame⟩ := of_sockets_join hne he'
    rw [hpaired] at hsame
    have hthere : ∃ d, k.sockets m = some d ∧
        (some n = if m = fd then some client else if m = client then some fd else d.paired) := by
      split at hsame
      · next hn =>
        cases hsame
        exact ⟨c, hc, by rw [if_neg hne, if_pos rfl, hn]⟩
      · split at hsame
        · next hn =>
          cases hsame
          exact ⟨a, ha, by rw [if_pos rfl, hn]⟩
        · obtain ⟨d, hd, hback⟩ := hk.joined n e m he hsame.symm
          have hm : m ≠ fd := by
            rintro rfl
            rw [ha] at hd
            cases hd
            rw [hap] at hback
            cases hback
          have hm' : m ≠ client := by
            rintro rfl
            rw [hc] at hd
            cases hd
            rw [hcp] at hback
            cases hback
          exact ⟨d, hd, by rw [if_neg hm, if_neg hm', hback]⟩
    obtain ⟨d, hd, hback⟩ := hthere
    obtain ⟨d', hd'⟩ := exists_sockets_join l client fd hd
    obtain ⟨d2, hd2, -, -, -, hpair⟩ := of_sockets_join hne hd'
    rw [hd] at hd2
    cases hd2
    exact ⟨d', hd', hpair.trans hback.symm⟩
  waiting l' e' m he' hmem := by
    obtain ⟨e, he, -, hpending, -⟩ := of_sockets_join hne he'
    rw [hpending] at hmem
    obtain ⟨d, hd, hasked, hdp⟩ := hk.waiting l' e m he hmem
    obtain ⟨d', hd'⟩ := exists_sockets_join l client fd hd
    obtain ⟨d2, hd2, -, -, hasked', hpair⟩ := of_sockets_join hne hd'
    rw [hd] at hd2
    cases hd2
    have hm : m ≠ fd := fun heq => hfd l' e he (heq ▸ hmem)
    have hm' : m ≠ client := fun heq => hclient l' e he (heq ▸ hmem)
    rw [if_neg hm, if_neg hm'] at hpair
    exact ⟨d', hd', hasked'.trans hasked, hpair.trans hdp⟩
  once l' e' he' := by
    obtain ⟨e, he, -, hpending, -⟩ := of_sockets_join hne he'
    rw [hpending]
    exact hk.once l' e he

end

end

/-! The calls -/

section

variable {k : SocketKernel P} {p : P} {fd : Nat}

theorem touches_sysBind (addr : Option (Except AbiError SockAddr)) :
    Touches k (sysBind fd addr k).kernel fd := by
  unfold sysBind
  split
  · exact .inl rfl
  · split
    · exact .inl rfl
    · split
      · exact .inr ⟨_, rfl, fun e => ⟨rfl, rfl, rfl, .refl _⟩⟩
      · exact .inl rfl
      · exact .inr ⟨_, rfl, fun e => ⟨rfl, rfl, rfl, .refl _⟩⟩

theorem touches_sysListen (stack : Option Nat) : Touches k (sysListen fd stack k).kernel fd := by
  unfold sysListen
  split
  · exact .inl rfl
  · split
    · split
      · split
        · exact .inl rfl
        · exact .inr ⟨_, rfl, fun e => ⟨rfl, rfl, rfl, .refl _⟩⟩
      · exact .inl rfl
    · exact .inr ⟨_, rfl, fun e => ⟨rfl, rfl, rfl, .refl _⟩⟩

theorem eases_consume (e : SocketEntry P) (n : Nat) : Eases e (e.consume n) := by
  unfold SocketEntry.consume
  split
  · exact ⟨rfl, rfl, rfl, .refl _⟩
  · exact ⟨rfl, rfl, rfl, .refl _⟩

theorem touches_sysRecvfrom (buf : Option Nat) (copied : Except AbiError Unit) :
    Touches k (sysRecvfrom p fd buf copied k).kernel fd := by
  rcases SocketManager.recvfrom_sockets with hsame | ⟨n, hread⟩
  · exact .inl (congrArg (SocketKernel.mk k.fds k.capabilities) hsame)
  · exact .inr ⟨_, congrArg (SocketKernel.mk k.fds k.capabilities) hread, fun e =>
      eases_consume e n⟩

/-- What `sys_sendto` leaves of the table: nothing has changed, or the bytes are in the
buffers of the socket and of the one it is paired with. -/
theorem sysSendto_kernel (buf : Option (Except AbiError (List UInt8))) :
    (sysSendto p fd buf k).kernel = k ∨ ∃ e bytes, k.sockets fd = some e ∧
      buf = some (.ok bytes) ∧ (sysSendto p fd buf k).kernel =
        let sent := k.modify fd fun e => { e with txBuf := e.txBuf ++ bytes }
        match e.paired with
        | none => sent
        | some m => sent.modify m fun e => { e with rxBuf := e.rxBuf ++ bytes } := by
  rcases SocketManager.sendto_sockets with hsame | ⟨e, bytes, _, he, hbuf, hsent⟩
  · exact .inl (congrArg (SocketKernel.mk k.fds k.capabilities) hsame)
  · refine .inr ⟨e, bytes, he, ?_, (congrArg (SocketKernel.mk k.fds k.capabilities) hsent).trans ?_⟩
    · obtain ⟨copied, rfl, hcopied⟩ := Option.map_eq_some_iff.mp hbuf
      cases copied with
      | error err => cases hcopied
      | ok bytes' =>
        cases hcopied
        rfl
    · cases e.paired with
      | none => rfl
      | some m => rfl

theorem easesTo_sysSendto (buf : Option (Except AbiError (List UInt8))) :
    EasesTo k (sysSendto p fd buf k).kernel := by
  rcases sysSendto_kernel buf with hsame | ⟨e, bytes, -, -, hsent⟩
  · rw [hsame]
    exact .refl k
  · have hfirst := EasesTo.modify k fd (f := fun e => { e with txBuf := e.txBuf ++ bytes })
      fun e => ⟨rfl, rfl, rfl, .refl _⟩
    rw [hsent]
    cases e.paired with
    | none => exact hfirst
    | some m => exact hfirst.trans (.modify _ m fun e => ⟨rfl, rfl, rfl, .refl _⟩)

theorem easesTo_takeOver (k : SocketKernel P) (l fd h next : Nat) (a remote : SockAddr) :
    EasesTo k (k.takeOver l fd h next a remote) := by
  refine EasesTo.trans (.modify k fd fun e => ?_) (.modify _ l fun e => ?_)
  · exact ⟨rfl, rfl, rfl, .refl _⟩
  · exact ⟨rfl, rfl, rfl, .refl _⟩

theorem Tidy.sysConnect (hk : k.Tidy) (hpaired : (k.sockets fd).bind (·.paired) = none)
    (hno : k.NotPending fd) (addr : Option (Except AbiError SockAddr)) (stack : Option Nat) :
    (sysConnect fd addr stack k).kernel.Tidy := by
  unfold SocketKernel.sysConnect
  split
  · exact hk
  · exact hk
  · next raw =>
    split
    · exact hk
    · next e hopen =>
      have hnoted := EasesTo.modify k fd (f := fun e => { e with remoteAddr := some raw })
        fun e => ⟨rfl, rfl, rfl, .refl _⟩
      have hk' := hk.of_easesTo hnoted
      dsimp only
      split
      · split
        · exact hk'
        · next l _ =>
          have he : k.sockets fd = some e := (Option.filter_eq_some_iff.mp hopen).1
          rw [he] at hpaired
          obtain ⟨e', he', hease⟩ := hnoted.new fd e he
          refine hk'.ask he' (hease.paired.trans hpaired) ?_ l
          intro l' d' hd' hmem
          obtain ⟨d, hd, hease'⟩ := hnoted.old l' d' hd'
          exact hno l' d hd (hease'.pending.subset hmem)
      · split
        · split
          · exact hk'
          · split
            · exact hk'
            · exact hk'.of_easesTo (.modify _ fd fun e => ⟨rfl, rfl, rfl, .refl _⟩)
        · exact hk'.of_easesTo (.modify _ fd fun e => ⟨rfl, rfl, rfl, .refl _⟩)

variable [DecidableEq P]

theorem Tidy.sysSocket (hk : k.Tidy) (hfree : k.NumberFree p) (domain socktype : UInt32) :
    (sysSocket p domain socktype k).kernel.Tidy := by
  unfold SocketKernel.sysSocket
  split
  · split
    · exact hk
    · next halloc => exact hk.create hfree halloc domain socktype
  · exact hk

theorem NotPending.create (hno : k.NotPending m) (t : FdTable) (n : Nat)
    (domain socktype : UInt32) :
    ((k.setFds p t).create n (.new p domain socktype)).NotPending m := by
  intro l e he hmem
  rw [sockets_create] at he
  split at he
  · cases he
    cases hmem
  · exact hno l e he hmem

theorem Tidy.acceptLocal (hk : k.Tidy) (hfree : k.NumberFree p) {l client : Nat}
    (he : k.sockets l = some e)
    (hlast : e.pending.getLast? = some client) : (acceptLocal p l client k).kernel.Tidy := by
  have hk1 : (k.pop l).Tidy := hk.of_easesTo (easesTo_pop k l)
  have hfree1 : (k.pop l).NumberFree p := hfree
  have hclient := hk.notPending_pop he hlast
  obtain ⟨c, hc, -, hcp⟩ := hk.waiting l e client he (List.mem_of_getLast? hlast)
  obtain ⟨c', hc', hease⟩ := (easesTo_pop k l).new client c hc
  unfold SocketKernel.acceptLocal
  dsimp only
  split
  · exact hk1
  · next fd t halloc =>
    have hk2 := hk1.create hfree1 halloc 2 1
    have hvacant := hk1.vacant hfree1 (lowestFree_of_allocFile halloc)
    have hne : client ≠ fd := ne_of_vacant hvacant hc'
    split
    · refine hk2.join hne (a := .new p 2 1) (c := c') ?_ ?_ rfl (hease.paired.trans hcp)
        ((hk1.notPending_vacant hvacant).create t fd 2 1) (hclient.create t fd 2 1)
      · rw [sockets_create, if_pos rfl]
      · rw [sockets_create, if_neg hne]
        exact hc'
    · exact hk2

theorem Tidy.acceptOutside (hk : k.Tidy) (hfree : k.NumberFree p) (l : Nat)
    (arrival : Arrival) (written : Except AbiError Unit) :
    (acceptOutside p l arrival written k).kernel.Tidy := by
  unfold SocketKernel.acceptOutside
  split
  · exact hk
  · next fd t halloc =>
    have hk2 := hk.create hfree halloc 2 1
    have hvacant := hk.vacant hfree (lowestFree_of_allocFile halloc)
    have hremoved := hk2.remove ((hk.notPending_vacant hvacant).create t fd 2 1)
    dsimp only
    split
    · exact hremoved
    · split
      · split
        · exact hk2.of_easesTo (easesTo_takeOver ..)
        · exact hk2.of_easesTo (easesTo_takeOver ..)
      · exact hremoved
      · exact hremoved

theorem Tidy.sysAccept (hk : k.Tidy) (hfree : k.NumberFree p) (arrival : Arrival)
    (written : Except AbiError Unit) : (sysAccept p fd arrival written k).kernel.Tidy := by
  unfold SocketKernel.sysAccept
  split
  · exact hk
  · next e he =>
    split
    · exact hk
    · split
      · next client hlast => exact hk.acceptLocal hfree he hlast
      · split
        · exact hk.acceptOutside hfree fd arrival written
        · exact hk

theorem Tidy.setFds_close (hk : k.Tidy) (hnone : k.sockets fd = none) :
    (k.setFds p ((k.fds p).close fd).2).Tidy := by
  have hget (q : P) (n : Nat) (hn : n ≠ fd) :
      ((k.setFds p ((k.fds p).close fd).2).fds q).get n = (k.fds q).get n := by
    by_cases hq : q = p
    · subst hq
      change (update k.fds q _ q).get n = _
      rw [update_self, get_close, if_neg fun h => hn h.1]
    · change (update k.fds p _ q).get n = _
      rw [update_of_ne hq]
  have hne {n : Nat} {e : SocketEntry P} (he : k.sockets n = some e) : n ≠ fd :=
    ne_of_vacant hnone he
  exact {
    owned := fun n e he => by
      rw [hget _ n (hne he)]
      exact hk.owned n e he
    apart := fun n e he q hq => by
      rw [hget _ n (hne he)]
      exact hk.apart n e he q hq
    joined := hk.joined
    waiting := hk.waiting
    once := hk.once }

theorem Tidy.sysClose (hk : k.Tidy) (hno : k.NotPending fd) : (sysClose p fd k).kernel.Tidy := by
  unfold SocketKernel.sysClose
  split
  · exact hk
  · have hremoved : ∀ k', k' = (if (k.sockets fd).isSome then k.remove fd else k) →
        k'.Tidy ∧ k'.sockets fd = none := by
      rintro _ rfl
      split
      · exact ⟨hk.remove hno, k.sockets_remove_self fd⟩
      · next h => exact ⟨hk, Option.not_isSome_iff_eq_none.mp h⟩
    obtain ⟨hk', hnone⟩ := hremoved _ rfl
    dsimp only
    split
    · next t hclose =>
      have hafter := hk'.setFds_close (p := p) hnone
      rw [hclose] at hafter
      exact hafter
    · exact hk'

theorem Tidy.run (hk : k.Tidy) {call : SocketCall} (hcareful : k.Careful p call) :
    (call.run p k).kernel.Tidy := by
  cases call with
  | socket domain socktype => exact hk.sysSocket hcareful domain socktype
  | bind fd addr => exact hk.of_easesTo (touches_sysBind addr).easesTo
  | listen fd stack => exact hk.of_easesTo (touches_sysListen stack).easesTo
  | connect fd addr stack => exact hk.sysConnect hcareful.1 hcareful.2.1 addr stack
  | accept fd arrival written => exact hk.sysAccept hcareful arrival written
  | sendto fd buf => exact hk.of_easesTo (easesTo_sysSendto buf)
  | recvfrom fd buf copied => exact hk.of_easesTo (touches_sysRecvfrom buf copied).easesTo
  | close fd => exact hk.sysClose hcareful

end

end SocketKernel

end ZiqaKernel
