/-
Whose sockets the socket calls of a process touch.  The table of sockets is shared and
goes by descriptor number, so everything hangs on which numbers the processes use.
-/
import ZiqaKernel.SocketLinks

namespace ZiqaKernel

variable {P : Type}

namespace SocketKernel

/-! What may happen to the socket of another process -/

def Joined (k : SocketKernel P) (m n : Nat) : Prop :=
  (k.sockets m).bind (·.paired) = some n ∧ (k.sockets n).bind (·.paired) = some m

/-- What becomes of the socket `e` under the number `n` when another process makes a
call: nothing, unless it listens on the address that is asked for a connection, has
itself asked the socket of the call for one, or is connected with it. -/
inductive Exchange (k : SocketKernel P) (n : Nat) (e : SocketEntry P) :
    SocketCall → SocketEntry P → Prop where
  | untouched (call : SocketCall) : Exchange k n e call e
  | asked {fd : Nat} {a : SockAddr} {stack : Option Nat} (h : k.listensOn a.port a.addr n = true) :
      Exchange k n e (.connect fd (some (.ok a)) stack) { e with pending := e.pending ++ [fd] }
  | answered {fd : Nat} {arrival : Arrival} {written : Except AbiError Unit} (new : Nat)
      (h : e.asked = some fd) :
      Exchange k n e (.accept fd arrival written) { e with paired := some new }
  | received {fd : Nat} {bytes : List UInt8} (h : k.Joined fd n) :
      Exchange k n e (.sendto fd (some (.ok bytes))) { e with rxBuf := e.rxBuf ++ bytes }
  | hungUp {fd : Nat} (h : k.Joined fd n) : Exchange k n e (.close fd) e.cutOff

/-- If the call is made on an open descriptor of the caller, then the socket it leads to
is the caller's, and the sockets of other processes stay, up to an exchange. -/
def Private [DecidableEq P] (k : SocketKernel P) (p : P) (call : SocketCall) : Prop :=
  (∀ fd, call.descriptor = some fd → ((k.fds p).get fd).isSome) →
    (∀ fd e, call.descriptor = some fd → k.sockets fd = some e → e.creator = p) ∧
      ∀ n e, k.sockets n = some e → e.creator ≠ p →
        ∃ e', (call.run p k).kernel.sockets n = some e' ∧ k.Exchange n e call e'

/-! What the calls leave alone -/

section

variable {k : SocketKernel P} {p : P} {fd n : Nat}

/-- Noting the address of a peer does not change who listens. -/
theorem any_sockets_noted (k : SocketKernel P) (fd : Nat) (a : SockAddr)
    {f : SocketEntry P → Bool} (hf : ∀ e, f { e with remoteAddr := some a } = f e) (m : Nat) :
    ((k.modify fd fun e => { e with remoteAddr := some a }).sockets m).any f =
      (k.sockets m).any f := by
  rw [sockets_modify]
  cases k.sockets m with
  | none => rfl
  | some e =>
    rw [Option.map_some, Option.any_some, Option.any_some]
    split
    · exact hf e
    · rfl

theorem findListener_noted (k : SocketKernel P) (fd : Nat) (a : SockAddr) (port : UInt16)
    (addr : Vector UInt8 4) :
    (k.modify fd fun e => { e with remoteAddr := some a }).findListener port addr =
      k.findListener port addr :=
  congrArg (List.find? · _) (funext (k.any_sockets_noted fd a fun _ => rfl))

theorem findAnyListener_noted (k : SocketKernel P) (fd : Nat) (a : SockAddr) :
    (k.modify fd fun e => { e with remoteAddr := some a }).findAnyListener =
      k.findAnyListener :=
  congrArg (List.find? · _) (funext (k.any_sockets_noted fd a fun _ => rfl))

theorem listensOn_of_found {a : SockAddr} {l : Nat} (hreach : k.Reachable a)
    (hlocal : a.isLocal = true)
    (h : (k.findListener a.port a.addr).or k.findAnyListener = some l) :
    k.listensOn a.port a.addr l = true := by
  cases hfind : k.findListener a.port a.addr with
  | none =>
    rw [hfind, hreach hlocal hfind] at h
    cases h
  | some l' =>
    rw [hfind] at h
    cases h
    exact List.find?_some hfind

variable {e : SocketEntry P}

theorem exchange_sysConnect (he : k.sockets n = some e) (hn : n ≠ fd)
    {addr : Option (Except AbiError SockAddr)} (hreach : ∀ a, addr = some (.ok a) → k.Reachable a)
    (stack : Option Nat) :
    ∃ e', (sysConnect fd addr stack k).kernel.sockets n = some e' ∧
      k.Exchange n e (.connect fd addr stack) e' := by
  unfold sysConnect
  split
  · exact ⟨e, he, .untouched _⟩
  · exact ⟨e, he, .untouched _⟩
  · next raw =>
    split
    · exact ⟨e, he, .untouched _⟩
    · dsimp only
      have hnoted : (k.modify fd fun e => { e with remoteAddr := some raw }).sockets n =
          some e := (k.sockets_modify_of_ne hn _).trans he
      split
      · next hlocal =>
        rw [findListener_noted, findAnyListener_noted]
        split
        · exact ⟨e, hnoted, .untouched _⟩
        · next l hfound =>
          refine ⟨asking fd l n e, ?_, ?_⟩
          · rw [answer, sockets_ask, hnoted]
            rfl
          · by_cases hl : n = l
            · subst hl
              have hasking : asking fd n n e = { e with pending := e.pending ++ [fd] } := by
                simp [asking, hn]
              rw [hasking]
              exact .asked (listensOn_of_found (hreach raw rfl) hlocal hfound)
            · have hasking : asking fd l n e = e := by
                simp [asking, hn, hl]
              rw [hasking]
              exact .untouched _
      · split
        · split
          · exact ⟨e, hnoted, .untouched _⟩
          · split
            · exact ⟨e, hnoted, .untouched _⟩
            · exact ⟨e, (sockets_modify_of_ne _ hn _).trans hnoted, .untouched _⟩
        · exact ⟨e, (sockets_modify_of_ne _ hn _).trans hnoted, .untouched _⟩

theorem exchange_sysSendto (hk : k.Tidy) (he : k.sockets n = some e)
    (hn : n ≠ fd) (buf : Option (Except AbiError (List UInt8))) :
    ∃ e', (sysSendto p fd buf k).kernel.sockets n = some e' ∧
      k.Exchange n e (.sendto fd buf) e' := by
  rcases sysSendto_kernel (p := p) buf with hsame | ⟨a, bytes, ha, rfl, hsent⟩
  · rw [hsame]
    exact ⟨e, he, .untouched _⟩
  · have hfirst : (k.modify fd fun e => { e with txBuf := e.txBuf ++ bytes }).sockets n =
        some e := (k.sockets_modify_of_ne hn _).trans he
    rw [hsent]
    cases hpaired : a.paired with
    | none => exact ⟨e, hfirst, .untouched _⟩
    | some m =>
      by_cases hm : n = m
      · subst hm
        obtain ⟨d, hd, hback⟩ := hk.joined fd a n ha hpaired
        refine ⟨{ e with rxBuf := e.rxBuf ++ bytes }, ?_, .received ⟨?_, ?_⟩⟩
        · rw [sockets_modify_self, hfirst]
          rfl
        · rw [ha]
          exact hpaired
        · rw [hd]
          exact hback
      · exact ⟨e, (sockets_modify_of_ne _ hm _).trans hfirst, .untouched _⟩

theorem exchange_remove (hk : k.Tidy) (he : k.sockets n = some e) (hn : n ≠ fd) :
    ∃ e', (k.remove fd).sockets n = some e' ∧ k.Exchange n e (.close fd) e' := by
  rw [sockets_remove_of_ne k hn, he]
  split
  · next hpaired =>
    obtain ⟨a, ha, han⟩ := Option.bind_eq_some_iff.mp hpaired
    obtain ⟨d, hd, hback⟩ := hk.joined fd a n ha han
    refine ⟨e.cutOff, rfl, .hungUp ⟨hpaired, ?_⟩⟩
    rw [hd]
    exact hback
  · exact ⟨e, rfl, .untouched _⟩

variable [DecidableEq P]

theorem exchange_sysClose (hk : k.Tidy) (he : k.sockets n = some e) (hn : n ≠ fd) :
    ∃ e', (sysClose p fd k).kernel.sockets n = some e' ∧ k.Exchange n e (.close fd) e' := by
  unfold sysClose
  split
  · exact ⟨e, he, .untouched _⟩
  · have hremoved : ∃ e', (if (k.sockets fd).isSome then k.remove fd else k).sockets n =
        some e' ∧ k.Exchange n e (.close fd) e' := by
      split
      · exact exchange_remove hk he hn
      · exact ⟨e, he, .untouched _⟩
    dsimp only
    split
    · exact hremoved
    · exact hremoved

theorem sockets_sysSocket (hk : k.Tidy) (hfree : k.NumberFree p)
    (he : k.sockets n = some e) (domain socktype : UInt32) :
    (sysSocket p domain socktype k).kernel.sockets n = some e := by
  unfold sysSocket
  split
  · split
    · exact he
    · next m t halloc =>
      have hvacant := hk.vacant hfree (FdTable.lowestFree_of_allocFile halloc)
      rw [answer, sockets_create, if_neg (ne_of_vacant hvacant he)]
      exact he
  · exact he

theorem exchange_acceptLocal (hk : k.Tidy) (hfree : k.NumberFree p) {client : Nat}
    {a : SocketEntry P} (ha : k.sockets fd = some a)
    (hlast : a.pending.getLast? = some client) (he : k.sockets n = some e) (hn : n ≠ fd)
    (arrival : Arrival) (written : Except AbiError Unit) :
    ∃ e', (acceptLocal p fd client k).kernel.sockets n = some e' ∧
      k.Exchange n e (.accept fd arrival written) e' := by
  have hk1 : (k.pop fd).Tidy := hk.of_easesTo (easesTo_pop k fd)
  have he1 : (k.pop fd).sockets n = some e := (k.sockets_modify_of_ne hn _).trans he
  unfold acceptLocal
  dsimp only
  split
  · exact ⟨e, he1, .untouched _⟩
  · next m t halloc =>
    have hvacant := hk1.vacant (p := p) hfree (FdTable.lowestFree_of_allocFile halloc)
    have hm : n ≠ m := ne_of_vacant hvacant he1
    have he2 : (((k.pop fd).setFds p t).create m (.new p 2 1)).sockets n = some e := by
      rw [sockets_create, if_neg hm]
      exact he1
    split
    · by_cases hclient : n = client
      · subst hclient
        obtain ⟨c, hc, hasked, -⟩ := hk.waiting fd a n ha (List.mem_of_getLast? hlast)
        rw [he] at hc
        cases hc
        refine ⟨{ e with paired := some m }, ?_, .answered m hasked⟩
        rw [answer, join, sockets_modify_self, sockets_modify_of_ne _ hm, he2]
        rfl
      · refine ⟨e, ?_, .untouched _⟩
        rw [answer, join, sockets_modify_of_ne _ hclient, sockets_modify_of_ne _ hm]
        exact he2
    · exact ⟨e, he2, .untouched _⟩

theorem sockets_acceptOutside (hk : k.Tidy) (hfree : k.NumberFree p)
    (he : k.sockets n = some e) (hn : n ≠ fd) (arrival : Arrival)
    (written : Except AbiError Unit) :
    (acceptOutside p fd arrival written k).kernel.sockets n = some e := by
  unfold acceptOutside
  split
  · exact he
  · next m t halloc =>
    have hvacant := hk.vacant hfree (FdTable.lowestFree_of_allocFile halloc)
    have hm : n ≠ m := ne_of_vacant hvacant he
    have he2 : ((k.setFds p t).create m (.new p 2 1)).sockets n = some e := by
      rw [sockets_create, if_neg hm]
      exact he
    have hremoved : (((k.setFds p t).create m (.new p 2 1)).remove m).sockets n = some e := by
      rw [sockets_remove_of_ne _ hm, sockets_create, if_pos rfl, if_neg]
      · exact he2
      · exact fun h => by cases h
    have htaken (h next : Nat) (a remote : SockAddr) :
        (((k.setFds p t).create m (.new p 2 1)).takeOver fd m h next a remote).sockets n =
          some e := by
      rw [takeOver, sockets_modify_of_ne _ hn, sockets_modify_of_ne _ hm]
      exact he2
    dsimp only
    split
    · exact hremoved
    · split
      · split
        · exact htaken ..
        · exact htaken ..
      · exact hremoved
      · exact hremoved

theorem exchange_sysAccept (hk : k.Tidy) (hfree : k.NumberFree p)
    (he : k.sockets n = some e) (hn : n ≠ fd) (arrival : Arrival)
    (written : Except AbiError Unit) :
    ∃ e', (sysAccept p fd arrival written k).kernel.sockets n = some e' ∧
      k.Exchange n e (.accept fd arrival written) e' := by
  unfold sysAccept
  split
  · exact ⟨e, he, .untouched _⟩
  · next a ha =>
    split
    · exact ⟨e, he, .untouched _⟩
    · split
      · next client hlast =>
        exact exchange_acceptLocal hk hfree ha hlast he hn arrival written
      · split
        · exact ⟨e, sockets_acceptOutside hk hfree he hn arrival written, .untouched _⟩
        · exact ⟨e, he, .untouched _⟩

theorem Tidy.isPrivate (hk : k.Tidy) {call : SocketCall} (hcareful : k.Careful p call) :
    k.Private p call := by
  intro hown
  have hcreator (fd : Nat) (e : SocketEntry P) (hfd : call.descriptor = some fd)
      (he : k.sockets fd = some e) : e.creator = p := hk.creator_eq (hown fd hfd) he
  refine ⟨hcreator, fun n e he hforeign => ?_⟩
  have hne (fd : Nat) (hfd : call.descriptor = some fd) : n ≠ fd := by
    rintro rfl
    exact hforeign (hcreator n e hfd he)
  cases call with
  | socket domain socktype =>
    exact ⟨e, sockets_sysSocket hk hcareful he domain socktype, .untouched _⟩
  | bind fd addr =>
    exact ⟨e, ((touches_sysBind addr).sockets_of_ne (hne fd rfl)).trans he, .untouched _⟩
  | listen fd stack =>
    exact ⟨e, ((touches_sysListen stack).sockets_of_ne (hne fd rfl)).trans he, .untouched _⟩
  | connect fd addr stack => exact exchange_sysConnect he (hne fd rfl) hcareful.2.2 stack
  | accept fd arrival written =>
    exact exchange_sysAccept hk hcareful he (hne fd rfl) arrival written
  | sendto fd buf => exact exchange_sysSendto hk he (hne fd rfl) buf
  | recvfrom fd buf copied =>
    exact ⟨e, ((touches_sysRecvfrom buf copied).sockets_of_ne (hne fd rfl)).trans he, .untouched _⟩
  | close fd => exact exchange_sysClose hk he (hne fd rfl)

end

theorem tidy_of_vacant {k : SocketKernel P} (h : ∀ n, k.sockets n = none) : k.Tidy where
  owned n e he := by cases (h n).symm.trans he
  apart n e he := by cases (h n).symm.trans he
  joined n e _ he := by cases (h n).symm.trans he
  waiting l e _ he := by cases (h l).symm.trans he
  once l e he := by cases (h l).symm.trans he

variable [DecidableEq P]

def step (c : P × SocketCall) (k : SocketKernel P) : SocketKernel P := (c.2.run c.1 k).kernel

end SocketKernel

open SocketKernel

/-- In every interleaving of careful calls of any processes, from a state without
sockets, every call leaves the sockets of the other processes to them. -/
theorem private_of_careful [DecidableEq P] (k : SocketKernel P)
    (hstart : ∀ n, k.sockets n = none) (calls : List (P × SocketCall))
    (hcareful : EachStep step (fun c k => k.Careful c.1 c.2) calls k) :
    EachStep step (fun c k => k.Private c.1 c.2) calls k :=
  eachStep_of_eachStep (fun _ _ hk hc => ⟨hk.run hc, hk.isPrivate hc⟩) (tidy_of_vacant hstart)
    hcareful

/-- Two processes that may use the network and have no descriptors but the console. -/
def networkPair : SocketKernel Bool where
  fds _ := .new
  capabilities _ := [⟨1, none, .network, ⟨true, true, false, false⟩, 0⟩]
  sockets _ := none

def listenerAlone : List (Bool × SocketCall) := [(false, .socket 1 1), (false, .listen 3 none)]

theorem private_listenerAlone : (∀ n, networkPair.sockets n = none) ∧
      EachStep step (fun c k => k.Private c.1 c.2) listenerAlone networkPair := by
  have hfree : networkPair.NumberFree false := by
    intro n hn q _
    have hthree : some 3 = some n := hn
    cases hthree
    rfl
  exact ⟨fun _ => rfl, private_of_careful _ (fun _ => rfl) _ ⟨hfree, trivial, trivial⟩⟩

/-- The second socket takes the place of the first, which another process has made. -/
theorem secondSocket_replaces_first : ¬ EachStep step (fun c k => k.Private c.1 c.2)
      [(false, .socket 1 1), (true, .socket 1 1)] networkPair := by
  intro h
  obtain ⟨-, hkeeps⟩ := h.2.1 fun fd hfd => by cases hfd
  obtain ⟨e', he', hexchange⟩ := hkeeps 3 (.new false 1 1) rfl Bool.false_ne_true
  have hother : some (SocketEntry.new true 1 1) = some e' := he'
  cases hother
  cases hexchange

end ZiqaKernel
