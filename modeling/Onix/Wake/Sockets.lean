/-
A task that `task_block` gives `EOK` in `tcp_accept`, `tcp_recvmsg` or `udp_recvmsg` finds what it waited for, and a waiter in a pcb
is a task in a call on that pcb. Both hold as long as nobody but the component a task waits for unblocks it with `EOK`, and nobody
takes what it was woken for before it runs.
-/
import Onix.Wake.Calls

namespace Onix.Wake

open Function Onix.Lib
open Onix.Tcp (Segment Seq Flags TcpState TcpTimer SockOpt TimeoutEnds SameRecv)
open Onix.Own (ofSock ofAcc Follows)

abbrev Udps := Nat → Option Udp

/-! ## What is to hold -/

def Awaited (f : Pcbs) (e : Udps) : Place → Prop
  | .accept l => ∃ n, f l = some n ∧ ∃ j ∈ n.acclist, ∃ m, f j = some m ∧ m.conn.state = .established
  | .recv i _ => ∃ n, f i = some n ∧ n.conn.recved ≠ []
  | .udp u => ∃ n, e u = some n ∧ n.rxPbufList ≠ []
  | .user | .waitpid | .sleep | .device _ | .connect _ | .send _ => True

/-- Who is woken with `EOK` and has not run yet finds the queue it waited for. -/
def Queue (ts : Tasks) (f : Pcbs) (e : Udps) : Prop := ∀ t k, ts t = some k → k.state = .ready → k.status = .ok → Awaited f e k.place

/-- A waiter is a task in that call on that pcb. -/
structure Named (ts : Tasks) (f : Pcbs) (e : Udps) : Prop where
  ac : ∀ i n t, f i = some n → n.acWaiter = some t → ∃ k, ts t = some k ∧ (k.place = .accept i ∨ k.place = .connect i)
  rx : ∀ i n t, f i = some n → n.rxWaiter = some t → ∃ k, ts t = some k ∧ ∃ sizes, k.place = .recv i sizes
  tx : ∀ i n t, f i = some n → n.txWaiter = some t → ∃ k, ts t = some k ∧ k.place = .send i
  ux : ∀ u n t, e u = some n → n.rxWaiter = some t → ∃ k, ts t = some k ∧ k.place = .udp u

/-- A wait that is over goes on without a failed assertion and without taking from an empty list. -/
def GoesOn (s : State) : Prop := ∀ t, enabled s (.resume t) → step s (.resume t) ≠ .error .early ∧ step s (.resume t) ≠ .error .empty

/-! ## The condition -/

def Place.awaits : Place → Bool
  | .accept _ | .recv _ _ | .udp _ => true
  | .user | .waitpid | .sleep | .device _ | .connect _ | .send _ => false

/-- The step takes an established connection from the queue of a listener, or ends it: it is accepted, reset, closed by the peer, or
given up. -/
def Leaves (s : State) (j : Nat) (m : Pcb) : Act → Prop
  | .input i g _ _ => i = j ∧ Ends m.conn g
  | .timeout i type => i = j ∧ TimeoutEnds m.conn type
  | .accept _ l => ∃ n, s.pcb l = some n ∧ tcpFindNpcb s n = some j
  | .resume t => ∃ k l n, s.task t = some k ∧ k.place = .accept l ∧ k.status = .ok ∧ s.pcb l = some n ∧ tcpFindNpcb s n = some j
  | _ => False

def Pcb.queued (n : Pcb) : Nat := (n.conn.recved.map Tcp.Pbuf.size).sum

/-- The step empties the queue of a connection: a call reads all of it, or the connection is reset or given up. -/
def Drains (s : State) (i : Nat) (n : Pcb) : Act → Prop
  | .input j g _ _ => j = i ∧ Resets n.conn g
  | .timeout j type => j = i ∧ TimeoutEnds n.conn type
  | .recv _ j sizes => j = i ∧ n.queued ≤ sizes.sum % 2 ^ 32
  | .resume t => ∃ k sizes, s.task t = some k ∧ k.place = .recv i sizes ∧ k.status = .ok ∧ n.queued ≤ sizes.sum % 2 ^ 32
  | _ => False

def Takes (s : State) (u : Nat) : Act → Prop
  | .udpRecv _ v => v = u
  | .resume t => ∃ k, s.task t = some k ∧ k.place = .udp u ∧ k.status = .ok
  | _ => False

def Leaving (s : State) (a : Act) : Place → Prop
  | .accept l => ∃ n, s.pcb l = some n ∧ ∃ j ∈ n.acclist, ∃ m, s.pcb j = some m ∧ m.conn.state = .established ∧ ¬ Leaves s j m a
  | .recv i _ => ∃ n, s.pcb i = some n ∧ ¬ Drains s i n a
  | .udp u => ∃ n, s.udp u = some n ∧ (Takes s u a → 1 < n.rxPbufList.length)
  | .user | .waitpid | .sleep | .device _ | .connect _ | .send _ => True

/-- Between the wake-up of a task and its run no step but its own takes the last of what it was woken for; a task that exits has
no parent blocked in one of the three calls that last waited for it; no other component wakes a task in one of these calls, as a disk
does whose wait timed out. -/
structure Sound (s : State) (a : Act) : Prop where
  leaves : ∀ t k, s.task t = some k → k.state = .ready → k.status = .ok → a ≠ .resume t → Leaving s a k.place
  exits : ∀ t k p, a = .exit t → s.task t = some k → s.task k.ppid = some p → p.state = .waiting →
    (p.waitpid = -1 ∨ p.waitpid = t) → p.place.awaits = false
  interrupts : ∀ d t k, a = .interrupt d t → s.task t = some k → k.place.awaits = false

structure Asleep (ts : Tasks) (f : Pcbs) (e : Udps) : Prop where
  pcb : ∀ i n t k, f i = some n → n.names t → ts t = some k → k.state = .waiting
  udp : ∀ u n t k, e u = some n → n.rxWaiter = some t → ts t = some k → k.state = .waiting

def Place.socket : Place → Bool
  | .accept _ | .connect _ | .recv _ _ | .send _ | .udp _ => true
  | .user | .waitpid | .sleep | .device _ => false

def Unblocks (s : State) (t : Nat) : Act → Prop
  | .kill c => c = t ∧ ∃ k, s.task t = some k ∧ (k.state = .waiting ∨ k.state = .sleeping)
  | .expire c | .interrupt _ c => c = t
  | .exit c => ∃ k p, s.task c = some k ∧ k.ppid = t ∧ s.task t = some p ∧ p.state = .waiting ∧ (p.waitpid = -1 ∨ p.waitpid = c)
  | _ => False

/-- Nothing but the socket unblocks a task in a call on it, and no connection of a listener that somebody waits on is established. -/
structure Undisturbed (s : State) (a : Act) : Prop where
  wakes : ∀ t k, Unblocks s t a → s.task t = some k → k.place.socket = false
  handshake : ∀ i g new isn n d l m, a = .input i g new isn → s.pcb i = some n → n.conn.state = .synRcvd →
    Tcp.tcpInput n.conn g = .ok d → d.state = .established → n.listener = some l → s.pcb l = some m → m.acWaiter = none

/-! ## The invariant -/

/-- A call holds its socket; a task that died is in no call. -/
structure Calls (ts : Tasks) (f : Pcbs) (e : Udps) : Prop where
  died : ∀ t k, ts t = some k → k.state = .died → k.place = .user
  held : ∀ t k i, ts t = some k → k.place.pcb = some i → ∃ n, f i = some n ∧ n.sock = true
  listens : ∀ t k i, ts t = some k → k.place = .accept i → ∃ n, f i = some n ∧ n.conn.state = .listen
  udp : ∀ t k u, ts t = some k → k.place = .udp u → e u ≠ none
  named : Named ts f e

structure Inv (s : State) : Prop where
  books : Books s.pcb
  calls : Calls s.task s.pcb s.udp
  queue : Queue s.task s.pcb s.udp

variable {ts ts' : Tasks} {f f' : Pcbs} {e e' : Udps} {s u : State} {n m p : Pcb} {k k' : Task} {W S : Nat → Prop} {i j l t c : Nat} {x : Place}
variable {o : Option Task}
  {a : Act}

/-! ## Changes of the tasks -/

structure Stay (ts ts' : Tasks) : Prop where
  back : ∀ t k', ts' t = some k' → ∃ k, ts t = some k ∧ k'.place = k.place ∧ (k'.state = .died → k.state = .died)
  forth : ∀ t k, ts t = some k → ∃ k', ts' t = some k' ∧ k'.place = k.place

theorem Roused.stay (h : Roused W S ts ts') : Stay ts ts' := by
  constructor
  · intro t k' hk'
    rcases h t with e | ⟨-, k, r, hk, hk2, -⟩
    · exact ⟨k', e ▸ hk', rfl, id⟩
    · cases hk2.symm.trans hk'
      exact ⟨k, hk, rfl, nofun⟩
  · intro t k hk
    rcases h t with e | ⟨-, k2, r, hk2, hk3, -⟩
    · exact ⟨k, e.trans hk, rfl⟩
    · cases hk.symm.trans hk2
      exact ⟨_, hk3, rfl⟩

theorem Named.stay (h : Named ts f e) (hs : Stay ts ts') : Named ts' f e := by
  constructor
  · intro i n t hi ht
    obtain ⟨k, hk, h1⟩ := h.ac i n t hi ht
    obtain ⟨k', hk', h2⟩ := hs.forth t k hk
    exact ⟨k', hk', h2 ▸ h1⟩
  · intro i n t hi ht
    obtain ⟨k, hk, h1⟩ := h.rx i n t hi ht
    obtain ⟨k', hk', h2⟩ := hs.forth t k hk
    exact ⟨k', hk', h2 ▸ h1⟩
  · intro i n t hi ht
    obtain ⟨k, hk, h1⟩ := h.tx i n t hi ht
    obtain ⟨k', hk', h2⟩ := hs.forth t k hk
    exact ⟨k', hk', h2 ▸ h1⟩
  · intro u n t hi ht
    obtain ⟨k, hk, h1⟩ := h.ux u n t hi ht
    obtain ⟨k', hk', h2⟩ := hs.forth t k hk
    exact ⟨k', hk', h2 ▸ h1⟩

theorem Calls.stay (h : Calls ts f e) (hs : Stay ts ts') : Calls ts' f e := by
  constructor
  · intro t k' hk' hd
    obtain ⟨k, hk, h1, h2⟩ := hs.back t k' hk'
    exact h1.trans (h.died t k hk (h2 hd))
  · intro t k' i hk' hp
    obtain ⟨k, hk, h1, -⟩ := hs.back t k' hk'
    exact h.held t k i hk (h1 ▸ hp)
  · intro t k' i hk' hp
    obtain ⟨k, hk, h1, -⟩ := hs.back t k' hk'
    exact h.listens t k i hk (h1 ▸ hp)
  · intro t k' u hk' hp
    obtain ⟨k, hk, h1, -⟩ := hs.back t k' hk'
    exact h.udp t k u hk (h1 ▸ hp)
  · exact h.named.stay hs

theorem Queue.roused (hr : Roused W S ts ts') (hq : Queue ts f e) (hS : ∀ t k, S t → ts t = some k → Awaited f e k.place) : Queue ts' f e :=
  fun t k' hk' hready hok => by
    rcases hr t with h1 | ⟨-, k, r, hk, hk2, h2⟩
    · exact hq t k' (h1 ▸ hk') hready hok
    · cases hk2.symm.trans hk'
      exact hS t k (h2 hok) hk

theorem Named.not_user (h : Named ts f e) (ht : ∀ k, ts t = some k → k.place = .user) :
    (∀ i n, f i = some n → n.acWaiter ≠ some t ∧ n.rxWaiter ≠ some t ∧ n.txWaiter ≠ some t) ∧ ∀ u n, e u = some n → n.rxWaiter ≠ some t := by
  refine ⟨fun i n hi => ⟨fun hw => ?_, fun hw => ?_, fun hw => ?_⟩, fun u n hu hw => ?_⟩
  · obtain ⟨k, hk, h1 | h1⟩ := h.ac i n t hi hw
    · cases (ht k hk).symm.trans h1
    · cases (ht k hk).symm.trans h1
  · obtain ⟨k, hk, sizes, h1⟩ := h.rx i n t hi hw
    cases (ht k hk).symm.trans h1
  · obtain ⟨k, hk, h1⟩ := h.tx i n t hi hw
    cases (ht k hk).symm.trans h1
  · obtain ⟨k, hk, h1⟩ := h.ux u n t hu hw
    cases (ht k hk).symm.trans h1

theorem Named.task (h : Named ts f e) (hp : ∀ i n, f i = some n → n.acWaiter ≠ some t ∧ n.rxWaiter ≠ some t ∧ n.txWaiter ≠ some t)
    (hu : ∀ u n, e u = some n → n.rxWaiter ≠ some t) : Named (update ts t o) f e := by
  have hget : ∀ c k, c ≠ t → ts c = some k → update ts t o c = some k := fun c k hc hk => by
    rw [update_of_ne hc]
    exact hk
  constructor
  · intro i n c hi hc
    obtain ⟨k, hk, h1⟩ := h.ac i n c hi hc
    exact ⟨k, hget c k (fun e => (hp i n hi).1 (e ▸ hc)) hk, h1⟩
  · intro i n c hi hc
    obtain ⟨k, hk, h1⟩ := h.rx i n c hi hc
    exact ⟨k, hget c k (fun e => (hp i n hi).2.1 (e ▸ hc)) hk, h1⟩
  · intro i n c hi hc
    obtain ⟨k, hk, h1⟩ := h.tx i n c hi hc
    exact ⟨k, hget c k (fun e => (hp i n hi).2.2 (e ▸ hc)) hk, h1⟩
  · intro u n c hi hc
    obtain ⟨k, hk, h1⟩ := h.ux u n c hi hc
    exact ⟨k, hget c k (fun e => hu u n hi (e ▸ hc)) hk, h1⟩

structure MayBe (f : Pcbs) (e : Udps) (k : Task) : Prop where
  died : k.state = .died → k.place = .user
  held : ∀ i, k.place.pcb = some i → ∃ n, f i = some n ∧ n.sock = true
  listens : ∀ i, k.place = .accept i → ∃ n, f i = some n ∧ n.conn.state = .listen
  udp : ∀ u, k.place = .udp u → e u ≠ none

theorem MayBe.user (h : k.place = .user) : MayBe f e k := by
  refine ⟨fun _ => h, fun i hi => ?_, fun i hi => ?_, fun u hu => ?_⟩
  · rw [h] at hi
    cases hi
  · rw [h] at hi
    cases hi
  · rw [h] at hu
    cases hu

theorem Calls.task (h : Calls ts f e)
    (hp : ∀ i n, f i = some n → n.acWaiter ≠ some t ∧ n.rxWaiter ≠ some t ∧ n.txWaiter ≠ some t)
    (hu : ∀ u n, e u = some n → n.rxWaiter ≠ some t) (ho : ∀ k, o = some k → MayBe f e k) : Calls (update ts t o) f e := by
  have hall : ∀ c k, update ts t o c = some k → MayBe f e k := fun c k hk => by
    by_cases hc : c = t
    · subst hc
      rw [update_self] at hk
      exact ho k hk
    · rw [update_of_ne hc] at hk
      exact ⟨h.died c k hk, fun i => h.held c k i hk, fun i => h.listens c k i hk, fun u => h.udp c k u hk⟩
  exact ⟨fun c k hk => (hall c k hk).died, fun c k i hk => (hall c k hk).held i, fun c k i hk => (hall c k hk).listens i,
    fun c k u hk => (hall c k hk).udp u, h.named.task hp hu⟩

theorem Calls.idle (h : Calls ts f e) (ht : ∀ k, ts t = some k → k.place = .user) (ho : ∀ k, o = some k → MayBe f e k) :
    Calls (update ts t o) f e :=
  h.task (h.named.not_user ht).1 (h.named.not_user ht).2 ho

theorem Queue.task (h : Queue ts f e) (ho : ∀ k, o = some k → k.state = .ready → k.status = .ok → Awaited f e k.place) :
    Queue (update ts t o) f e := fun c k hk h1 h2 => by
  by_cases hc : c = t
  · subst hc
    rw [update_self] at hk
    exact ho k hk h1 h2
  · rw [update_of_ne hc] at hk
    exact h c k hk h1 h2

/-! ## Changes of the pcbs -/

theorem Calls.pcb (h : Calls ts f e) (hi : f i = some n) (hs : n.sock = true → p.sock = true)
    (hl : n.conn.state = .listen → p.conn.state = .listen)
    (hac : ∀ t, p.acWaiter = some t → n.acWaiter = some t ∨ ∃ k, ts t = some k ∧ (k.place = .accept i ∨ k.place = .connect i))
    (hrx : ∀ t, p.rxWaiter = some t → n.rxWaiter = some t ∨ ∃ k, ts t = some k ∧ ∃ sizes, k.place = .recv i sizes)
    (htx : ∀ t, p.txWaiter = some t → n.txWaiter = some t ∨ ∃ k, ts t = some k ∧ k.place = .send i) :
    Calls ts (update f i (some p)) e := by
  refine ⟨h.died, fun t k j hk hp => ?_, fun t k j hk hp => ?_, h.udp, fun j q t hj ht => ?_, fun j q t hj ht => ?_, fun j q t hj ht => ?_,
    h.named.ux⟩
  · obtain ⟨q, hq, hqs⟩ := h.held t k j hk hp
    by_cases hji : j = i
    · subst hji
      cases hi.symm.trans hq
      exact ⟨p, update_self .., hs hqs⟩
    · exact ⟨q, update_ne hji hq, hqs⟩
  · obtain ⟨q, hq, hql⟩ := h.listens t k j hk hp
    by_cases hji : j = i
    · subst hji
      cases hi.symm.trans hq
      exact ⟨p, update_self .., hl hql⟩
    · exact ⟨q, update_ne hji hq, hql⟩
  · rcases update_cases hj with ⟨rfl, rfl⟩ | ⟨-, hj⟩
    · exact (hac t ht).elim (h.named.ac j n t hi) id
    · exact h.named.ac j q t hj ht
  · rcases update_cases hj with ⟨rfl, rfl⟩ | ⟨-, hj⟩
    · exact (hrx t ht).elim (h.named.rx j n t hi) id
    · exact h.named.rx j q t hj ht
  · rcases update_cases hj with ⟨rfl, rfl⟩ | ⟨-, hj⟩
    · exact (htx t ht).elim (h.named.tx j n t hi) id
    · exact h.named.tx j q t hj ht

theorem Calls.waiters (h : Calls ts f e) (hi : f i = some n) (hs : n.sock = true → p.sock = true)
    (hl : n.conn.state = .listen → p.conn.state = .listen) (hw : Waiters n p) : Calls ts (update f i (some p)) e :=
  h.pcb hi hs hl (fun _ ht => .inl (was hw.ac ht)) (fun _ ht => .inl (was hw.rx ht)) fun _ ht => .inl (was hw.tx ht)

theorem Calls.alloc (h : Calls ts f e) (hi : f i = none) (hp : p.acWaiter = none ∧ p.rxWaiter = none ∧ p.txWaiter = none) :
    Calls ts (update f i (some p)) e := by
  have hget : ∀ j q, f j = some q → update f i (some p) j = some q := fun j q hq => update_ne (fun e => by
    rw [e, hi] at hq
    cases hq) hq
  refine ⟨h.died, fun t k j hk hpj => ?_, fun t k j hk hpj => ?_, h.udp, fun j q t hj ht => ?_, fun j q t hj ht => ?_, fun j q t hj ht => ?_,
    h.named.ux⟩
  · obtain ⟨q, hq, hqs⟩ := h.held t k j hk hpj
    exact ⟨q, hget j q hq, hqs⟩
  · obtain ⟨q, hq, hql⟩ := h.listens t k j hk hpj
    exact ⟨q, hget j q hq, hql⟩
  · rcases update_cases hj with ⟨rfl, rfl⟩ | ⟨-, hj⟩
    · cases hp.1.symm.trans ht
    · exact h.named.ac j q t hj ht
  · rcases update_cases hj with ⟨rfl, rfl⟩ | ⟨-, hj⟩
    · cases hp.2.1.symm.trans ht
    · exact h.named.rx j q t hj ht
  · rcases update_cases hj with ⟨rfl, rfl⟩ | ⟨-, hj⟩
    · cases hp.2.2.symm.trans ht
    · exact h.named.tx j q t hj ht

theorem Calls.drop {q : List Nat} (h : Calls ts f e) (hno : ∀ t k j, ts t = some k → k.place.pcb = some j → j ≠ i ∧ j ∉ q) :
    Calls ts (dropped f i q) e := by
  have hget : ∀ j, j ≠ i ∧ j ∉ q → dropped f i q j = f j := fun j hj => if_neg fun e => e.elim hj.1 hj.2
  have hold : ∀ j p, dropped f i q j = some p → f j = some p := fun j p hj => by
    unfold dropped at hj
    split at hj
    · cases hj
    · exact hj
  refine ⟨h.died, fun t k j hk hp => ?_, fun t k j hk hp => ?_, h.udp, fun j p t hj => h.named.ac j p t (hold j p hj),
    fun j p t hj => h.named.rx j p t (hold j p hj), fun j p t hj => h.named.tx j p t (hold j p hj), h.named.ux⟩
  · rw [hget j (hno t k j hk hp)]
    exact h.held t k j hk hp
  · rw [hget j (hno t k j hk (by rw [hp]; rfl))]
    exact h.listens t k j hk hp

/-! ## Who is blocked -/

def Unnamed (f : Pcbs) (e : Udps) (t : Nat) : Prop := (∀ i n, f i = some n → ¬ n.names t) ∧ ∀ u n, e u = some n → n.rxWaiter ≠ some t

theorem Asleep.roused (h : Asleep ts f e) (hr : Roused W S ts ts') (hW : ∀ t, W t → Unnamed f e t) : Asleep ts' f e := by
  constructor
  · intro i n t k hi hn hk
    rcases hr t with e1 | ⟨hw, -⟩
    · exact h.pcb i n t k hi hn (e1 ▸ hk)
    · exact absurd hn ((hW t hw).1 i n hi)
  · intro u n t k hu hn hk
    rcases hr t with e1 | ⟨hw, -⟩
    · exact h.udp u n t k hu hn (e1 ▸ hk)
    · exact absurd hn ((hW t hw).2 u n hu)

theorem Asleep.task (h : Asleep ts f e) (ht : Unnamed f e t) : Asleep (update ts t o) f e := by
  constructor
  · intro i n c k hi hn hk
    rw [update_of_ne fun e => ht.1 i n hi (by rw [← e]; exact hn)] at hk
    exact h.pcb i n c k hi hn hk
  · intro u n c k hu hn hk
    rw [update_of_ne fun e => ht.2 u n hu (by rw [← e]; exact hn)] at hk
    exact h.udp u n c k hu hn hk

theorem Asleep.pcbs (h : Asleep ts f e) (hf : ∀ i p t k, f' i = some p → p.names t → ts t = some k → (∃ n, f i = some n ∧ n.names t) ∨ k.state = .waiting) :
    Asleep ts f' e :=
  ⟨fun i p t k hi hn hk => (hf i p t k hi hn hk).elim (fun ⟨n, h1, h2⟩ => h.pcb i n t k h1 h2 hk) id, h.udp⟩

theorem Asleep.pcb_one (h : Asleep ts f e) (hi : f i = some n) (hp : ∀ t k, p.names t → ts t = some k → n.names t ∨ k.state = .waiting) :
    Asleep ts (update f i (some p)) e :=
  h.pcbs fun j q t k hj hn hk => by
    rcases update_cases hj with ⟨rfl, rfl⟩ | ⟨-, hj⟩
    · exact (hp t k hn hk).imp_left fun e => ⟨n, hi, e⟩
    · exact .inl ⟨q, hj, hn⟩

theorem Waiters.names (h : Waiters n p) (ht : p.names t) : n.names t :=
  ht.imp (was h.ac) (Or.imp (was h.rx) (was h.tx))

theorem Named.place (h : Named ts f e) (hi : f i = some n) (ht : n.names t) : ∃ k, ts t = some k ∧ k.place.pcb = some i ∧ k.place.socket = true := by
  rcases ht with ht | ht | ht
  · obtain ⟨k, hk, h1 | h1⟩ := h.ac i n t hi ht
    · exact ⟨k, hk, by rw [h1]; rfl, by rw [h1]; rfl⟩
    · exact ⟨k, hk, by rw [h1]; rfl, by rw [h1]; rfl⟩
  · obtain ⟨k, hk, sizes, h1⟩ := h.rx i n t hi ht
    exact ⟨k, hk, by rw [h1]; rfl, by rw [h1]; rfl⟩
  · obtain ⟨k, hk, h1⟩ := h.tx i n t hi ht
    exact ⟨k, hk, by rw [h1]; rfl, by rw [h1]; rfl⟩

theorem Named.unnamed (h : Named ts f e) (ht : ∀ k, ts t = some k → k.place.socket = false) : Unnamed f e t := by
  constructor
  · intro i n hi hn
    obtain ⟨k, hk, -, h1⟩ := h.place hi hn
    cases (ht k hk).symm.trans h1
  · intro u n hu hn
    obtain ⟨k, hk, h1⟩ := h.ux u n t hu hn
    have h2 := ht k hk
    rw [h1] at h2
    cases h2

def Place.slot : Place → Nat
  | .accept _ | .connect _ => 0
  | .recv _ _ => 1
  | .send _ => 2
  | .user | .waitpid | .sleep | .device _ | .udp _ => 3

theorem Named.slots (h : Named ts f e) (hi : f i = some n) (hk : ts t = some k) :
    (n.acWaiter = some t → k.place.slot = 0) ∧ (n.rxWaiter = some t → k.place.slot = 1) ∧ (n.txWaiter = some t → k.place.slot = 2) := by
  refine ⟨fun ht => ?_, fun ht => ?_, fun ht => ?_⟩
  · obtain ⟨k', hk', h1 | h1⟩ := h.ac i n t hi ht <;> cases hk.symm.trans hk' <;> rw [h1] <;> rfl
  · obtain ⟨k', hk', sizes, h1⟩ := h.rx i n t hi ht
    cases hk.symm.trans hk'
    rw [h1]
    rfl
  · obtain ⟨k', hk', h1⟩ := h.tx i n t hi ht
    cases hk.symm.trans hk'
    rw [h1]
    rfl

theorem Named.off (h : Named ts f e) (hi : f i = some n) (hw : Waiters n p) (ht : Off n p t) : Unnamed (update f i (some p)) e t := by
  have hn : n.names t := ht.imp And.left (Or.imp And.left And.left)
  obtain ⟨k, hk, h1, h2⟩ := h.place hi hn
  constructor
  · intro j q hj hq
    rcases update_cases hj with ⟨rfl, rfl⟩ | ⟨hji, hj⟩
    · -- the one that was reset is not one that stays
      obtain ⟨s1, s2, s3⟩ := h.slots hi hk
      rcases ht with ⟨a1, a2⟩ | ⟨a1, a2⟩ | ⟨a1, a2⟩ <;> rcases hq with b | b | b
      · cases a2.symm.trans b
      · cases (s1 a1).symm.trans (s2 (was hw.rx b))
      · cases (s1 a1).symm.trans (s3 (was hw.tx b))
      · cases (s2 a1).symm.trans (s1 (was hw.ac b))
      · cases a2.symm.trans b
      · cases (s2 a1).symm.trans (s3 (was hw.tx b))
      · cases (s3 a1).symm.trans (s1 (was hw.ac b))
      · cases (s3 a1).symm.trans (s2 (was hw.rx b))
      · cases a2.symm.trans b
    · obtain ⟨k', hk', h3, -⟩ := h.place hj hq
      cases hk.symm.trans hk'
      exact hji (Option.some.inj (h3.symm.trans h1))
  · intro u q hu hq
    obtain ⟨k', hk', h3⟩ := h.ux u q t hu hq
    cases hk.symm.trans hk'
    rw [h3] at h1
    cases h1

/-! ## What was waited for -/

theorem awaited_of (h : x.awaits = false) : Awaited f e x := by
  cases x with
  | accept l => cases h
  | recv i sizes => cases h
  | udp u => cases h
  | user | waitpid | sleep | device d | connect j | send j => trivial

theorem awaited_pcb (h : Awaited f e x) (hi : f i = some n) (ha : p.acclist = n.acclist)
    (hacc : ∀ l, x = .accept l → ∃ q, f l = some q ∧ ∃ j ∈ q.acclist, ∃ m, f j = some m ∧ m.conn.state = .established ∧
      (j = i → p.conn.state = .established))
    (hrec : ∀ sizes, x = .recv i sizes → n.conn.recved ≠ [] → p.conn.recved ≠ []) : Awaited (update f i (some p)) e x := by
  cases x with
  | accept l =>
    obtain ⟨q, hq, j, hj, m, hm, hst, hest⟩ := hacc l rfl
    have hmem : ∃ q', update f i (some p) l = some q' ∧ j ∈ q'.acclist := by
      by_cases hli : l = i
      · subst hli
        cases hi.symm.trans hq
        exact ⟨p, update_self .., ha ▸ hj⟩
      · exact ⟨q, update_ne hli hq, hj⟩
    obtain ⟨q', hq', hj'⟩ := hmem
    refine ⟨q', hq', j, hj', ?_⟩
    by_cases hji : j = i
    · subst hji
      exact ⟨p, update_self .., hest rfl⟩
    · exact ⟨m, update_ne hji hm, hst⟩
  | recv j sizes =>
    obtain ⟨q, hq, hne⟩ := h
    by_cases hji : j = i
    · subst hji
      cases hi.symm.trans hq
      exact ⟨p, update_self .., hrec sizes rfl hne⟩
    · exact ⟨q, update_ne hji hq, hne⟩
  | udp u => exact h
  | user | waitpid | sleep | device d | connect j | send j => trivial

theorem Awaited.pcb (h : Awaited f e x) (hi : f i = some n) (ha : p.acclist = n.acclist)
    (hest : ∀ l q, f l = some q → i ∈ q.acclist → n.conn.state = .established → p.conn.state = .established)
    (hrec : n.conn.recved ≠ [] → p.conn.recved ≠ []) : Awaited (update f i (some p)) e x := by
  refine awaited_pcb h hi ha (fun l hx => ?_) fun _ _ => hrec
  subst hx
  obtain ⟨q, hq, j, hj, m, hm, hst⟩ := h
  refine ⟨q, hq, j, hj, m, hm, hst, fun hji => ?_⟩
  subst hji
  cases hi.symm.trans hm
  exact hest l q hq hj hst

theorem Leaving.pcb (h : Awaited s.pcb s.udp x) (hl : Leaving s a x) (hi : s.pcb i = some n) (ha : p.acclist = n.acclist)
    (hest : n.conn.state = .established → ¬ Leaves s i n a → p.conn.state = .established)
    (hrec : ∀ sizes, x = .recv i sizes → n.conn.recved ≠ [] → ¬ Drains s i n a → p.conn.recved ≠ []) :
    Awaited (update s.pcb i (some p)) s.udp x := by
  refine awaited_pcb h hi ha (fun l hx => ?_) fun sizes hx hne => ?_
  · subst hx
    obtain ⟨q, hq, j, hj, m, hm, hst, hno⟩ := hl
    refine ⟨q, hq, j, hj, m, hm, hst, fun hji => ?_⟩
    subst hji
    cases hi.symm.trans hm
    exact hest hst hno
  · refine hrec sizes hx hne ?_
    subst hx
    obtain ⟨q, hq, hno⟩ := hl
    cases hi.symm.trans hq
    exact hno

theorem Awaited.drop (h : Awaited f e x) (hb : Books f) (hi : f i = some n) (hq : ∀ l m, f l = some m → i ∉ m.acclist)
    (hx : ∀ j, x.pcb = some j → j ≠ i ∧ j ∉ n.acclist) : Awaited (dropped f i n.acclist) e x := by
  have hget : ∀ j p, j ≠ i ∧ j ∉ n.acclist → f j = some p → dropped f i n.acclist j = some p := fun j p hj hp => by
    unfold dropped
    rw [if_neg fun e => e.elim hj.1 hj.2]
    exact hp
  cases x with
  | accept l =>
    obtain ⟨q, hl, j, hj, m, hm, hst⟩ := h
    refine ⟨q, hget l q (hx l rfl) hl, j, hj, m, hget j m ⟨fun e => hq l q hl (e ▸ hj), fun e => ?_⟩ hm, hst⟩
    obtain ⟨m1, hm1, h1, -⟩ := hb.child i n j hi e
    obtain ⟨m2, hm2, h2, -⟩ := hb.child l q j hl hj
    cases hm1.symm.trans hm2
    exact (hx l rfl).1 (Option.some.inj (h2.symm.trans h1))
  | recv j sizes =>
    obtain ⟨q, hj, hne⟩ := h
    exact ⟨q, hget j q (hx j rfl) hj, hne⟩
  | udp u => exact h
  | user | waitpid | sleep | device d | connect j | send j => trivial

theorem Awaited.alloc (h : Awaited f e x) (hi : f i = none) : Awaited (update f i (some p)) e x := by
  have hget : ∀ j q, f j = some q → update f i (some p) j = some q := fun j q hq => update_ne (fun e => by
    rw [e, hi] at hq
    cases hq) hq
  cases x with
  | accept l =>
    obtain ⟨q, hl, j, hj, m, hm, hst⟩ := h
    exact ⟨q, hget l q hl, j, hj, m, hget j m hm, hst⟩
  | recv j sizes =>
    obtain ⟨q, hj, hne⟩ := h
    exact ⟨q, hget j q hj, hne⟩
  | udp u => exact h
  | user | waitpid | sleep | device d | connect j | send j => trivial

end Onix.Wake
