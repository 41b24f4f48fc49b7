/-
What each step keeps: the books of the pcbs, the calls and the queues they wait for, and, where the condition for it is met, that a
waiter is blocked.
-/
import Onix.Wake.Sockets

namespace Onix.Wake

open List Function Onix.Lib
open Onix.Tcp (Segment Seq Flags TcpState TcpTimer SockOpt TimeoutEnds SameRecv)
open Onix.Own (ofSock ofAcc Follows)

/-- The invariant, and under the condition `D` that the waiters are blocked. -/
structure Holds (D : Prop) (ts : Tasks) (f : Pcbs) (e : Udps) : Prop where
  books : Books f
  calls : Calls ts f e
  queue : Queue ts f e
  asleep : D → Asleep ts f e

variable {D : Prop} {ts ts' : Tasks} {f : Pcbs} {e : Udps} {s u : State} {n m p : Pcb} {k : Task} {i j l t c : Nat} {a : Act} {W S : Nat → Prop}

/-! ## Steps of the tasks -/

theorem taskBlock_ok {x : Place} {st : TaskState} (h : taskBlock ts t x st = .ok ts') :
    ∃ k, ts t = some k ∧ ts' = update ts t (some { k with state := st, place := x }) := by
  unfold taskBlock modify at h
  split at h
  · rename_i k hk
    cases h
    exact ⟨k, hk, rfl⟩
  · cases h

theorem Holds.task {o : Option Task} (h : Holds D ts f e) (hu : ∀ k, ts t = some k → k.place = .user)
    (ho : ∀ k, o = some k → MayBe f e k ∧ (k.state = .ready → k.status = .ok → Awaited f e k.place)) : Holds D (update ts t o) f e :=
  ⟨h.books, h.calls.idle hu fun k hk => (ho k hk).1, h.queue.task fun k hk => (ho k hk).2, fun d => (h.asleep d).task
    (h.calls.named.unnamed fun k hk => by rw [hu k hk]; rfl)⟩

theorem Holds.user {o : Option Task} (h : Holds D ts f e) (hu : ∀ k, ts t = some k → k.place = .user) (ho : ∀ k, o = some k → k.place = .user) :
    Holds D (update ts t o) f e :=
  h.task hu fun k hk => ⟨.user (ho k hk), fun _ _ => by rw [ho k hk]; trivial⟩

theorem Holds.unblock {r : Err} (h : Holds D ts f e) (hr : taskUnblock ts t r = .ok ts') (hun : D → ∀ k, ts t = some k → k.place.socket = false)
    (hok : r = .ok → ∀ k, ts t = some k → k.place.awaits = false) : Holds D ts' f e := by
  have hroused := taskUnblock_roused hr
  refine ⟨h.books, h.calls.stay hroused.stay, h.queue.roused hroused fun c k hc hk => ?_, fun d => (h.asleep d).roused hroused fun c hc => ?_⟩
  · obtain ⟨rfl, hrok⟩ := hc
    exact awaited_of (hok hrok k hk)
  · subst hc
    exact h.calls.named.unnamed (hun d)

theorem Holds.map {g : Nat → Task → Task} (h : Holds D ts f e) (hg : ∀ c k, (g c k).place = k.place ∧ (g c k).state = k.state ∧ (g c k).status = k.status) :
    Holds D (fun c => (ts c).map (g c)) f e := by
  have hback : ∀ c k', (ts c).map (g c) = some k' → ∃ k, ts c = some k ∧ k'.place = k.place ∧ k'.state = k.state ∧ k'.status = k.status :=
    fun c k' hk' => by
      obtain ⟨k, hk, rfl⟩ := Option.map_eq_some_iff.1 hk'
      exact ⟨k, hk, hg c k⟩
  refine ⟨h.books, h.calls.stay ⟨fun c k' hk' => ?_, fun c k hk => ⟨g c k, by rw [hk]; rfl, (hg c k).1⟩⟩, fun c k' hk' h1 h2 => ?_,
    fun d => ⟨fun i n c k' hi hn hk' => ?_, fun u n c k' hu hn hk' => ?_⟩⟩
  · obtain ⟨k, hk, h1, h2, -⟩ := hback c k' hk'
    exact ⟨k, hk, h1, fun e => h2 ▸ e⟩
  · obtain ⟨k, hk, h3, h4, h5⟩ := hback c k' hk'
    rw [h3]
    exact h.queue c k hk (h4 ▸ h1) (h5 ▸ h2)
  · obtain ⟨k, hk, -, h4, -⟩ := hback c k' hk'
    exact h4.trans ((h.asleep d).pcb i n c k hi hn hk)
  · obtain ⟨k, hk, -, h4, -⟩ := hback c k' hk'
    exact h4.trans ((h.asleep d).udp u n c k hu hn hk)

theorem Holds.block {x : Place} {st : TaskState} (h : Holds D ts f e) (hu : ∀ k, ts t = some k → k.place = .user) (hb : taskBlock ts t x st = .ok ts')
    (hx : x.socket = false) (hst : st ≠ .ready ∧ st ≠ .died) : Holds D ts' f e := by
  obtain ⟨k, hk, rfl⟩ := taskBlock_ok hb
  refine h.task hu fun k' hk' => ?_
  cases hk'
  refine ⟨⟨fun e => absurd e hst.2, fun i hi => ?_, fun i hi => ?_, fun v hv => ?_⟩, fun e => absurd e hst.1⟩
  · have hi : x.pcb = some i := hi
    cases x with
    | accept j | connect j | recv j sizes | send j => cases hx
    | udp v | user | waitpid | sleep | device d => cases hi
  · have hi : x = .accept i := hi
    subst hi
    cases hx
  · have hv : x = .udp v := hv
    subst hv
    cases hx

theorem Runs.user (h : Runs s t) : ∀ k, s.task t = some k → k.place = .user := fun k hk => by
  obtain ⟨k', hk', -, hu⟩ := h
  cases hk.symm.trans hk'
  exact hu

/-! ## The exit of a task -/

theorem Holds.exit (h : Holds D s.task s.pcb s.udp) (ht : Runs s t) (hs : Sound s (.exit t)) (hd : D → Undisturbed s (.exit t))
    (hx : taskExit s.task t = .ok ts) : Holds D ts s.pcb s.udp := by
  obtain ⟨k, hk, hready, hu⟩ := ht
  unfold taskExit at hx
  rw [hk] at hx
  dsimp only at hx
  have h1 : Holds D (update s.task t (some { k with state := .died })) s.pcb s.udp :=
    h.user (fun k' hk' => by cases hk.symm.trans hk'; exact hu) fun k' hk' => by cases hk'; exact hu
  have h2 := h1.map (g := fun c j => if 2 ≤ c ∧ j.ppid = t then { j with ppid := k.ppid } else j) fun c j => by
    split
    · exact ⟨rfl, rfl, rfl⟩
    · exact ⟨rfl, rfl, rfl⟩
  split at hx
  · cases hx
  rename_i p' hp'
  -- the parent, as it was before
  obtain ⟨p, hp, hpp⟩ := Option.map_eq_some_iff.1 hp'
  have hsame : p'.place = p.place ∧ p'.state = p.state ∧ p'.waitpid = p.waitpid := by
    rw [← hpp]
    split
    · exact ⟨rfl, rfl, rfl⟩
    · exact ⟨rfl, rfl, rfl⟩
  split at hx
  · rename_i hw
    have hpt : s.task k.ppid = some p := by
      by_cases he : k.ppid = t
      · rw [he, update_self] at hp
        cases hp
        have hdied : TaskState.died = .waiting := hsame.2.1.symm.trans hw.1
        cases hdied
      · rw [update_of_ne he] at hp
        exact hp
    rw [hsame.2.1, hsame.2.2] at hw
    refine h2.unblock hx (fun d q hq => ?_) fun _ q hq => ?_
    · cases hp'.symm.trans hq
      rw [hsame.1]
      exact (hd d).wakes k.ppid p ⟨k, p, hk, rfl, hpt, hw⟩ hpt
    · cases hp'.symm.trans hq
      rw [hsame.1]
      exact hs.exits t k p rfl hk hpt hw.1 hw.2
  · cases hx
    exact h2

/-! ## Changes of a pcb -/

theorem Holds.pcb (h : Holds D ts f e) (hi : f i = some n) (hb : Books (update f i (some p))) (hs : n.sock = true → p.sock = true)
    (hl : n.conn.state = .listen → p.conn.state = .listen)
    (hac : ∀ t, p.acWaiter = some t → n.acWaiter = some t ∨ ∃ k, ts t = some k ∧ (k.place = .accept i ∨ k.place = .connect i))
    (hrx : ∀ t, p.rxWaiter = some t → n.rxWaiter = some t ∨ ∃ k, ts t = some k ∧ ∃ sizes, k.place = .recv i sizes)
    (htx : ∀ t, p.txWaiter = some t → n.txWaiter = some t ∨ ∃ k, ts t = some k ∧ k.place = .send i)
    (hq : ∀ t k, ts t = some k → k.state = .ready → k.status = .ok → Awaited (update f i (some p)) e k.place)
    (hd : ∀ t k, p.names t → ts t = some k → n.names t ∨ k.state = .waiting) : Holds D ts (update f i (some p)) e :=
  ⟨hb, h.calls.pcb hi hs hl hac hrx htx, hq, fun d => (h.asleep d).pcb_one hi hd⟩

theorem Holds.same (h : Holds D ts f e) (hi : f i = some n) (hs : Same n p) (hf : Follows n.conn.state p.conn.state)
    (hq : ∀ t k, ts t = some k → k.state = .ready → k.status = .ok → Awaited (update f i (some p)) e k.place) :
    Holds D ts (update f i (some p)) e :=
  h.pcb hi (h.books.local hi ⟨hs.acclist, hs.listener, hs.sock, hf⟩) (fun e => hs.sock.trans e) (fun e => hf.facts.2.2.2.2 e)
    (fun _ ht => .inl (was hs.waiters.ac ht)) (fun _ ht => .inl (was hs.waiters.rx ht)) (fun _ ht => .inl (was hs.waiters.tx ht)) hq
    fun _ _ ht _ => .inl (hs.waiters.names ht)

theorem Holds.conn {d : Tcp.Pcb} (h : Holds D ts f e) (hi : f i = some n) (hd : SameRecv n.conn d) :
    Holds D ts (update f i (some { n with conn := d })) e :=
  h.same hi (.conn n d) (.inl hd.state) fun t k hk h1 h2 => (h.queue t k hk h1 h2).pcb hi rfl (fun _ _ _ _ e => hd.state.trans e)
    fun hne => by
      rw [hd.recved]
      exact hne

theorem Holds.onConn {g : Tcp.Pcb → Except Tcp.Fault Tcp.Pcb} (h : Holds D s.task s.pcb s.udp) (hg : ∀ c d, g c = .ok d → SameRecv c d)
    (hu : onConn s i g = .ok u) : Holds D u.task u.pcb u.udp := by
  obtain ⟨n, hn, hu⟩ := bind_ok hu
  obtain ⟨c, hc, hu⟩ := bind_ok hu
  cases hu
  exact h.conn (deref_ok hn) (hg _ _ (conn_ok hc))

/-! ## Waits -/

theorem Holds.wait {x : Place} (h : Holds D s.task s.pcb s.udp) (ht : Runs s t) (hb : taskBlock s.task t x .waiting = .ok ts)
    (hi : s.pcb i = some n) (hn : n.sock = true) (hx : x.pcb = some i) (hxl : ∀ j, x = .accept j → n.conn.state = .listen)
    (hp : Books (update s.pcb i (some p))) (hsock : p.sock = n.sock) (hacc : p.acclist = n.acclist) (hrec : p.conn.recved = n.conn.recved)
    (hl : n.conn.state = .listen → p.conn.state = .listen)
    (hac : ∀ c, p.acWaiter = some c → n.acWaiter = some c ∨ c = t ∧ (x = .accept i ∨ x = .connect i))
    (hrx : ∀ c, p.rxWaiter = some c → n.rxWaiter = some c ∨ c = t ∧ ∃ sizes, x = .recv i sizes)
    (htx : ∀ c, p.txWaiter = some c → n.txWaiter = some c ∨ c = t ∧ x = .send i) :
    Holds D ts (update s.pcb i (some p)) s.udp := by
  obtain ⟨k, hk, rfl⟩ := taskBlock_ok hb
  have hself : update s.task t (some { k with state := .waiting, place := x }) t = some { k with state := .waiting, place := x } :=
    update_self ..
  have h1 : Holds D (update s.task t (some { k with state := .waiting, place := x })) s.pcb s.udp := h.task ht.user fun k' hk' => by
    cases hk'
    refine ⟨⟨nofun, fun j hj => ?_, fun j hj => ?_, fun v hv => ?_⟩, nofun⟩
    · have hj : x.pcb = some j := hj
      cases hx.symm.trans hj
      exact ⟨n, hi, hn⟩
    · have hj : x = .accept j := hj
      subst hj
      cases hx
      exact ⟨n, hi, hxl _ rfl⟩
    · have hv : x = .udp v := hv
      subst hv
      cases hx
  refine h1.pcb hi hp (fun _ => hsock.trans hn) hl (fun c hc => ?_) (fun c hc => ?_) (fun c hc => ?_) (fun c k' hk' h2 h3 => ?_) fun c k' hc hk' => ?_
  · exact (hac c hc).imp_right fun ⟨e, hx⟩ => ⟨{ k with state := .waiting, place := x }, by rw [e]; exact hself, hx⟩
  · exact (hrx c hc).imp_right fun ⟨e, hx⟩ => ⟨{ k with state := .waiting, place := x }, by rw [e]; exact hself, hx⟩
  · exact (htx c hc).imp_right fun ⟨e, hx⟩ => ⟨{ k with state := .waiting, place := x }, by rw [e]; exact hself, hx⟩
  · refine (h1.queue c k' hk' h2 h3).pcb hi hacc (fun l q hl hm _ => absurd hm (h.books.not_queued hi hn hl)) fun hne => ?_
    rw [hrec]
    exact hne
  · -- the waiter is one it was, or the task that waits now
    have hcase : n.names c ∨ c = t := by
      rcases hc with hc | hc | hc
      · exact (hac c hc).imp .inl And.left
      · exact (hrx c hc).imp (fun e => .inr (.inl e)) And.left
      · exact (htx c hc).imp (fun e => .inr (.inr e)) And.left
    refine hcase.imp_right fun e => ?_
    subst e
    cases hself.symm.trans hk'
    rfl

theorem open_sock (ho : Open s i) (hi : s.pcb i = some n) : n.sock = true := by
  obtain ⟨m, hm, hs⟩ := ho
  cases hi.symm.trans hm
  exact hs

theorem Holds.connect (h : Holds D s.task s.pcb s.udp) (ht : Runs s t) (ho : Open s i) (hu : tcpConnect s t i = .ok u) :
    Holds D u.task u.pcb u.udp := by
  obtain ⟨n, hn, hu⟩ := bind_ok hu
  have hi := deref_ok hn
  have hsock := open_sock ho hi
  split at hu
  · cases hu
    exact h
  rename_i hst
  have hst : n.conn.state = .closed := not_not.1 hst
  obtain ⟨c, hc, hu⟩ := bind_ok hu
  obtain ⟨ts, hts, hu⟩ := bind_ok hu
  cases hu
  have hc := conn_ok hc
  obtain ⟨hcs, hcr⟩ : c.state = .synSent ∧ c.recved = n.conn.recved := by
    cases Tcp.tcpConnect_side hc with
    | same h1 =>
      unfold Tcp.tcpConnect at hc
      rw [if_neg (not_not.2 hst)] at hc
      obtain ⟨d, hd, hc⟩ := bind_ok hc
      have h2 := (Tcp.tcpOutput_recv hc).state.trans (Tcp.tcpEnqueue_recv hd).state
      exact ⟨h2, h1.recved⟩
    | connect h1 _ h2 => exact ⟨h2, h1.recved⟩
  have hleaf := h.books.leaf i n hi (by rw [hst]; decide)
  refine h.wait ht hts hi hsock rfl nofun
    (h.books.own hi hsock rfl (fun _ => hleaf) (by rw [hcs]; decide) fun _ => .inr (.inr (.inl hcs))) rfl rfl hcr
    (fun e => absurd (hst.symm.trans e) (by decide)) (fun w hw => ?_) (fun _ => .inl) (fun _ => .inl)
  cases hw
  exact .inr ⟨rfl, .inr rfl⟩

theorem Holds.send {iov : List ((Nat → UInt8) × Nat)} {flags : Flags} (h : Holds D s.task s.pcb s.udp) (ht : Runs s t) (ho : Open s i)
    (hu : tcpSendmsg s t i iov flags = .ok u) : Holds D u.task u.pcb u.udp := by
  obtain ⟨n, hn, hu⟩ := bind_ok hu
  have hi := deref_ok hn
  split at hu
  · cases hu
    exact h
  obtain ⟨c, hc, hu⟩ := bind_ok hu
  have hc := Tcp.tcpSendmsg_recv (conn_ok hc)
  split at hu
  · cases hu
    exact h.conn hi hc
  · obtain ⟨ts, hts, hu⟩ := bind_ok hu
    cases hu
    refine h.wait ht hts hi (open_sock ho hi) rfl nofun (h.books.local hi ⟨rfl, rfl, rfl, .inl hc.state⟩) rfl rfl hc.recved
      (fun e => hc.state.trans e) (fun _ => .inl) (fun _ => .inl) fun w hw => ?_
    cases hw
    exact .inr ⟨rfl, rfl⟩

/-! ## Reading -/

theorem recvLoop_rest : ∀ (l : List Tcp.Pbuf) (left : Nat) (iov : List Tcp.Iovec) (wnd : Nat) {left' wnd' : Nat} {iov' : List Tcp.Iovec}
    {rest : List Tcp.Pbuf}, Tcp.recvLoop l left iov wnd = .ok (left', iov', wnd', rest) → left < (l.map Tcp.Pbuf.size).sum → rest ≠ []
  | [], left, iov, wnd, left', wnd', iov', rest, _, hl => absurd hl (Nat.not_lt_zero left)
  | p :: l, left, iov, wnd, left', wnd', iov', rest, h, hl => by
    obtain ⟨q, hq, hs⟩ : ∃ q : Tcp.Pbuf, q = (if p.total ≠ 0 then { p with length := p.size, total := 0 } else p) ∧ q.size = p.size := by
      refine ⟨_, rfl, ?_⟩
      split <;> rfl
    rw [map_cons, sum_cons] at hl
    unfold Tcp.recvLoop at h
    rw [← hq] at h
    dsimp only at h
    generalize hlen : (if left < q.size then left else q.size) = len at h
    split at h
    · cases h
    rename_i hret
    rw [not_not.1 hret] at h
    split at h
    · cases h
      exact cons_ne_nil _ _
    have hlen : len = p.size ∧ p.size ≤ left := by
      split at hlen
      · omega
      · omega
    split at h
    · cases h
    split at h
    · cases h
    · rw [hlen.1] at h
      exact recvLoop_rest l _ _ _ h (by omega)

theorem recvQueued_ok {sizes : List Nat} (hu : recvQueued s i n sizes = .ok u) :
    ∃ d : Tcp.Pcb, u = s.setPcb i { n with conn := d } ∧ d.state = n.conn.state ∧ (sizes.sum % 2 ^ 32 < n.queued → d.recved ≠ []) := by
  obtain ⟨⟨d, iov⟩, hr, hu⟩ := bind_ok hu
  cases hu
  obtain ⟨⟨left', h1⟩, h2, -⟩ := Tcp.recvQueued_loop (conn_ok hr)
  refine ⟨d, rfl, h2, fun hlt => ?_⟩
  refine recvLoop_rest _ _ _ _ h1 ?_
  rw [map_map]
  have hsizes : (Tcp.Iovec.size ∘ fun m : Nat => (⟨[], m⟩ : Tcp.Iovec)) = id := rfl
  rw [hsizes, map_id]
  exact hlt

theorem Holds.read {sizes : List Nat} (h : Holds D s.task s.pcb s.udp) (hi : s.pcb i = some n)
    (hq : ∀ c k xs, s.task c = some k → k.state = .ready → k.status = .ok → k.place = .recv i xs → sizes.sum % 2 ^ 32 < n.queued)
    (hu : recvQueued s i n sizes = .ok u) : Holds D u.task u.pcb u.udp := by
  obtain ⟨d, rfl, hd, hrest⟩ := recvQueued_ok hu
  refine h.same hi (.conn n d) (.inl hd) fun c k hk h1 h2 => awaited_pcb (h.queue c k hk h1 h2) hi rfl (fun l hx => ?_) fun xs hx _ => ?_
  · have hw := h.queue c k hk h1 h2
    rw [hx] at hw
    obtain ⟨q, hl, j, hj, m, hm, hst⟩ := hw
    refine ⟨q, hl, j, hj, m, hm, hst, fun e => ?_⟩
    subst e
    cases hi.symm.trans hm
    exact hd.trans hst
  · exact hrest (hq c k xs hk h1 h2 hx)

/-! ## Accepting -/

theorem find_spec (h : tcpFindNpcb s n = some j) : j ∈ n.acclist ∧ ∃ m, s.pcb j = some m ∧ m.conn.state = .established := by
  have h1 := find?_some h
  obtain ⟨m, hm, hst⟩ := Option.map_eq_some_iff.1 (of_decide_eq_true h1)
  exact ⟨mem_of_find?_eq_some h, m, hm, hst⟩

theorem find_congr {w : Option Nat} {f : Pcbs} (hs : s.pcb = f) (hi : f i = some n) (hu : u.pcb = update f i (some { n with acWaiter := w })) :
    tcpFindNpcb u { n with acWaiter := w } = tcpFindNpcb s n := by
  unfold tcpFindNpcb
  have hstate : ∀ j, (u.pcb j).map (fun m => m.conn.state) = (s.pcb j).map fun m => m.conn.state := fun j => by
    rw [hu, hs]
    by_cases hj : j = i
    · subst hj
      rw [update_self, hi]
      rfl
    · rw [update_of_ne hj]
  simp only [hstate]

theorem Holds.accepted (h : Holds D s.task s.pcb s.udp) (hi : s.pcb i = some n) (hf : tcpFindNpcb s n = some j)
    (hq : ∀ c k l, s.task c = some k → k.state = .ready → k.status = .ok → k.place = .accept l →
      ∃ q, s.pcb l = some q ∧ ∃ b ∈ q.acclist, b ≠ j ∧ ∃ m, s.pcb b = some m ∧ m.conn.state = .established)
    (hu : accepted s i n j = .ok u) : Holds D u.task u.pcb u.udp := by
  obtain ⟨hj, m, hm, hst⟩ := find_spec hf
  obtain ⟨m', hm', hu⟩ := bind_ok hu
  cases hm.symm.trans (deref_ok hm')
  cases hu
  have hb := h.books.accept (p := { n with acclist := n.acclist.filter fun c => decide (c ≠ j) }) hi hj hm hst ⟨rfl, rfl, rfl, rfl⟩
  obtain ⟨p, hp⟩ : ∃ p : Pcb, p = { n with acclist := n.acclist.filter fun c => decide (c ≠ j) } := ⟨_, rfl⟩
  rw [← hp] at hb
  rw [← hp]
  have hji : j ≠ i := fun e => by
    subst e
    rw [h.books.child_leaf hi hj hi] at hj
    cases hj
  have hj1 : update s.pcb i (some p) j = some m := update_ne hji hm
  -- both keep their connection and their waiters
  have hkeep : ∀ l q, s.pcb l = some q → ∃ q', update (update s.pcb i (some p)) j (some { m with sock := true }) l = some q' ∧
      q'.conn = q.conn ∧ ∀ b ∈ q.acclist, b ≠ j → b ∈ q'.acclist := fun l q hl => by
    by_cases hlj : l = j
    · subst hlj
      cases hm.symm.trans hl
      exact ⟨_, update_self .., rfl, fun b hb _ => hb⟩
    · rw [update_of_ne hlj]
      by_cases hli : l = i
      · subst hli
        cases hi.symm.trans hl
        refine ⟨p, update_self .., by rw [hp], fun b hb hne => ?_⟩
        rw [hp, mem_filter]
        exact ⟨hb, decide_eq_true hne⟩
      · exact ⟨q, update_ne hli hl, rfl, fun b hb _ => hb⟩
  have hw : Waiters n p := by
    rw [hp]
    exact ⟨.inr rfl, .inr rfl, .inr rfl⟩
  refine ⟨hb, (h.calls.waiters hi (fun e => by rw [hp]; exact e) (fun e => by rw [hp]; exact e) hw).waiters hj1 (fun _ => rfl) id ⟨.inr rfl, .inr rfl, .inr rfl⟩,
    fun c k hk h1 h2 => ?_, fun d => ((h.asleep d).pcb_one hi fun t k ht _ => .inl (hw.names ht)).pcb_one hj1 fun t k ht _ => .inl ht⟩
  have haw := h.queue c k hk h1 h2
  cases hx : k.place with
  | accept l =>
    obtain ⟨q, hl, b, hb, hbj, mb, hmb, hest⟩ := hq c k l hk h1 h2 hx
    obtain ⟨q', hq', -, hmem⟩ := hkeep l q hl
    obtain ⟨mb', hmb', hconn, -⟩ := hkeep b mb hmb
    exact ⟨q', hq', b, hmem b hb hbj, mb', hmb', by rw [hconn]; exact hest⟩
  | recv l sizes =>
    rw [hx] at haw
    obtain ⟨q, hl, hne⟩ := haw
    obtain ⟨q', hq', hconn, -⟩ := hkeep l q hl
    exact ⟨q', hq', by rw [hconn]; exact hne⟩
  | udp u =>
    rw [hx] at haw
    exact haw
  | user | waitpid | sleep | device d | connect l | send l => trivial

theorem Leaving.other (hl : Leaving s a (.accept l)) (hj : ∀ m, Leaves s j m a) :
    ∃ q, s.pcb l = some q ∧ ∃ b ∈ q.acclist, b ≠ j ∧ ∃ m, s.pcb b = some m ∧ m.conn.state = .established := by
  obtain ⟨q, hq, b, hb, m, hm, hst, hno⟩ := hl
  refine ⟨q, hq, b, hb, fun e => ?_, m, hm, hst⟩
  subst e
  exact hno (hj m)

theorem Holds.accept (h : Holds D s.task s.pcb s.udp) (ht : Runs s t) (ho : Open s i) (hs : Sound s (.accept t i))
    (hu : tcpAccept s t i = .ok u) : Holds D u.task u.pcb u.udp := by
  obtain ⟨n, hn, hu⟩ := bind_ok hu
  have hi := deref_ok hn
  split at hu
  · cases hu
    exact h
  rename_i hst
  have hst : n.conn.state = .listen := by
    by_contra hne
    exact hst (.inr hne)
  split at hu
  · rename_i j hf
    refine h.accepted hi hf (fun c k l hk h1 h2 hx => ?_) hu
    have hl := hs.leaves c k hk h1 h2 nofun
    rw [hx] at hl
    exact hl.other fun _ => ⟨n, hi, hf⟩
  · obtain ⟨ts, hts, hu⟩ := bind_ok hu
    cases hu
    refine h.wait ht hts hi (open_sock ho hi) rfl (fun _ _ => hst) (h.books.local hi ⟨rfl, rfl, rfl, .inl rfl⟩) rfl rfl rfl id (fun w hw => ?_)
      (fun _ => .inl) fun _ => .inl
    cases hw
    exact .inr ⟨rfl, .inl rfl⟩

theorem Holds.recv {sizes : List Nat} (h : Holds D s.task s.pcb s.udp) (ht : Runs s t) (ho : Open s i) (hs : Sound s (.recv t i sizes))
    (hu : tcpRecvmsg s t i sizes = .ok u) : Holds D u.task u.pcb u.udp := by
  obtain ⟨n, hn, hu⟩ := bind_ok hu
  have hi := deref_ok hn
  split at hu
  · cases hu
    exact h
  split at hu
  · obtain ⟨ts, hts, hu⟩ := bind_ok hu
    cases hu
    refine h.wait ht hts hi (open_sock ho hi) rfl nofun (h.books.local hi ⟨rfl, rfl, rfl, .inl rfl⟩) rfl rfl rfl id (fun _ => .inl)
      (fun w hw => ?_) fun _ => .inl
    cases hw
    exact .inr ⟨rfl, sizes, rfl⟩
  · refine h.read hi (fun c k xs hk h1 h2 hx => ?_) hu
    have hl := hs.leaves c k hk h1 h2 nofun
    rw [hx] at hl
    obtain ⟨q, hq, hno⟩ := hl
    cases hi.symm.trans hq
    exact Nat.not_le.1 fun hle => hno ⟨rfl, hle⟩

end Onix.Wake
