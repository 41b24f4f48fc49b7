/-
What the functions of the model do to the tasks: which they unblock, and with which status. A task is unblocked with `EOK` for a
buffer that was queued, for a segment acknowledged, or for a connection established.
-/
import Onix.Wake.Books

namespace Onix.Wake

open List Function Onix.Lib
open Onix.Tcp (Segment Seq Flags TcpState TcpTimer SockOpt TimeoutEnds SameRecv)
open Onix.Own (ofSock ofAcc Follows)

/-! ## Tasks that are unblocked -/

def Roused (W S : Nat → Prop) (ts ts' : Tasks) : Prop :=
  ∀ t, ts' t = ts t ∨ W t ∧ ∃ k r, ts t = some k ∧ ts' t = some { k with state := .ready, status := r } ∧ (r = .ok → S t)

def Pcb.names (n : Pcb) (t : Nat) : Prop := n.acWaiter = some t ∨ n.rxWaiter = some t ∨ n.txWaiter = some t

variable {V W S T : Nat → Prop} {ts ts' us : Tasks} {n p m : Pcb} {s u : State} {i j l t : Nat} {g : Segment} {r : Err} {w : Option Nat}
variable {x : Tasks × Pcb}

theorem Roused.refl (ts : Tasks) : Roused W S ts ts := fun _ => .inl rfl

theorem Roused.mono (h : Roused V S ts ts') (hVW : ∀ t, V t → W t) (hST : ∀ t, S t → T t) : Roused W T ts ts' := fun t =>
  (h t).imp_right fun ⟨hv, k, r, h1, h2, h3⟩ => ⟨hVW t hv, k, r, h1, h2, fun e => hST t (h3 e)⟩

theorem Roused.trans (h1 : Roused W S ts ts') (h2 : Roused W S ts' us) : Roused W S ts us := fun t => by
  rcases h2 t with e | ⟨hw, k', r', hk', hu, hr'⟩
  · rcases h1 t with e1 | ⟨hw, k, r, hk, hu, hr⟩
    · exact .inl (e.trans e1)
    · exact .inr ⟨hw, k, r, hk, e.trans hu, hr⟩
  · rcases h1 t with e1 | ⟨hw1, k, r, hk, hk2, hr⟩
    · exact .inr ⟨hw, k', r', e1 ▸ hk', hu, hr'⟩
    · cases hk2.symm.trans hk'
      exact .inr ⟨hw, k, r', hk, hu, hr'⟩

theorem taskUnblock_roused (h : taskUnblock ts t r = .ok ts') : Roused (fun c => c = t) (fun c => c = t ∧ r = .ok) ts ts' := by
  unfold taskUnblock modify at h
  split at h
  · rename_i k hk
    cases h
    intro c
    by_cases hc : c = t
    · subst hc
      exact .inr ⟨rfl, k, r, hk, update_self .., fun e => ⟨rfl, e⟩⟩
    · exact .inl (update_of_ne hc ..)
  · cases h

theorem unblock_roused (h : unblock ts w r = .ok ts') : Roused (fun t => w = some t) (fun t => w = some t ∧ r = .ok) ts ts' := by
  unfold unblock at h
  split at h
  · exact (taskUnblock_roused h).mono (fun t e => congrArg some e.symm) fun t ⟨e, hr⟩ => ⟨congrArg some e.symm, hr⟩
  · cases h
    exact .refl _

theorem wakeAll_spec (hr : r ≠ .ok) (h : wakeAll ts n r = .ok x) :
    Roused n.names S ts x.1 ∧ x.2 = { n with acWaiter := none, rxWaiter := none, txWaiter := none } := by
  obtain ⟨t1, h1, h⟩ := bind_ok h
  obtain ⟨t2, h2, h⟩ := bind_ok h
  obtain ⟨t3, h3, h⟩ := bind_ok h
  cases h
  have hno : ∀ w t, (w = some t ∧ r = .ok) → S t := fun w t e => absurd e.2 hr
  exact ⟨((unblock_roused h1).mono (fun t e => .inl e) (hno _)).trans
    (((unblock_roused h2).mono (fun t e => .inr (.inl e)) (hno _)).trans ((unblock_roused h3).mono (fun t e => .inr (.inr e)) (hno _))), rfl⟩

/-! ## Freeing -/

theorem conn_ok {α : Type} {x : Except Tcp.Fault α} {a : α} (h : conn x = .ok a) : x = .ok a := by
  unfold conn at h
  split at h
  · exact congrArg Except.ok (Except.ok.inj h)
  · cases h

theorem deref_ok (h : s.deref i = .ok n) : s.pcb i = some n := by
  unfold State.deref at h
  split at h
  · rename_i m hm
    rw [hm, Except.ok.inj h]
  · cases h

def Freed (f : Pcbs) (q : List Nat) (t : Nat) : Prop := ∃ j ∈ q, ∃ n, f j = some n ∧ n.names t

theorem putChild_spec (h : putChild s j = .ok u) :
    Roused (Freed s.pcb [j]) S s.task u.task ∧ u = ⟨u.task, update s.pcb j none, s.udp, s.waiters⟩ := by
  obtain ⟨n, hn, h⟩ := bind_ok h
  obtain ⟨c, -, h⟩ := bind_ok h
  obtain ⟨x, hx, h⟩ := bind_ok h
  cases h
  exact ⟨(wakeAll_spec (by decide) hx).1.mono (fun t e => ⟨j, mem_singleton_self j, n, deref_ok hn, e⟩) fun t e => e, rfl⟩

theorem putChildren_spec : ∀ (l : List Nat) (s u : State), l.foldlM putChild s = .ok u →
    Roused (Freed s.pcb l) S s.task u.task ∧ u = ⟨u.task, fun j => if j ∈ l then none else s.pcb j, s.udp, s.waiters⟩
  | [], s, u, h => by
    cases h
    exact ⟨.refl _, by simp only [not_mem_nil, if_false]⟩
  | j :: l, s, u, h => by
    obtain ⟨v, hv, h⟩ := bind_ok h
    obtain ⟨h1, h2⟩ := putChild_spec (S := S) hv
    obtain ⟨h3, h4⟩ := putChildren_spec l v u h
    have hfreed : ∀ t, Freed v.pcb l t → Freed s.pcb (j :: l) t := fun t ⟨c, hc, n, hn, ht⟩ => by
      rw [h2] at hn
      dsimp only at hn
      by_cases hcj : c = j
      · subst hcj
        rw [update_self] at hn
        cases hn
      · rw [update_of_ne hcj] at hn
        exact ⟨c, .tail _ hc, n, hn, ht⟩
    refine ⟨(h1.mono (fun t ⟨c, hc, e⟩ => ⟨c, mem_singleton.1 hc ▸ .head _, e⟩) fun t e => e).trans
      (h3.mono hfreed fun t e => e), h4.trans ?_⟩
    have hpcb : (fun c => if c ∈ l then none else v.pcb c) = fun c => if c ∈ j :: l then none else s.pcb c := by
      funext c
      rw [h2]
      dsimp only
      by_cases hc : c ∈ l
      · rw [if_pos hc, if_pos (.tail _ hc)]
      · rw [if_neg hc]
        by_cases hcj : c = j
        · subst hcj
          rw [update_self, if_pos (.head _)]
        · rw [update_of_ne hcj, if_neg fun e => (mem_cons.1 e).elim hcj hc]
    rw [hpcb, h2]

theorem tcpPcbPurge_spec {c : Tcp.Pcb} (hi : s.pcb i = some n) (hn : n.acclist = []) (hr : r ≠ .ok) (h : tcpPcbPurge s i c r = .ok u) :
    Roused n.names S s.task u.task ∧
      u = ⟨u.task, update s.pcb i (some { n with conn := c, acWaiter := none, rxWaiter := none, txWaiter := none }), s.udp, s.waiters⟩ := by
  obtain ⟨n', hn', h⟩ := bind_ok h
  cases hi.symm.trans (deref_ok hn')
  rw [hn] at h
  obtain ⟨v, hv, h⟩ := bind_ok h
  cases hv
  obtain ⟨x, hx, h⟩ := bind_ok h
  cases h
  obtain ⟨h1, h2⟩ := wakeAll_spec (S := S) hr hx
  refine ⟨h1, ?_⟩
  unfold State.setPcb State.setTask
  rw [h2, hn]

theorem tcpPcbPut_spec (hi : s.pcb i = some n) (h : tcpPcbPut s i = .ok u) :
    Roused (Freed s.pcb (i :: n.acclist)) S s.task u.task ∧ u = ⟨u.task, dropped s.pcb i n.acclist, s.udp, s.waiters⟩ := by
  obtain ⟨n', hn', h⟩ := bind_ok h
  obtain ⟨c, -, h⟩ := bind_ok h
  obtain ⟨v, hv, h⟩ := bind_ok h
  cases h
  obtain ⟨n'', hn'', hv⟩ := bind_ok hv
  cases hi.symm.trans (deref_ok hn'')
  obtain ⟨y, hy, hv⟩ := bind_ok hv
  obtain ⟨x, hx, hv⟩ := bind_ok hv
  cases hv
  obtain ⟨h1, h2⟩ := putChildren_spec (S := S) _ _ _ hy
  refine ⟨(h1.mono (fun t ⟨c, hc, e⟩ => ⟨c, .tail _ hc, e⟩) fun t e => e).trans
    ((wakeAll_spec (by decide) hx).1.mono (fun t e => ⟨i, .head _, n, hi, e⟩) fun t e => e), ?_⟩
  unfold State.free State.setPcb State.setTask dropped
  rw [update_idem, h2]
  have hpcb : update (fun j => if j ∈ n.acclist then none else s.pcb j) i none = fun j => if j = i ∨ j ∈ n.acclist then none else s.pcb j := by
    funext j
    by_cases hj : j = i
    · subst hj
      rw [update_self, if_pos (.inl rfl)]
    · rw [update_of_ne hj]
      by_cases hm : j ∈ n.acclist
      · rw [if_pos hm, if_pos (.inr hm)]
      · rw [if_neg hm, if_neg fun e => e.elim hj hm]
  rw [hpcb]

/-! ## Segments -/

/-- The waiters are as they were, or there are none. -/
structure Waiters (n p : Pcb) : Prop where
  ac : p.acWaiter = none ∨ p.acWaiter = n.acWaiter
  rx : p.rxWaiter = none ∨ p.rxWaiter = n.rxWaiter
  tx : p.txWaiter = none ∨ p.txWaiter = n.txWaiter

theorem Waiters.refl (n : Pcb) : Waiters n n := ⟨.inr rfl, .inr rfl, .inr rfl⟩

theorem was {a b : Option Nat} (h : b = none ∨ b = a) (hb : b = some t) : a = some t := by
  rcases h with h | h
  · cases h.symm.trans hb
  · exact h ▸ hb

/-- All but the connection and the waiters is as it was. -/
structure Same (n p : Pcb) : Prop where
  acclist : p.acclist = n.acclist
  listener : p.listener = n.listener
  sock : p.sock = n.sock
  waiters : Waiters n p

theorem Same.refl (n : Pcb) : Same n n := ⟨rfl, rfl, rfl, .refl n⟩

theorem Same.conn (n : Pcb) (c : Tcp.Pcb) : Same n { n with conn := c } := ⟨rfl, rfl, rfl, .inr rfl, .inr rfl, .inr rfl⟩

theorem Same.trans (h1 : Same n m) (h2 : Same m p) : Same n p :=
  ⟨h2.acclist.trans h1.acclist, h2.listener.trans h1.listener, h2.sock.trans h1.sock,
    ⟨h2.waiters.ac.elim .inl fun e => e ▸ h1.waiters.ac, h2.waiters.rx.elim .inl fun e => e ▸ h1.waiters.rx,
      h2.waiters.tx.elim .inl fun e => e ▸ h1.waiters.tx⟩⟩

def Off (n p : Pcb) (t : Nat) : Prop :=
  (n.acWaiter = some t ∧ p.acWaiter = none) ∨ (n.rxWaiter = some t ∧ p.rxWaiter = none) ∨ (n.txWaiter = some t ∧ p.txWaiter = none)

theorem Off.left (h : Off n m t) (hs : Same m p) : Off n p t :=
  h.imp (fun e => ⟨e.1, hs.waiters.ac.elim id fun e' => e'.trans e.2⟩)
    (Or.imp (fun e => ⟨e.1, hs.waiters.rx.elim id fun e' => e'.trans e.2⟩) fun e => ⟨e.1, hs.waiters.tx.elim id fun e' => e'.trans e.2⟩)

theorem Off.right (h : Off m p t) (hs : Same n m) : Off n p t :=
  h.imp (fun e => ⟨was hs.waiters.ac e.1, e.2⟩)
    (Or.imp (fun e => ⟨was hs.waiters.rx e.1, e.2⟩)
      fun e => ⟨was hs.waiters.tx e.1, e.2⟩)

def early (st : TcpState) : Prop := st = .listen ∨ st = .synSent ∨ st = .synRcvd ∨ st = .established ∨ st = .closeWait

instance (st : TcpState) : Decidable (early st) := inferInstanceAs (Decidable (_ ∨ _))

theorem insertSeg_ne (x : Tcp.Pbuf) (l : List Tcp.Pbuf) : Tcp.insertSeg x l ≠ [] := fun e => by
  have hm : x ∈ Tcp.insertSeg x l := mem_listInsertSort.2 (.inl rfl)
  rw [e] at hm
  cases hm

theorem updateBuf_recved {c : Tcp.Pcb} (h : c.recved ≠ []) : (if 0 < g.size then Tcp.tcpUpdateBuf c g else c).recved ≠ [] := by
  split
  · rcases Tcp.tcpUpdateBuf_cases c g with ⟨-, e⟩ | ⟨-, -, -, -, e⟩
    · rw [e.recved]
      exact h
    · rw [e]
      split
      · exact h
      · exact insertSeg_ne _ _
  · exact h

theorem updateBuf_state {c : Tcp.Pcb} : (if 0 < g.size then Tcp.tcpUpdateBuf c g else c).state = c.state := by
  split
  · exact Tcp.tcpUpdateBuf_state c g
  · rfl

theorem tcpUpdateAck_spec (h : tcpUpdateAck ts n g = .ok x) :
    Tcp.tcpUpdateAck n.conn g = .ok x.2.conn ∧ Same n x.2 ∧ x.2.rxWaiter = n.rxWaiter ∧
      Roused (Off n x.2) (fun t => n.txWaiter = some t) ts x.1 := by
  obtain ⟨c, hc, h⟩ := bind_ok h
  split at h
  · obtain ⟨ts', h1, h⟩ := bind_ok h
    cases h
    exact ⟨conn_ok hc, ⟨rfl, rfl, rfl, .inr rfl, .inr rfl, .inl rfl⟩, rfl,
      (unblock_roused h1).mono (fun t e => .inr (.inr ⟨e, rfl⟩)) fun t e => e.1⟩
  · cases h
    exact ⟨conn_ok hc, .conn n c, rfl, .refl _⟩

theorem tcpUpdateBuf_spec (h : tcpUpdateBuf ts n g = .ok x) :
    x.2.conn = Tcp.tcpUpdateBuf n.conn g ∧ Same n x.2 ∧
      Roused (Off n x.2) (fun t => n.rxWaiter = some t ∧ x.2.conn.recved ≠ [] ∧ n.conn.state.val ≤ TcpState.established.val) ts x.1 := by
  unfold tcpUpdateBuf at h
  dsimp only at h
  split at h
  · rename_i hne
    obtain ⟨ts', h1, h⟩ := bind_ok h
    cases h
    refine ⟨rfl, ⟨rfl, rfl, rfl, .inr rfl, .inl rfl, .inr rfl⟩,
      (unblock_roused h1).mono (fun t e => .inr (.inl ⟨e, rfl⟩)) fun t e => ⟨e.1, ?_⟩⟩
    rcases Tcp.tcpUpdateBuf_cases n.conn g with ⟨-, hs⟩ | ⟨-, -, -, -, hr⟩
    · exact absurd hs.recved hne
    · rw [hr] at hne ⊢
      split at hne
      · exact absurd rfl hne
      · rename_i hst
        rw [if_neg hst]
        exact ⟨insertSeg_ne _ _, Nat.not_lt.1 hst⟩
  · cases h
    exact ⟨rfl, .conn n _, .refl _⟩

def Served (n p : Pcb) (t : Nat) : Prop :=
  n.txWaiter = some t ∨ (n.rxWaiter = some t ∧ p.conn.recved ≠ [] ∧ n.conn.state.val ≤ TcpState.established.val)

theorem tcpReceive_spec (h : tcpReceive ts n g = .ok x) :
    Tcp.tcpReceive n.conn g = .ok x.2.conn ∧ Same n x.2 ∧ Roused (Off n x.2) (Served n x.2) ts x.1 := by
  obtain ⟨y, hy, h⟩ := bind_ok h
  obtain ⟨h1, h2, h3, hst, h4⟩ : (if g.flags.has Tcp.tcpAck then Tcp.tcpUpdateAck (Tcp.tcpUpdateWnd n.conn g) g else .ok n.conn) = .ok y.2.conn ∧
      Same n y.2 ∧ y.2.rxWaiter = n.rxWaiter ∧ y.2.conn.state = n.conn.state ∧
      Roused (Off n y.2) (fun t => n.txWaiter = some t) ts y.1 := by
    split at hy
    · rename_i ha
      obtain ⟨h1, h2, h3, h4⟩ := tcpUpdateAck_spec hy
      rw [if_pos ha]
      exact ⟨h1, ⟨h2.acclist, h2.listener, h2.sock, h2.waiters.ac, h2.waiters.rx, h2.waiters.tx⟩, h3,
        ((Tcp.tcpUpdateAck_recv h1).state.trans (Tcp.tcpUpdateWnd_recv n.conn g).state), h4⟩
    · rename_i ha
      cases hy
      rw [if_neg ha]
      exact ⟨rfl, .refl _, rfl, rfl, .refl _⟩
  have hconn : Tcp.tcpReceive n.conn g = .ok (if 0 < g.size then Tcp.tcpUpdateBuf y.2.conn g else y.2.conn) := by
    unfold Tcp.tcpReceive
    rw [h1]
    rfl
  rw [hconn]
  split at h
  · rename_i hsize
    obtain ⟨h5, h6, h7⟩ := tcpUpdateBuf_spec h
    rw [if_pos hsize, h5]
    refine ⟨rfl, h2.trans h6, (h4.mono (fun t e => e.left h6) fun t e => .inl e).trans
      (h7.mono (fun t e => e.right h2) fun t e => .inr ⟨h3 ▸ e.1, e.2.1, hst ▸ e.2.2⟩)⟩
  · rename_i hsize
    cases h
    rw [if_neg hsize]
    exact ⟨rfl, h2, h4.mono (fun t e => e) fun t e => .inl e⟩

def Shaken (s : State) (n p : Pcb) (t : Nat) : Prop :=
  n.conn.state = .synRcvd ∧ p.conn.state = .established ∧ ∃ l m, n.listener = some l ∧ s.pcb l = some m ∧ m.acWaiter = some t

def Heard (s : State) (n p : Pcb) (t : Nat) : Prop :=
  Served n p t ∨ (n.acWaiter = some t ∧ n.conn.state = .synSent) ∨ Shaken s n p t

/-- What a segment for a pcb does: the pcb stays where it is, it gets a child, or it is freed. -/
inductive Came (s : State) (i : Nat) (n : Pcb) (g : Segment) (new : Nat) : State → Prop
  | stays {p : Pcb} {ts : Tasks} (hc : Tcp.tcpInput n.conn g = .ok p.conn) (hs : Same n p)
      (hr : Roused (fun t => Off n p t ∨ Shaken s n p t) (Heard s n p) s.task ts) :
    Came s i n g new ⟨ts, Function.update s.pcb i (some p), s.udp, s.waiters⟩
  | spawns {p m : Pcb} {ts : Tasks} (hst : n.conn.state = .listen) (hp : p.conn.state = .listen ∧ p.acclist = new :: n.acclist ∧
      p.sock = n.sock ∧ p.listener = n.listener) (hw : Waiters n p) (hm : m.conn.state = .synRcvd ∧ m.acclist = [] ∧ m.sock = false ∧
      m.listener = some i) (hn : m.acWaiter = none ∧ m.rxWaiter = none ∧ m.txWaiter = none) (hrec : n.conn.recved ≠ [] → p.conn.recved ≠ [])
      (hr : Roused (Off n p) (Served n p) s.task ts) :
    Came s i n g new ⟨ts, Function.update (Function.update s.pcb i (some p)) new (some m), s.udp, s.waiters⟩
  | frees {ts : Tasks} (hst : n.conn.state = .lastAck)
      (hr : Roused n.names (fun t => n.txWaiter = some t) s.task ts) :
    Came s i n g new ⟨ts, dropped s.pcb i n.acclist, s.udp, s.waiters⟩

theorem Switched.keeps {c d : Tcp.Pcb} (h : Tcp.Switched c g d) (hst : early c.state) : d.recved = c.recved := by
  refine h.recved.resolve_right fun ⟨_, hd⟩ => ?_
  have h1 := h.next
  revert h1
  rcases hst with e | e | e | e | e <;> rw [e] <;> rcases hd with e' | e' <;> rw [e'] <;> cases g.flags.has Tcp.tcpFin <;> decide

theorem early_of {st : TcpState} (h1 : st ≠ .closed) (h2 : st.val ≤ TcpState.established.val) : early st := by
  revert h1 h2
  cases st <;> decide

theorem Served.keeps {q : Pcb} {d : Tcp.Pcb} (h : Served n q t) (hst : q.conn.state = n.conn.state) (hne : n.conn.state ≠ .closed)
    (hd : Tcp.Switched q.conn g d) (hp : p.conn = d) : Served n p t := by
  rcases h with h | ⟨h1, h2, h3⟩
  · exact .inl h
  · refine .inr ⟨h1, ?_, h3⟩
    rw [hp, Switched.keeps hd (hst ▸ early_of hne h3)]
    exact h2

theorem dropped_update {f : Pcbs} {l : List Nat} : dropped (update f i (some p)) i l = dropped f i l := by
  unfold dropped
  funext j
  by_cases hj : j = i
  · rw [if_pos (.inl hj), if_pos (.inl hj)]
  · rw [update_of_ne hj]

section Switch

variable {q : Pcb} {new : Nat} {isn : Seq}

theorem tcpHandleListen_came (hq : Same n q) (hst : n.conn.state = .listen) (hqst : q.conn.state = .listen)
    (hrec : n.conn.recved ≠ [] → q.conn.recved ≠ []) (hr : Roused (Off n q) (Served n q) s.task ts)
    (hc : ∀ d, Tcp.processState q.conn g = .ok d → Tcp.tcpInput n.conn g = .ok d)
    (h : tcpHandleListen (s.setTask ts) i q g new isn = .ok u) : Came s i n g new u := by
  have hsame : Tcp.tcpInput n.conn g = .ok q.conn := hc _ (by unfold Tcp.processState; rw [hqst])
  have hstay : Came s i n g new ((s.setTask ts).setPcb i q) := .stays hsame hq (hr.mono (fun t e => .inl e) fun t e => .inl e)
  unfold tcpHandleListen at h
  split at h
  · cases h
    exact hstay
  split at h
  · cases h
    exact hstay
  · obtain ⟨d, hd, h⟩ := bind_ok h
    cases h
    exact .spawns hst ⟨hqst, by rw [← hq.acclist], hq.sock, hq.listener⟩ ⟨hq.waiters.ac, hq.waiters.rx, hq.waiters.tx⟩
      ⟨Own.spawn_state (conn_ok hd), rfl, rfl, rfl⟩ ⟨rfl, rfl, rfl⟩ hrec hr

theorem tcpHandleSynSent_came (hq : Same n q) (hst : n.conn.state = .synSent) (hqst : q.conn.state = n.conn.state)
    (hr : Roused (Off n q) (Served n q) s.task ts) (hc : ∀ d, Tcp.processState q.conn g = .ok d → Tcp.tcpInput n.conn g = .ok d)
    (h : tcpHandleSynSent ts q g = .ok x) :
    Came s i n g new (((s.setTask ts).setTask x.1).setPcb i x.2) := by
  have hd : Tcp.processState q.conn g = .ok (Tcp.tcpHandleSynSent q.conn g) := by
    unfold Tcp.processState
    rw [hqst, hst]
  have hserved : ∀ p : Pcb, p.conn = Tcp.tcpHandleSynSent q.conn g → Same q p →
      Roused (fun t => Off n p t ∨ Shaken s n p t) (Heard s n p) s.task ts := fun p hp hqp =>
    hr.mono (fun t e => .inl (e.left hqp)) fun t e => .inl (e.keeps hqst (by rw [hst]; decide) (Tcp.processState_recv hd) hp)
  unfold tcpHandleSynSent at h
  dsimp only at h
  split at h
  · obtain ⟨ts', h1, h⟩ := bind_ok h
    cases h
    have hqp : Same q { q with conn := Tcp.tcpHandleSynSent q.conn g, acWaiter := none } := ⟨rfl, rfl, rfl, .inl rfl, .inr rfl, .inr rfl⟩
    have hac : ∀ t, q.acWaiter = some t → n.acWaiter = some t := fun t e => was hq.waiters.ac e
    refine .stays (hc _ hd) (hq.trans hqp) ((hserved _ rfl hqp).trans ?_)
    exact (unblock_roused h1).mono (fun t e => .inl (.inl ⟨hac t e, rfl⟩)) fun t e => .inr (.inl ⟨hac t e.1, hst⟩)
  · cases h
    exact .stays (hc _ hd) (hq.trans (.conn q _)) (hserved _ rfl (.conn q _))

theorem tcpSynRcvd_came (hi : s.pcb i = some n) (hq : Same n q) (hst : n.conn.state = .synRcvd) (hqst : q.conn.state = n.conn.state)
    (hr : Roused (Off n q) (Served n q) s.task ts) (hc : ∀ d, Tcp.processState q.conn g = .ok d → Tcp.tcpInput n.conn g = .ok d)
    (h : tcpSynRcvd (s.setTask ts) i q g = .ok u) : Came s i n g new u := by
  obtain ⟨d, hd, h⟩ := bind_ok h
  have hd := conn_ok hd
  have hserved : Roused (fun t => Off n { q with conn := d } t ∨ Shaken s n { q with conn := d } t) (Heard s n { q with conn := d }) s.task ts :=
    hr.mono (fun t e => .inl (e.left (.conn q d))) fun t e => .inl (e.keeps hqst (by rw [hst]; decide) (Tcp.processState_recv hd) rfl)
  split at h
  · rename_i hest
    split at h
    · cases h
    · rename_i l hl
      obtain ⟨m, hm, h⟩ := bind_ok h
      obtain ⟨ts', h1, h⟩ := bind_ok h
      cases h
      have hshaken : ∀ t, m.acWaiter = some t → Shaken s n { q with conn := d } t := fun t e => by
        refine ⟨hst, hest, ?_⟩
        rcases update_cases (deref_ok hm) with ⟨rfl, rfl⟩ | ⟨-, hm⟩
        · exact ⟨l, n, hq.listener.symm.trans hl, hi, was hq.waiters.ac e⟩
        · exact ⟨l, m, hq.listener.symm.trans hl, hm, e⟩
      exact .stays (p := { q with conn := d }) (hc _ hd) (hq.trans (.conn q d))
        (hserved.trans ((unblock_roused h1).mono (fun t e => .inr (hshaken t e)) fun t e => .inr (.inr (hshaken t e.1))))
  · cases h
    exact .stays (p := { q with conn := d }) (hc _ hd) (hq.trans (.conn q d)) hserved

theorem tcpSettle_came (hb : Books s.pcb) (hi : s.pcb i = some n) (hq : Same n q) (hst : n.conn.state ≠ .listen) (hne : n.conn.state ≠ .closed)
    (hqst : q.conn.state = n.conn.state) (hr : Roused (Off n q) (Served n q) s.task ts)
    (hc : ∀ d, Tcp.processState q.conn g = .ok d → Tcp.tcpInput n.conn g = .ok d) (h : tcpSettle (s.setTask ts) i q g = .ok u) :
    Came s i n g new u := by
  have hacc : q.acclist = [] := hq.acclist.trans (hb.leaf i n hi hst)
  obtain ⟨d, hd, h⟩ := bind_ok h
  have hd := conn_ok hd
  have hserved : ∀ p : Pcb, p.conn = d → Same q p → Roused (fun t => Off n p t ∨ Shaken s n p t) (Heard s n p) s.task ts := fun p hp hqp =>
    hr.mono (fun t e => .inl (e.left hqp)) fun t e => .inl (e.keeps hqst hne (Tcp.processState_recv hd) hp)
  have hself : ((s.setTask ts).setPcb i { q with conn := d }).pcb i = some { q with conn := d } := update_self ..
  split at h
  · rename_i hlast
    obtain ⟨h1, h2⟩ := tcpPcbPut_spec (S := fun t => n.txWaiter = some t) hself h
    rw [h2]
    have hdrop : dropped ((s.setTask ts).setPcb i { q with conn := d }).pcb i q.acclist = dropped s.pcb i n.acclist := by
      rw [← hq.acclist]
      exact dropped_update
    rw [hdrop]
    have hl : n.conn.state = .lastAck := hqst.symm.trans hlast.1
    have hoff : ∀ t, Off n q t → n.names t := fun t e => e.imp And.left (Or.imp And.left And.left)
    have htx : ∀ t, Served n q t → n.txWaiter = some t := fun t e => e.resolve_right fun e => by
      have := e.2.2
      rw [hl] at this
      exact absurd this (by decide)
    have hfree : ∀ t, Freed ((s.setTask ts).setPcb i { q with conn := d }).pcb (i :: q.acclist) t → n.names t := fun t e => by
      obtain ⟨c, hc, x, hx, ht⟩ := e
      have hcx : c = i := by
        rw [hacc] at hc
        exact mem_singleton.1 hc
      subst hcx
      rw [hself] at hx
      cases hx
      exact ht.imp (fun e => was hq.waiters.ac e) (Or.imp (fun e => was hq.waiters.rx e) fun e => was hq.waiters.tx e)
    exact .frees hl ((hr.mono hoff htx).trans (h1.mono hfree fun t e => e))
  split at h
  · obtain ⟨h1, h2⟩ := tcpPcbPurge_spec hself hacc (by decide) h
    have hidem : update ((s.setTask ts).setPcb i { q with conn := d }).pcb i
        (some { q with conn := d, acWaiter := none, rxWaiter := none, txWaiter := none }) =
        update s.pcb i (some { q with conn := d, acWaiter := none, rxWaiter := none, txWaiter := none }) := update_idem ..
    rw [h2]
    show Came s i n g new ⟨_, update ((s.setTask ts).setPcb i { q with conn := d }).pcb i
        (some { q with conn := d, acWaiter := none, rxWaiter := none, txWaiter := none }), s.udp, s.waiters⟩
    rw [hidem]
    have hqp : Same q { q with conn := d, acWaiter := none, rxWaiter := none, txWaiter := none } := ⟨rfl, rfl, rfl, .inl rfl, .inl rfl, .inl rfl⟩
    refine .stays (hc _ hd) (hq.trans hqp) ((hserved _ rfl hqp).trans (h1.mono (fun t e => .inl (Off.right ?_ hq)) fun t e => e))
    exact e.imp (fun e => ⟨e, rfl⟩) (Or.imp (fun e => ⟨e, rfl⟩) fun e => ⟨e, rfl⟩)
  · cases h
    exact .stays (p := { q with conn := d }) (hc _ hd) (hq.trans (.conn q d)) (hserved _ rfl (.conn q d))

theorem processState_came (hb : Books s.pcb) (hi : s.pcb i = some n) (hq : Same n q) (hne : n.conn.state ≠ .closed)
    (hqst : q.conn.state = n.conn.state) (hrec : n.conn.recved ≠ [] → n.conn.state = .listen → q.conn.recved ≠ [])
    (hr : Roused (Off n q) (Served n q) s.task ts) (hc : ∀ d, Tcp.processState q.conn g = .ok d → Tcp.tcpInput n.conn g = .ok d)
    (h : processState (s.setTask ts) i q g new isn = .ok u) : Came s i n g new u := by
  unfold processState at h
  split at h
  · rename_i hst
    have hl : n.conn.state = .listen := hqst.symm.trans hst
    exact tcpHandleListen_came hq hl hst (fun e => hrec e hl) hr hc h
  · rename_i hst
    obtain ⟨x, hx, h⟩ := bind_ok h
    cases h
    exact tcpHandleSynSent_came hq (hqst.symm.trans hst) hqst hr hc hx
  · rename_i hst
    exact tcpSynRcvd_came hi hq (hqst.symm.trans hst) hqst hr hc h
  · rename_i hst _ _
    exact tcpSettle_came hb hi hq (fun e => hst (hqst.trans e)) hne hqst hr hc h

end Switch

theorem stays_self {new : Nat} (hi : s.pcb i = some n) (hc : Tcp.tcpInput n.conn g = .ok n.conn) : Came s i n g new s := by
  have hs : Came s i n g new ⟨s.task, update s.pcb i (some n), s.udp, s.waiters⟩ := .stays hc (.refl n) (.refl _)
  rw [← hi, update_eq_self] at hs
  exact hs

theorem tcpInput_came {new : Nat} {isn : Seq} (hb : Books s.pcb) (hi : s.pcb i = some n) (h : tcpInput s i g new isn = .ok u) :
    Came s i n g new u := by
  obtain ⟨n', hn', h⟩ := bind_ok h
  cases hi.symm.trans (deref_ok hn')
  have hinput : Tcp.tcpInput n.conn g = Tcp.tcpInput n.conn g := rfl
  conv_rhs at hinput => unfold Tcp.tcpInput
  split at h
  · rename_i hv
    cases h
    rw [if_pos hv] at hinput
    exact stays_self hi hinput
  rename_i hv
  rw [if_neg hv] at hinput
  split at h
  · rename_i hcl
    cases h
    rw [if_pos hcl] at hinput
    exact stays_self hi hinput
  rename_i hcl
  rw [if_neg hcl] at hinput
  split at h
  · rename_i hrst
    rw [if_pos hrst] at hinput
    unfold tcpHandleReset at h
    split at h
    · rename_i hle
      cases h
      refine stays_self hi (hinput.trans ?_)
      unfold Tcp.tcpHandleReset
      rw [if_pos hle]
      rfl
    · rename_i hle
      obtain ⟨d, hd, h⟩ := bind_ok h
      have hlisten : n.conn.state ≠ .listen := fun e => hle (by rw [e]; decide)
      obtain ⟨h1, h2⟩ := tcpPcbPurge_spec hi (hb.leaf i n hi hlisten) (by decide) h
      rw [h2]
      exact .stays (hinput.trans (conn_ok hd)) ⟨rfl, rfl, rfl, .inl rfl, .inl rfl, .inl rfl⟩
        (h1.mono (fun t e => .inl (e.imp (fun e => ⟨e, rfl⟩) (Or.imp (fun e => ⟨e, rfl⟩) fun e => ⟨e, rfl⟩))) fun t e => e)
  rename_i hrst
  rw [if_neg hrst] at hinput
  dsimp only at h hinput
  split at h
  · rename_i hopt
    cases h
    rw [if_pos (by rw [hopt]; decide)] at hinput
    exact .stays (p := { n with conn := (Tcp.tcpParseOption n.conn g.options).1 }) hinput (.conn n _) (.refl _)
  rename_i hopt
  rw [if_neg (by simpa using hopt)] at hinput
  -- the connection `tcp_process` gets
  obtain ⟨c, hc⟩ : ∃ c : Tcp.Pcb, c = { (Tcp.tcpParseOption n.conn g.options).1 with idle := 0 } := ⟨_, rfl⟩
  rw [← hc] at h hinput
  have hcrecv : SameRecv n.conn c := hc ▸ (Tcp.tcpParseOption_recv g.options n.conn).trans ⟨rfl, rfl, rfl, rfl⟩
  obtain ⟨x, hx, h⟩ := bind_ok h
  split at hx
  · rename_i ha
    obtain ⟨h1, h2, h3⟩ := tcpReceive_spec hx
    obtain ⟨t, ht, hxt⟩ := Tcp.tcpReceive_recv h1
    have hxst : x.2.conn.state = n.conn.state := (Own.tcpReceive_state h1).trans hcrecv.state
    refine processState_came (q := x.2) hb hi (Same.trans (.conn n c) h2) hcl hxst (fun hne hl => ?_)
      (h3.mono (fun t e => Off.right e (.conn n c)) fun t e => e.imp_right fun e => ⟨e.1, e.2.1, hcrecv.state ▸ e.2.2⟩) (fun d hd => ?_) h
    · rw [hxt]
      exact updateBuf_recved (by rw [ht.recved, hcrecv.recved]; exact hne)
    · rw [hinput]
      unfold Tcp.tcpProcess
      rw [if_pos ha, h1]
      exact hd
  · rename_i ha
    cases hx
    refine processState_came (q := { n with conn := c }) hb hi (.conn n c) hcl hcrecv.state (fun hne _ => ?_) (.refl _) (fun d hd => ?_) h
    · show c.recved ≠ []
      rw [hcrecv.recved]
      exact hne
    · rw [hinput]
      unfold Tcp.tcpProcess
      rw [if_neg ha]
      exact hd

/-! ## What a segment does to the connection -/

section Conn

variable {c d : Tcp.Pcb}

theorem input_cases (h : Tcp.tcpInput c g = .ok d) :
    (¬ Tcp.Processed c g ∧ SameRecv c d) ∨
    (Tcp.tcpValidate c g = true ∧ g.flags.has Tcp.tcpRst = true ∧ TcpState.synSent.val < c.state.val ∧ d.state = .closed) ∨
    (Tcp.Processed c g ∧ ∃ t, t.state = c.state ∧ (c.recved ≠ [] → t.recved ≠ []) ∧ Tcp.Switched t g d) := by
  rcases Tcp.tcpInput_recv h with ⟨h1, h2 | h2⟩ | ⟨h1, t, ht, ⟨-, h2⟩ | ⟨-, h2⟩⟩
  · exact .inl ⟨h1, h2⟩
  · exact .inr (.inl ⟨h2.1, h2.2.1, h2.2.2.1, h2.2.2.2.1⟩)
  · exact .inr (.inr ⟨h1, t, ht.state, fun e => by rw [ht.recved]; exact e, h2⟩)
  · exact .inr (.inr ⟨h1, _, updateBuf_state.trans ht.state, fun e => updateBuf_recved (by rw [ht.recved]; exact e), h2⟩)

theorem input_follows (h : Tcp.tcpInput c g = .ok d) : Follows c.state d.state := by
  rcases input_cases h with ⟨-, h⟩ | ⟨-, -, h1, h2⟩ | ⟨-, t, ht, -, h⟩
  · exact .inl h.state
  · refine .inr (.inl ⟨h2, fun e => ?_⟩)
    rw [e] at h1
    exact absurd h1 (by decide)
  · exact .inr (.inr ⟨_, ht ▸ h.next⟩)

/-- A segment ends an established connection: a reset, or a `FIN`. -/
def Ends (c : Tcp.Pcb) (g : Segment) : Prop :=
  Tcp.tcpValidate c g = true ∧
    (g.flags.has Tcp.tcpRst = true ∨ ((Tcp.tcpParseOption c g.options).2 = true ∧ g.flags.has Tcp.tcpFin = true))

theorem input_established (h : Tcp.tcpInput c g = .ok d) (hst : c.state = .established) (hn : ¬ Ends c g) : d.state = .established := by
  rcases input_cases h with ⟨-, h⟩ | ⟨h1, h2, -⟩ | ⟨hp, t, ht, -, h⟩
  · exact h.state.trans hst
  · exact absurd ⟨h1, .inl h2⟩ hn
  · have hfin : g.flags.has Tcp.tcpFin = false := by
      rw [← Bool.not_eq_true]
      exact fun e => hn ⟨hp.1, .inr ⟨hp.2.2.2, e⟩⟩
    have hnext := h.next
    rw [ht, hst, hfin] at hnext
    exact mem_singleton.1 hnext

def Resets (c : Tcp.Pcb) (g : Segment) : Prop :=
  Tcp.tcpValidate c g = true ∧ g.flags.has Tcp.tcpRst = true ∧ TcpState.synSent.val < c.state.val

theorem input_recved (h : Tcp.tcpInput c g = .ok d) (hst : ofSock c.state) (hne : c.recved ≠ []) (hn : ¬ Resets c g) : d.recved ≠ [] := by
  rcases input_cases h with ⟨-, h⟩ | ⟨h1, h2, h3, -⟩ | ⟨hp, t, ht, htr, h⟩
  · rw [h.recved]
    exact hne
  · exact absurd ⟨h1, h2, h3⟩ hn
  · have hearly : early t.state := by
      rw [ht]
      have hcl := hp.2.1
      revert hst hcl
      cases c.state <;> decide
    rw [Switched.keeps h hearly]
    exact htr hne

end Conn

end Onix.Wake
