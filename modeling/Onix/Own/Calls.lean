/-
The system calls and the timer tasks keep the invariant. The round of `tcp_slowtimo` goes on to read the
timers of a pcb after the one for `FIN_WAIT2` has freed it; every other step is clean.
-/
import Onix.Own.Steps

namespace Onix.Own

open Option List Onix.Lib
open Onix.Tcp (Pcb Segment Seq Flags TcpState TcpTimer SockOpt Iovec)

variable {A : Prop} {x : Option Nat} {s t : Sys} {i j k : Nat} {n p m : Node} {w : Where} {bad : Fault → Prop}
variable {expires : TcpTimer → Bool}

/-! ## System calls -/

theorem Inv.held (h : Inv A x s) (hk : s.sock k = some i) :
    ∃ n, s.pcb i = some n ∧ ofSock n.conn.state ∧ n.quiet ∧ ¬ s.Queued i := by
  obtain ⟨n, hn, hst, hq⟩ := h.sock k i hk
  refine ⟨n, hn, hst, hq, ?_⟩
  rintro ⟨a, b, ha, hb⟩
  exact (h.acc a b i ha hb).2.2 ⟨k, hk⟩

theorem ofSock_bind {α : Type} {f : Nat → Except Fault α} {Q : α → Prop} (hk : s.sock k = some i)
    (hf : Sat bad (f i) Q) :
    Sat bad (s.ofSock k >>= f) Q := by
  unfold Sys.ofSock
  rw [hk]; exact hf

theorem Inv.relinked (h : Inv A x s) (i : Nat) (w : Where) : Relinked s.list i w ((s.unlink i).push w i).list := by
  have hnd : ∀ v, ((s.list v).erase i).Nodup := fun v => (h.nodup v).erase i
  constructor
  · intro v
    show (Function.update (fun v => (s.list v).erase i) w (i :: (s.list w).erase i) v).Nodup
    by_cases hv : v = w
    · subst hv
      rw [Function.update_self]
      exact nodup_cons.2 ⟨(h.nodup v).not_mem_erase, hnd v⟩
    · rw [Function.update_of_ne hv]
      exact hnd v
  · intro v a
    show a ∈ Function.update (fun v => (s.list v).erase i) w (i :: (s.list w).erase i) v ↔ _
    by_cases hv : v = w
    · subst hv
      rw [Function.update_self, mem_cons, (h.nodup v).mem_erase_iff, and_iff_left rfl, or_comm]
    · rw [Function.update_of_ne hv, (h.nodup v).mem_erase_iff]
      exact ⟨.inl, fun e => e.elim id fun e => absurd e.2 hv⟩

theorem Inv.move {l : Where → List Nat} (h : Inv A none s) (hk : s.sock k = some i) (hi : s.pcb i = some n)
    (hst : ofSock p.conn.state)
    (hacc : p.acclist = n.acclist) (ht : p.finWait2 = n.finWait2 ∧ p.timewait = n.timewait)
    (hlisten : n.conn.state = .listen → p.conn.state = .listen) (hl : Relinked s.list i w l) (hw : w = .listen ↔ p.conn.state = .listen)
    (hw' : w ≠ .create) :
    Inv A none { s.set i p with list := l } := by
  obtain ⟨m, hm, -, hq, hnq⟩ := h.held hk
  obtain rfl := some.inj (hi.symm.trans hm)
  refine h.update hi ⟨hacc, fun _ => ⟨hst, ht.1.trans hq.1, ht.2.trans hq.2⟩, fun e => absurd e hnq, fun e => absurd ⟨k, hk⟩ e, hlisten, hw,
    fun e => ?_, fun e => ?_, fun e => absurd e hw'⟩ hl
  · rw [e] at hst; exact absurd hst (by decide)
  · rw [e] at hst; exact absurd hst (by decide)

theorem socket_sat {new : Nat} {isn : Seq} (h : Inv A none s) (hk : s.sock k = none) (hnew : s.pcb new = none) :
    Inv A none (tcpSocket s k new isn) := by
  obtain ⟨-, hheld, hqueued⟩ := h.absent hnew
  have ha := h.alloc (m := fresh (Tcp.tcpPcbGet isn) none) (w := .create) hnew rfl (.inl rfl) nofun fun _ => rfl
  exact ha.give (m := fresh (Tcp.tcpPcbGet isn) none) set_same (.inl rfl) ⟨rfl, rfl⟩ hheld
    (fun hq => hqueued (queued_set (p := fresh (Tcp.tcpPcbGet isn) none) (fun hj => absurd hj not_mem_nil) hq)) hk

theorem Inv.adopt (h : Inv A (some i) s) (hA : A) (hi : s.pcb i = some n) (hst : closing n.conn.state) :
    Inv A none s := by
  refine ⟨h.nodup, h.one, h.listed, h.sock, h.sockOne, h.acc, h.accNodup, h.accOne, h.listening, h.waiting, ?_, h.timed, h.created⟩
  intro j m hj h1 h2 _
  by_cases hji : j = i
  · subst hji
    obtain rfl := some.inj (hi.symm.trans hj)
    exact ⟨hA, .inl hst⟩
  · exact h.orphan j m hj h1 h2 fun e => hji (some.inj e).symm

def connected (st : TcpState) : Prop := st = .synRcvd ∨ st = .established ∨ st = .closeWait

instance (st : TcpState) : Decidable (connected st) := inferInstanceAs (Decidable (_ ∨ _))

theorem close_conn {c d : Pcb} (hst : connected c.state) (h : Tcp.tcpClose c = .ok d) :
    d.state = .finWait1 ∨ d.state = .lastAck := by
  have hfin : ∀ st : TcpState, (Tcp.tcpEnqueue c (fun _ => 0) 0 Tcp.tcpFin >>= fun t => Tcp.tcpOutput { t with state := st }) = .ok d →
      d.state = st := by
    intro st h
    obtain ⟨t, -, h⟩ := bind_ok h
    exact (Tcp.tcpOutput_recv h).state
  unfold Tcp.tcpClose at h
  rcases hst with e | e | e <;> rw [e] at h
  · exact .inl (hfin _ h)
  · exact .inl (hfin _ h)
  · exact .inr (hfin _ h)

/-- What `tcp_close` leaves: the pcb is freed, or goes on alone with no timer that frees it. -/
def Closed (s : Sys) (i : Nat) (t : Sys) : Prop :=
  ∀ n, s.pcb i = some n → connected n.conn.state → ∃ m, t.pcb i = some m ∧ m.quiet ∧ ¬ t.Held i ∧ ¬ t.Queued i ∧ closing m.conn.state

theorem close_sat (h : Inv A none s) (hA : ∀ n, s.pcb i = some n → connected n.conn.state → A)
    (hbad : ∀ e, bad e → Misuse e) (hk : s.sock k = some i) (hw : ∀ y ∈ s.waiting, y.1 ≠ k) :
    Sat bad (tcpClose s k) fun t => Inv A none t ∧ Closed s i t := by
  obtain ⟨n, hn, hst, hq, hqueued⟩ := h.held hk
  obtain ⟨hu, hheld⟩ := h.unsock hk hw
  refine ofSock_bind hk (deref_bind hn ?_)
  -- the pcb is freed
  have hput : ¬ connected n.conn.state → Sat bad (tcpPcbPut (Sys.pcbs { s with sock := Function.update s.sock k none } + 1)
      { s with sock := Function.update s.sock k none } i) fun t => Inv A none t ∧ Closed s i t := by
    intro hc
    refine (hu.put (.inr rfl) hbad hn hheld hqueued).mono fun t ht => ⟨ht, fun m hm hm' => ?_⟩
    obtain rfl := some.inj (hn.symm.trans hm)
    exact absurd hm' hc
  -- it goes on alone
  have halone : connected n.conn.state → Sat bad (conn (Tcp.tcpClose n.conn) >>= fun c =>
      pure (Sys.set { s with sock := Function.update s.sock k none } i { n with conn := c })) fun t => Inv A none t ∧ Closed s i t := by
    intro hc
    refine (conn_sat hbad).bind fun c _ hc' => Sat.ok ?_
    have hclosing : closing c.state := by
      rcases close_conn hc hc' with e | e <;> rw [e] <;> decide
    have hne : n.conn.state ≠ .listen := fun e => by rw [e] at hc; exact absurd hc (by decide)
    obtain ⟨w, hwl, hwc, hl⟩ := hu.here hn hne
    have hcreate : w ≠ .create := fun e => by
      rw [hwc e] at hc; exact absurd hc (by decide)
    have hone := hu.update (p := { n with conn := c }) (l := s.list) hn ⟨rfl, fun e => absurd e hheld, fun e => absurd e hqueued,
      fun _ _ e => absurd rfl e, fun e => absurd e hne, iff_of_false hwl fun e => ?_, fun e => ?_, fun e => ?_,
      fun e => absurd e hcreate⟩ hl
    · have hout : ¬ Sys.Queued (Sys.set { s with sock := Function.update s.sock k none } i { n with conn := c }) i :=
        fun hq => hqueued (queued_set (p := { n with conn := c }) (fun hj => ⟨i, n, hn, hj⟩) hq)
      exact ⟨hone.adopt (hA n hn hc) set_same hclosing, fun _ _ _ => ⟨_, set_same, hq, hheld, hout, hclosing⟩⟩
    · rw [e] at hclosing; exact absurd hclosing (by decide)
    · rcases close_conn hc hc' with e' | e' <;> exact absurd (e.symm.trans e') (by decide)
    · rcases close_conn hc hc' with e' | e' <;> exact absurd (e.symm.trans e') (by decide)
  rcases hst with e | e | e | e | e <;> rw [e] at hput halone ⊢
  · exact hput (by decide)
  · exact hput (by decide)
  · exact hput (by decide)
  · exact halone (by decide)
  · exact halone (by decide)

theorem tcpListen_sat {backlog : Nat} (h : Inv A none s) (hk : s.sock k = some i) : Sat bad (tcpListen s k backlog)
    (Inv A none) := by
  obtain ⟨n, hn, -⟩ := h.held hk
  refine ofSock_bind hk (deref_bind hn ?_)
  split
  · exact Sat.ok h
  exact Sat.ok (h.move (p := { n with conn := { n.conn with state := .listen }, backcnt := 0, backlog := backlog }) hk hn (.inr (.inl rfl))
    rfl ⟨rfl, rfl⟩ (fun _ => rfl) (h.relinked i .listen) (iff_of_true rfl rfl) nofun)

theorem connect_state {c d : Pcb} (hc : c.state = .closed) (h : Tcp.tcpConnect c = .ok d) : d.state = .synSent := by
  unfold Tcp.tcpConnect at h
  rw [if_neg (not_not.2 hc)] at h
  obtain ⟨t, ht, h⟩ := bind_ok h
  exact (Tcp.tcpOutput_recv h).state.trans (Tcp.tcpEnqueue_recv ht).state

theorem tcpConnect_sat (h : Inv A none s) (hbad : ∀ e, bad e → Misuse e) (hk : s.sock k = some i) : Sat bad
    (tcpConnect s k) (Inv A none) := by
  obtain ⟨n, hn, -⟩ := h.held hk
  refine ofSock_bind hk (deref_bind hn ?_)
  split
  · exact Sat.ok h
  rename_i hst
  refine (conn_sat hbad).bind fun c _ hc => Sat.ok ?_
  have hst : n.conn.state = .closed := not_not.1 hst
  have hsyn : c.state = .synSent := connect_state hst hc
  exact (h.move (p := { n with conn := c }) hk hn (by rw [hsyn]; decide) rfl ⟨rfl, rfl⟩ (fun e => absurd (hst.symm.trans e) (by decide))
    (h.relinked i .active) (iff_of_false nofun (by rw [hsyn]; decide)) nofun).wait hk

theorem accepted_inv {ns : Nat} (h : Inv A none s) (hi : s.pcb i = some n) (hj : tcpFindNpcb s n = some j)
    (hns : s.sock ns = none) :
    Inv A none (accepted s i n ns j) := by
  have hmem : j ∈ n.acclist := mem_of_find?_eq_some hj
  have hest := find?_some hj
  obtain ⟨hst, ⟨m, hm, -, hquiet⟩, hheld⟩ := h.acc i n j hi hmem
  have hji := h.acc_ne hi hmem
  rw [decide_eq_true_eq, hm] at hest
  have hest : m.conn.state = .established := some.inj hest
  have hnd := h.accNodup i n hi
  have hr := h.requeue (y := some j) (p := { n with acclist := n.acclist.erase j }) hi {
    state := ⟨hst, hst⟩
    timers := ⟨rfl, rfl⟩
    nodup := hnd.erase j
    new := fun a ha => .inl (mem_of_mem_erase ha)
    old := fun a ha hn => by
      rcases ha with ha | ha
      · refine congrArg some (by_contra fun hja => hn ((mem_erase_of_ne fun e => hja e.symm).2 ha))
      · cases ha }
  refine hr.give (m := m) ((set_ne hji).trans hm) (by rw [hest]; decide) hquiet hheld ?_ hns
  rintro ⟨a, b, ha, hb⟩
  by_cases hai : a = i
  · subst hai
    obtain rfl := some.inj (set_same.symm.trans ha)
    exact absurd hb hnd.not_mem_erase
  · exact hai (h.accOne a i b n j ((set_ne hai).symm.trans ha) hi hb hmem)

theorem tcpAccept_sat {ns : Nat} (h : Inv A none s) (hk : s.sock k = some i) (hns : s.sock ns = none) :
    Sat bad (tcpAccept s k ns) (Inv A none) := by
  obtain ⟨n, hn, -⟩ := h.held hk
  refine ofSock_bind hk (deref_bind hn ?_)
  split
  · exact Sat.ok h
  split
  · rename_i j hj
    exact Sat.ok (accepted_inv h hn hj hns)
  · exact Sat.ok (h.wait hk)

theorem tcpSendmsg_sat {iov : List ((Nat → UInt8) × Nat)} {flags : Flags} (h : Inv A none s)
    (hbad : ∀ e, bad e → Misuse e)
    (hk : s.sock k = some i) : Sat bad (tcpSendmsg s k iov flags) (Inv A none) := by
  obtain ⟨n, hn, -⟩ := h.held hk
  refine ofSock_bind hk (deref_bind hn ?_)
  split
  · exact Sat.ok h
  refine (conn_sat hbad).bind fun c _ hc => ?_
  have h' := h.conn hn (Tcp.tcpSendmsg_recv hc).state
  split
  · exact Sat.ok h'
  · exact Sat.ok (h'.wait hk)

theorem recvQueued_inv {sizes : List Nat} {y : Pcb × List Iovec} (h : Inv A none s) (hi : s.pcb i = some n)
    (hc : Tcp.recvQueued n.conn (sizes.map fun n => ⟨[], n⟩) = .ok y) : Inv A none (s.set i { n with conn := y.1 }) :=
  h.conn hi (@Tcp.recvQueued_loop _ y.1 _ y.2 hc).2.1

theorem tcpRecvmsg_sat {sizes : List Nat} (h : Inv A none s) (hbad : ∀ e, bad e → Misuse e) (hk : s.sock k = some i) :
    Sat bad (tcpRecvmsg s k sizes) (Inv A none) := by
  obtain ⟨n, hn, -⟩ := h.held hk
  refine ofSock_bind hk (deref_bind hn ?_)
  split
  · exact Sat.ok (h.wait hk)
  refine (conn_sat hbad).bind fun y _ hy => Sat.ok ?_
  rcases Tcp.tcpRecvmsg_cases hy with e | e
  · exact h.conn hn (congrArg Pcb.state e)
  · exact recvQueued_inv h hn e

theorem resume_sat {r : Resume} (h : Inv A none s) (hbad : ∀ e, bad e → Misuse e) (hw : (k, i) ∈ s.waiting)
    (hns : ∀ ns, r = .accept ns → s.sock ns = none) : Sat bad (resume s k i r) (Inv A none) := by
  have hu := h.unwait (y := (k, i))
  obtain ⟨n, hn, -⟩ := h.held (h.waiting _ hw)
  refine deref_bind (s := { s with waiting := s.waiting.erase (k, i) }) hn ?_
  cases r with
  | done => exact Sat.ok hu
  | accept ns =>
    dsimp only
    split
    · rename_i j hj
      exact Sat.ok (accepted_inv hu hn hj (hns ns rfl))
    · refine Sat.error fun hb => ?_
      rcases hbad _ hb with e | e <;> cases e
  | recv sizes => exact (conn_sat hbad).bind fun y _ hy => Sat.ok (recvQueued_inv hu hn hy)

/-! ## The timer tasks -/

/-- A round of a timer task at one pcb leaves the others alone. -/
structure Round (A : Prop) (l : List Nat) (s t : Sys) : Prop where
  inv : Inv A none t
  pcb : ∀ j, j ∉ l → t.pcb j = s.pcb j
  list : ∀ w j, j ∈ t.list w → j ∈ s.list w

theorem round_sat {f : Sys → Nat → Except Fault Sys} {ok : Node → Prop}
    (hf : ∀ s i n, Inv A none s → s.pcb i = some n → ok n → n.conn.state ≠ .listen → Sat bad (f s i) (Round A [i] s)) :
    ∀ (l : List Nat) (s : Sys), Inv A none s → l.Nodup → (∀ j ∈ l, ∃ n, s.pcb j = some n ∧ ok n ∧ n.conn.state ≠ .listen) →
      Sat bad (l.foldlM f s) (Round A l s)
  | [], s, h, _, _ => Sat.ok ⟨h, fun _ _ => rfl, fun _ _ => id⟩
  | i :: l, s, h, hnd, hl => by
    obtain ⟨hi, hnd⟩ := nodup_cons.1 hnd
    obtain ⟨n, hn, hok, hst⟩ := hl i (.head _)
    refine (hf s i n h hn hok hst).bind fun t _ ht => ?_
    have hother : ∀ j, j ≠ i → t.pcb j = s.pcb j := fun j hj => ht.pcb j fun e => hj (mem_singleton.1 e)
    refine (round_sat hf l t ht.inv hnd fun j hj => ?_).mono fun u hu => ⟨hu.inv, fun j hj => ?_, fun w j hj => ht.list w j (hu.list w j hj)⟩
    · obtain ⟨m, hm, hm'⟩ := hl j (.tail _ hj)
      exact ⟨m, (hother j fun e => hi (e ▸ hj)).trans hm, hm'⟩
    · exact (hu.pcb j fun e => hj (.tail _ e)).trans (hother j fun e => hj (e ▸ .head _))

theorem Inv.round (h : Inv A none (s.set i n)) : Round A [i] s (s.set i n) :=
  ⟨h, fun _ hj => set_ne fun e => hj (mem_singleton.2 e), fun _ _ => id⟩

theorem fastPcb_sat (hbad : ∀ e, bad e → Misuse e) (h : Inv A none s) (hi : s.pcb i = some n) : Sat bad (fastPcb s i)
    (Round A [i] s) := by
  refine deref_bind hi ((conn_sat hbad).bind fun c _ hc => Sat.ok ?_)
  exact (h.conn hi (Tcp.tcpFastimo_recv hc).state).round

theorem Inv.on (h : Inv A x s) (hi : i ∈ s.list w) (hw : w ≠ .listen) :
    ∃ n, s.pcb i = some n ∧ n.conn.state ≠ .listen := by
  cases hn : s.pcb i with
  | none => exact absurd hn ((h.listed i).2 ⟨w, hi⟩)
  | some n => exact ⟨n, rfl, fun e => hw (h.one i w .listen hi ((h.listening i n hn).2 e))⟩

theorem tcpFastimo_sat (h : Inv A none s) (hbad : ∀ e, bad e → Misuse e) : Sat bad (tcpFastimo s) (Inv A none) := by
  have hf : ∀ s i n, Inv A none s → s.pcb i = some n → True → n.conn.state ≠ .listen → Sat bad (fastPcb s i) (Round A [i] s) :=
    fun _ _ _ h hi _ _ => fastPcb_sat hbad h hi
  have hlive : ∀ s w, Inv A none s → w ≠ .listen → ∀ j ∈ s.list w, ∃ n, s.pcb j = some n ∧ True ∧ n.conn.state ≠ .listen := by
    intro s w h hw j hj
    obtain ⟨n, h1, h2⟩ := h.on hj hw
    exact ⟨n, h1, trivial, h2⟩
  refine (round_sat hf _ s h (h.nodup _) (hlive s .active h nofun)).bind fun t _ ht => ?_
  exact (round_sat hf _ t ht.inv (ht.inv.nodup _) (hlive t .timewait ht.inv nofun)).mono fun u hu => hu.inv

theorem Inv.busy (h : Inv A x s) (hi : s.pcb i = some n) (hq : ¬ n.quiet) : ¬ s.Held i ∧ ¬ s.Queued i := by
  constructor
  · rintro ⟨k, hk⟩
    obtain ⟨m, hm, -, hquiet, -⟩ := h.held hk
    obtain rfl := some.inj (hi.symm.trans hm)
    exact hq hquiet
  · rintro ⟨a, b, ha, hb⟩
    obtain ⟨-, ⟨m, hm, -, hquiet⟩, -⟩ := h.acc a b i ha hb
    obtain rfl := some.inj (hi.symm.trans hm)
    exact hq hquiet

theorem Inv.tick (h : Inv A none s) (hi : s.pcb i = some n) (hst : n.conn.state ≠ .listen) (hc : p.conn = n.conn)
    (hacc : p.acclist = n.acclist)
    (hq : n.quiet → p.quiet) (h2 : 0 < n.finWait2 → 0 < p.finWait2) (ht : 0 < n.timewait → 0 < p.timewait) :
    Inv A none (s.set i p) := by
  obtain ⟨w, hw, hw', hl⟩ := h.here hi hst
  refine h.update (l := s.list) hi ⟨hacc, ?_, ?_, ?_, fun e => absurd e hst, ?_, ?_, ?_, fun e => by rw [hc]; exact hw' e⟩ hl
  · rintro ⟨k, hk⟩
    obtain ⟨m, hm, hs, hquiet, -⟩ := h.held hk
    obtain rfl := some.inj (hi.symm.trans hm)
    exact ⟨by rw [hc]; exact hs, hq hquiet⟩
  · rintro ⟨a, b, ha, hb⟩
    obtain ⟨-, ⟨m, hm, hs, hquiet⟩, -⟩ := h.acc a b i ha hb
    obtain rfl := some.inj (hi.symm.trans hm)
    exact ⟨by rw [hc]; exact hs, hq hquiet⟩
  · rw [hc]
    exact h.orphan i n hi
  · rw [hc]
    exact iff_of_false hw hst
  · rw [hc]
    exact fun e => h2 ((h.timed i n hi).1 e)
  · rw [hc]
    intro e
    obtain ⟨h3, h4⟩ := (h.timed i n hi).2 e
    refine ⟨ht h3, ?_⟩
    rcases (hl.mem _ i).1 h4 with h5 | ⟨-, h5⟩
    · exact absurd rfl h5.1
    · exact h5.symm

/-- What the timers that are not counted leave of a pcb. -/
structure Ticked (A : Prop) (s : Sys) (i : Nat) (n : Node) (t : Sys) : Prop where
  round : Round A [i] s t
  node : ∃ m, t.pcb i = some m ∧ m.finWait2 = n.finWait2 ∧ m.timewait = n.timewait ∧ m.conn.state ≠ .listen

theorem Round.trans {l : List Nat} {u : Sys} (h1 : Round A l s t) (h2 : Round A l t u) : Round A l s u :=
  ⟨h2.inv, fun j hj => (h2.pcb j hj).trans (h1.pcb j hj), fun w j hj => h1.list w j (h2.list w j hj)⟩

theorem timeout_state {c d : Pcb} {type : TcpTimer} (h : Tcp.tcpTimeout c type = .ok d) :
    d.state = c.state ∨ d.state = .closed := by
  rcases Tcp.tcpTimeout_side h with hs | - | - | - | ⟨-, hs⟩
  · exact .inl hs.state
  · exact .inr hs

theorem tcpTimeout_sat {type : TcpTimer} (hbad : ∀ e, bad e → Misuse e) (h : Inv A none s) (hi : s.pcb i = some n)
    (hst : n.conn.state ≠ .listen) : Sat bad (tcpTimeout s i n type) (Ticked A s i n) := by
  refine (conn_sat hbad).bind fun c _ hc => ?_
  have hstate : c.state = n.conn.state ∨ c.state = .closed := timeout_state hc
  split
  · rename_i hcl
    refine (purge_sat hi (h.acclist_nil hi hst)).mono fun t ht => ?_
    subst ht
    have hk : Inv A none (s.set i { n with conn := c }) := h.keep hi ⟨rfl, ⟨rfl, rfl⟩, .inr (.inl ⟨hcl, hst⟩), fun e => by
      rcases e with e | e <;> exact absurd (hcl.symm.trans e) (by decide)⟩
    exact ⟨hk.round, _, set_same, rfl, rfl, by rw [show ({ n with conn := c } : Node).conn.state = .closed from hcl]; decide⟩
  · rename_i hcl
    have hs : c.state = n.conn.state := hstate.resolve_right hcl
    exact Sat.ok ⟨(h.conn hi hs).round, _, set_same, rfl, rfl, fun e => hst (hs.symm.trans e)⟩

theorem tick_sat {type : TcpTimer} (hbad : ∀ e, bad e → Misuse e) (h : Inv A none s)
    (hi : s.pcb i = some n)
    (hst : n.conn.state ≠ .listen) (ht : type ≠ .finWait2 ∧ type ≠ .timewait) : Sat bad (tcpTick expires i s type)
    (Ticked A s i n) := by
  have hsame : Ticked A s i n s := ⟨⟨h, fun _ _ => rfl, fun _ _ => id⟩, n, hi, rfl, rfl, hst⟩
  refine deref_bind hi ?_
  cases type with
  | finWait2 => exact absurd rfl ht.1
  | timewait => exact absurd rfl ht.2
  | syn | rexmit | persist | keepalive =>
    dsimp only
    split
    · exact tcpTimeout_sat hbad h hi hst
    · exact Sat.ok hsame

theorem put_tick (p : Node) (h : Inv A x s) (hbad : ∀ e, bad e → Misuse e) (hi : s.pcb i = some n)
    (hst : n.conn.state ≠ .listen)
    (hacc : p.acclist = n.acclist) : Sat bad (tcpPcbPut ((s.set i p).pcbs + 1) (s.set i p) i) (Dropped s [i]) :=
  (put_leaf hbad _ set_same (hacc.trans (h.acclist_nil hi hst))).mono fun _ hu => hu.set (mem_singleton.2 rfl)

theorem tickFinWait2_sat (hbad : ∀ e, bad e → Misuse e) (h : Inv A none s)
    (hi : s.pcb i = some n)
    (hst : n.conn.state ≠ .listen) : Sat bad (tcpTick expires i s .finWait2) fun t =>
      (n.finWait2 = 1 → t.pcb i = none) ∧
      (n.finWait2 ≠ 1 → Round A [i] s t ∧ ∃ m, t.pcb i = some m ∧ m.conn.state ≠ .listen) := by
  refine deref_bind hi ?_
  dsimp only
  split
  · rename_i hone
    refine (put_tick { n with finWait2 := n.finWait2 - 1 } h hbad hi hst rfl).mono fun t ht => ⟨fun _ => ?_, fun hne => absurd hone hne⟩
    rw [ht.pcb, if_pos (mem_singleton.2 rfl)]
  · rename_i hne
    refine Sat.ok ⟨fun e => absurd e hne, fun _ => ⟨Inv.round ?_, _, set_same, hst⟩⟩
    refine h.tick hi hst rfl rfl (fun hq => ⟨?_, hq.2⟩) (fun hp => ?_) id
    · show n.finWait2 - 1 = 0
      rw [hq.1]
    · show 0 < n.finWait2 - 1
      omega

theorem tickTimewait_sat (hbad : ∀ e, bad e → Misuse e) (h : Inv A none s)
    (hi : s.pcb i = some n)
    (hst : n.conn.state ≠ .listen) : Sat bad (tcpTick expires i s .timewait) (Round A [i] s) := by
  refine deref_bind hi ?_
  dsimp only
  split
  · rename_i hone
    refine (put_tick { n with timewait := n.timewait - 1 } h hbad hi hst rfl).mono fun t ht => ?_
    have hbusy := h.busy hi fun hq => absurd (hone.symm.trans hq.2) (by decide)
    refine ⟨h.drop (n := n) (.inl rfl) hi hbusy.1 hbusy.2 ?_, fun j hj => ?_, fun w j hj => ((ht.mem h.nodup w j).1 hj).1⟩
    · rw [h.acclist_nil hi hst]; exact ht
    · rw [ht.pcb, if_neg hj]
  · rename_i hne
    refine Sat.ok (Inv.round ?_)
    refine h.tick hi hst rfl rfl (fun hq => ⟨hq.1, ?_⟩) id fun hp => ?_
    · show n.timewait - 1 = 0
      rw [hq.2]
    · show 0 < n.timewait - 1
      omega

theorem slowPcb_sat {expires : Nat → TcpTimer → Bool} (hbad : ∀ e, bad e → Misuse e) (h : Inv A none s)
    (hi : s.pcb i = some n)
    (hst : n.conn.state ≠ .listen) (hexp : n.finWait2 = 1 → ¬ bad .freed) : Sat bad (slowPcb expires s i)
    (Round A [i] s) := by
  refine deref_bind hi ?_
  have h0 : Ticked A s i n (s.set i { n with conn := Tcp.tcpSlowtimo n.conn }) :=
    ⟨(h.conn (c := Tcp.tcpSlowtimo n.conn) hi rfl).round, _, set_same, rfl, rfl, hst⟩
  generalize s.set i { n with conn := Tcp.tcpSlowtimo n.conn } = u at h0
  have hnext : ∀ (u : Sys) (type : TcpTimer), type ≠ .finWait2 ∧ type ≠ .timewait → Ticked A s i n u →
      Sat bad (tcpTick (expires i) i u type) (Ticked A s i n) := by
    intro u type ht hu
    obtain ⟨m, hm, e1, e2, hm'⟩ := hu.node
    refine (tick_sat hbad hu.round.inv hm hm' ht).mono fun v hv => ⟨hu.round.trans hv.round, ?_⟩
    obtain ⟨m', h1, h2, h3, h4⟩ := hv.node
    exact ⟨m', h1, h2.trans e1, h3.trans e2, h4⟩
  simp only [foldlM_cons, foldlM_nil]
  refine (hnext u .syn (by decide) h0).bind fun u1 _ h1 => (hnext u1 .rexmit (by decide) h1).bind fun u2 _ h2 =>
    (hnext u2 .persist (by decide) h2).bind fun u3 _ h3 => (hnext u3 .keepalive (by decide) h3).bind fun u4 _ h4 => ?_
  obtain ⟨m, hm, e1, -, hm'⟩ := h4.node
  refine (tickFinWait2_sat hbad h4.round.inv hm hm').bind fun v _ hv => ?_
  by_cases hone : n.finWait2 = 1
  · -- the loop reads the next timer of a pcb that is gone
    have hgone := hv.1 (e1.trans hone)
    have hfault : tcpTick (expires i) i v .timewait = .error .freed := by
      unfold tcpTick Sys.deref
      rw [hgone]
      rfl
    rw [hfault]
    exact Sat.error (hexp hone)
  · obtain ⟨hr, m', hm1, hm2⟩ := hv.2 fun e => hone (e1.symm.trans e)
    refine (tickTimewait_sat hbad hr.inv hm1 hm2).bind fun y _ hy => Sat.ok ?_
    exact h4.round.trans (hr.trans hy)

/-- The timer that frees a pcb in `FIN_WAIT2` runs out in the next round. -/
def Expiring (s : Sys) : Prop := ∃ i n, s.pcb i = some n ∧ n.finWait2 = 1

theorem tcpSlowtimo_sat {expires : Nat → TcpTimer → Bool} (h : Inv A none s) (hbad : ∀ e, bad e → Misuse e)
    (hexp : Expiring s → ¬ bad .freed) : Sat bad (tcpSlowtimo s expires) (Inv A none) := by
  have hf : ∀ t i n, Inv A none t → t.pcb i = some n → (n.finWait2 = 1 → ¬ bad .freed) → n.conn.state ≠ .listen →
      Sat bad (slowPcb expires t i) (Round A [i] t) := fun _ _ _ h hi hok hst => slowPcb_sat hbad h hi hst hok
  refine (round_sat hf _ s h (h.nodup _) fun j hj => ?_).bind fun t _ ht => ?_
  · obtain ⟨n, h1, h2⟩ := h.on hj nofun
    exact ⟨n, h1, fun e => hexp ⟨j, n, h1, e⟩, h2⟩
  · refine (round_sat hf _ t ht.inv (ht.inv.nodup _) fun j hj => ?_).mono fun u hu => hu.inv
    obtain ⟨n, h1, h2⟩ := ht.inv.on hj nofun
    refine ⟨n, h1, fun e => hexp ⟨j, n, ?_, e⟩, h2⟩
    -- the first loop was over another list
    refine (ht.pcb j fun ha => ?_).symm.trans h1
    exact absurd (h.one j _ _ ha (ht.list _ j hj)) nofun

end Onix.Own
