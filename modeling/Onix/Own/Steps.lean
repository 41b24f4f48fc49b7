/-
What each step does to the pcbs in use: none follows a pointer to a freed pcb, and each keeps the
invariant. A step that only works on the connections of pcbs changes no hands; `tcp_pcb_put` takes the
pcb and its `acclist` out of use.
-/
import Onix.Own.Invariant

namespace Onix.Own

open List Function Onix.Lib
open Onix.Tcp (Pcb Segment Seq Flags TcpState TcpTimer SockOpt Iovec)

def Misuse (e : Fault) : Prop := e = .freed ∨ e = .deep

variable {A : Prop} {s t : Sys} {i j k : Nat} {n p m : Node} {w : Where} {bad : Fault → Prop}

theorem conn_sat {α : Type} {r : Except Tcp.Fault α} (hbad : ∀ e, bad e → Misuse e) : Sat bad
    (conn r) fun a => r = .ok a := by
  cases r with
  | ok a => exact Sat.ok rfl
  | error e =>
    refine Sat.error fun h => ?_
    rcases hbad _ h with h | h <;> cases h

theorem deref_ok (hi : s.pcb i = some n) : s.deref i = .ok n := by
  unfold Sys.deref
  rw [hi]

theorem deref_bind {α : Type} {f : Node → Except Fault α} {Q : α → Prop} (hi : s.pcb i = some n)
    (hf : Sat bad (f n) Q) :
    Sat bad (s.deref i >>= f) Q := by
  rw [deref_ok hi]; exact hf

/-! ## `tcp_pcb_put` -/

theorem Dropped.nil (s : Sys) : Dropped s [] s :=
  ⟨rfl, rfl, fun _ => (if_neg (not_mem_nil)).symm, fun _ h => h, fun _ _ _ => (and_iff_left (not_mem_nil)).symm⟩

variable {l : List Nat}

theorem Dropped.trans {u : Sys} {l' : List Nat} (h1 : Dropped s l t) (h2 : Dropped t l' u) : Dropped s
    (l ++ l') u := by
  refine ⟨h2.sock.trans h1.sock, h2.waiting.trans h1.waiting, fun j => ?_, fun w h => h2.nodup w (h1.nodup w h), fun hn w j => ?_⟩
  · rw [h2.pcb, h1.pcb]
    by_cases hj : j ∈ l <;> by_cases hj' : j ∈ l' <;> simp [hj, hj']
  · rw [h2.mem (fun w => h1.nodup w (hn w)), h1.mem hn, mem_append, not_or, and_assoc]

theorem Dropped.congr {l' : List Nat} (h : Dropped s l t) (hl : ∀ j, j ∈ l ↔ j ∈ l') : Dropped s l' t :=
  ⟨h.sock, h.waiting, fun j => by rw [h.pcb]; simp only [hl], h.nodup, fun hn w j => by rw [h.mem hn, hl]⟩

theorem dropped_one (s : Sys) (i : Nat) : Dropped s [i] ((s.unlink i).kfree i) := by
  refine ⟨rfl, rfl, fun j => ?_, fun w h => h.erase i, fun hn w j => ?_⟩
  · show update s.pcb i none j = _
    by_cases hj : j = i
    · subst hj
      rw [update_self, if_pos (mem_singleton.2 rfl)]
    · rw [update_of_ne hj, if_neg fun h => hj (mem_singleton.1 h)]
  · show j ∈ (s.list w).erase i ↔ _
    rw [(hn w).mem_erase_iff, mem_singleton, and_comm]

theorem Dropped.set (h : Dropped (s.set i n) l t) (hi : i ∈ l) : Dropped s l t := by
  refine ⟨h.sock, h.waiting, fun j => ?_, h.nodup, h.mem⟩
  rw [h.pcb]
  by_cases hj : j ∈ l
  · rw [if_pos hj, if_pos hj]
  · rw [if_neg hj, if_neg hj, set_ne]
    rintro rfl
    exact hj hi

theorem put_leaf (hbad : ∀ e, bad e → Misuse e) (fuel : Nat) (hi : s.pcb i = some n) (hn : n.acclist = []) :
    Sat bad (tcpPcbPut (fuel + 1) s i) (Dropped s [i]) := by
  refine deref_bind hi ((conn_sat hbad).bind fun c _ _ => ?_)
  rw [hn]
  exact (dropped_one (s.set i { n with conn := c, acclist := [] }) i).set (mem_singleton.2 rfl)

theorem put_all (hbad : ∀ e, bad e → Misuse e) (fuel : Nat) : ∀ (l : List Nat) (s : Sys), l.Nodup →
    (∀ j ∈ l, ∃ m, s.pcb j = some m ∧ m.acclist = []) → Sat bad (l.foldlM (tcpPcbPut (fuel + 1)) s) (Dropped s l)
  | [], s, _, _ => Dropped.nil s
  | j :: l, s, hnd, hl => by
    obtain ⟨hj, hnd⟩ := nodup_cons.1 hnd
    obtain ⟨m, hm, hnil⟩ := hl j (.head _)
    refine (put_leaf hbad fuel hm hnil).bind fun t _ ht => ?_
    refine (put_all hbad fuel l t hnd fun a ha => ?_).mono fun u hu => ht.trans hu
    obtain ⟨b, hb, hb'⟩ := hl a (.tail _ ha)
    refine ⟨b, ?_, hb'⟩
    rw [ht.pcb, if_neg]
    · exact hb
    · intro h
      rw [mem_singleton] at h
      exact hj (h ▸ ha)

variable {x : Option Nat}

theorem pcbs_pos (h : Inv A x s) (hi : s.pcb i = some n) : ∃ fuel, s.pcbs = fuel + 1 := by
  obtain ⟨w, hw⟩ := (h.listed i).1 (by rw [hi]; exact nofun)
  have := length_pos_of_mem hw
  refine ⟨s.pcbs - 1, ?_⟩
  unfold Sys.pcbs
  cases w <;> omega

theorem put_acclist (h : Inv A x s) (hbad : ∀ e, bad e → Misuse e) (hi : s.pcb i = some n) :
    Sat bad (n.acclist.foldlM (tcpPcbPut s.pcbs) (s.set i p)) (Dropped (s.set i p) n.acclist) := by
  obtain ⟨fuel, hfuel⟩ := pcbs_pos h hi
  rw [hfuel]
  refine put_all hbad fuel _ _ (h.accNodup i n hi) fun j hj => ?_
  obtain ⟨-, ⟨m, hm, hst, -⟩, -⟩ := h.acc i n j hi hj
  refine ⟨m, (set_ne (h.acc_ne hi hj)).trans hm, h.acclist_nil hm fun e => ?_⟩
  rw [e] at hst; exact absurd hst (by decide)

theorem put_sat (h : Inv A x s) (hbad : ∀ e, bad e → Misuse e) (hi : s.pcb i = some n) :
    Sat bad (tcpPcbPut (s.pcbs + 1) s i) (Dropped s (i :: n.acclist)) := by
  refine deref_bind hi ((conn_sat hbad).bind fun c _ _ => ?_)
  refine (put_acclist h hbad hi).bind fun t _ ht => ?_
  refine Sat.ok (((ht.trans (dropped_one t i)).congr fun j => ?_).set (.head _))
  rw [mem_append, mem_singleton, mem_cons, or_comm]

theorem Inv.put (h : Inv A x s) (hx : x = none ∨ x = some i) (hbad : ∀ e, bad e → Misuse e)
    (hi : s.pcb i = some n)
    (hheld : ¬ s.Held i) (hqueued : ¬ s.Queued i) : Sat bad (tcpPcbPut (s.pcbs + 1) s i) (Inv A none) :=
  (put_sat h hbad hi).mono fun _ ht => h.drop hx hi hheld hqueued ht

variable {c : Pcb}

theorem purge_sat (hi : s.pcb i = some n) (hn : n.acclist = []) :
    Sat bad (tcpPcbPurge s i c) fun t => t = s.set i { n with conn := c } := by
  refine deref_bind hi ?_
  rw [hn]
  refine Sat.ok ?_
  rw [show ({ n with conn := c, acclist := [] } : Node) = { n with conn := c } from by rw [← hn]]

/-! ## An incoming segment -/

theorem Inv.alone (h : Inv A x s) (hi : s.pcb i = some n) (hst : closing n.conn.state) :
    ¬ s.Held i ∧ ¬ s.Queued i := by
  constructor
  · rintro ⟨k, hk⟩
    obtain ⟨m, hm, hs, -⟩ := h.sock k i hk
    obtain rfl := Option.some.inj (hi.symm.trans hm)
    rcases hst with e | e | e | e | e <;> rw [e] at hs <;> exact absurd hs (by decide)
  · rintro ⟨a, b, ha, hb⟩
    obtain ⟨-, ⟨m, hm, hs, -⟩, -⟩ := h.acc a b i ha hb
    obtain rfl := Option.some.inj (hi.symm.trans hm)
    rcases hst with e | e | e | e | e <;> rw [e] at hs <;> exact absurd hs (by decide)

theorem Inv.close {l : Where → List Nat} (h : Inv A none s) (hi : s.pcb i = some n) (hst : closing n.conn.state)
    (hst' : closing p.conn.state ∨ p.conn.state = .closed) (hacc : p.acclist = n.acclist) (hl : Relinked s.list i w l) (hw : w ≠ .listen ∧ w ≠ .create)
    (h2 : p.conn.state = .finWait2 → 0 < p.finWait2) (ht : p.conn.state = .timeWait → 0 < p.timewait ∧ w = .timewait) :
    Inv A none { s.set i p with list := l } := by
  obtain ⟨hheld, hqueued⟩ := h.alone hi hst
  have hne : n.conn.state ≠ .listen ∧ p.conn.state ≠ .listen := by
    constructor
    · rcases hst with e | e | e | e | e <;> rw [e] <;> decide
    · rcases hst' with (e | e | e | e | e) | e <;> rw [e] <;> decide
  exact h.update hi ⟨hacc, fun hh => absurd hh hheld, fun hq => absurd hq hqueued,
    fun h1 h2 h3 => ⟨(h.orphan i n hi h1 h2 h3).1, hst'⟩, fun e => absurd e hne.1,
    iff_of_false hw.1 hne.2, h2, ht, fun e => absurd e hw.2⟩ hl

theorem Inv.here (h : Inv A x s) (hi : s.pcb i = some n) (hst : n.conn.state ≠ .listen) :
    ∃ w, w ≠ .listen ∧ (w = .create → n.conn.state = .closed) ∧ Relinked s.list i w s.list := by
  obtain ⟨w, hw⟩ := h.whereabouts hi
  refine ⟨w, ?_, ?_, hw⟩
  · rintro rfl
    exact hst ((h.listening i n hi).1 ((hw.mem _ _).2 (.inr ⟨rfl, rfl⟩)))
  · rintro rfl
    exact h.created i n hi ((hw.mem _ _).2 (.inr ⟨rfl, rfl⟩))

theorem insertTimewait_perm (s : Sys) (i d : Nat) : ∀ l, (insertTimewait s i d l).Perm (i :: l)
  | [] => .refl _
  | j :: l => by
    unfold insertTimewait
    split
    · exact .refl _
    · exact ((insertTimewait_perm s i d l).cons j).trans (.swap i j l)

theorem timewait_sat (h : Inv A none s) (hi : s.pcb i = some n) (hst : closing n.conn.state)
    (hc : c.state = .timeWait) :
    Sat bad (tcpPcbTimewait s i c) (Inv A none) := by
  have hnil := h.acclist_nil hi (by rcases hst with e | e | e | e | e <;> rw [e] <;> decide)
  refine (purge_sat hi hnil).bind fun t _ ht => ?_
  subst ht
  refine deref_bind set_same (Sat.ok ?_)
  generalize hl : insertTimewait _ i tcpToTimewait _ = l
  have hperm : l.Perm (i :: (s.list .timewait).erase i) := hl ▸ insertTimewait_perm ..
  have hrel : Relinked s.list i .timewait (update (fun w => (s.list w).erase i) .timewait l) := by
    constructor
    · intro v
      by_cases hv : v = .timewait
      · subst hv
        rw [update_self, hperm.nodup_iff]
        exact nodup_cons.2 ⟨(h.nodup _).not_mem_erase, (h.nodup _).erase i⟩
      · rw [update_of_ne hv]
        exact (h.nodup v).erase i
    · intro v j
      by_cases hv : v = .timewait
      · subst hv
        rw [update_self, hperm.mem_iff, mem_cons, (h.nodup _).mem_erase_iff, and_iff_left rfl, or_comm]
      · rw [update_of_ne hv, (h.nodup v).mem_erase_iff]
        exact ⟨.inl, fun e => e.elim id fun e => absurd e.2 hv⟩
  have hset : ∀ u : Sys, ∀ n1 n2 : Node, ((u.set i n1).unlink i).set i n2 = (u.unlink i).set i n2 := by
    intro u n1 n2
    unfold Sys.set Sys.unlink
    rw [update_idem]
  rw [hset]
  exact h.close (p := { n with conn := c, timewait := tcpToTimewait }) hi hst (.inl (by rw [hc]; decide)) rfl hrel ⟨nofun, nofun⟩
    (fun e => absurd (hc.symm.trans e) (by decide)) fun _ => ⟨Nat.zero_lt_succ _, rfl⟩

variable {fin : Bool}

theorem next_timeWait {st : TcpState} (h : .timeWait ∈ st.next fin) : closing st := by
  revert h
  cases st <;> cases fin <;> decide

theorem next_finWait2 {st : TcpState} (h : .finWait2 ∈ st.next fin) : st = .finWait1 ∨ st = .finWait2 := by
  revert h
  cases st <;> cases fin <;> decide

theorem settle_sat (h : Inv A none s) (hbad : ∀ e, bad e → Misuse e) (hi : s.pcb i = some n)
    (hn : c.state ∈ n.conn.state.next fin) : Sat bad (settle s i n.conn.state c) (Inv A none) := by
  refine deref_bind hi ?_
  split
  · rename_i hb hc
    have hst : closing n.conn.state := by rw [hb]; decide
    obtain ⟨hheld, hqueued⟩ := h.alone hi hst
    have hk : Inv A none (s.set i { n with conn := c }) := h.keep hi ⟨rfl, ⟨rfl, rfl⟩, .inr (.inr ⟨fin, hn⟩), fun e => by
      rcases e with e | e <;> exact absurd (hc.symm.trans e) (by decide)⟩
    exact hk.put (.inl rfl) hbad set_same hheld fun hq =>
      hqueued (queued_set (p := { n with conn := c }) (fun hj => ⟨i, n, hi, hj⟩) hq)
  · rename_i hb hc
    have hst : closing n.conn.state := by rw [hb]; decide
    obtain ⟨w, hw, hw', hl⟩ := h.here hi (by rw [hb]; decide)
    have hcreate : w ≠ .create := fun e => absurd (hb.symm.trans (hw' e)) nofun
    exact h.close (p := { n with conn := c, finWait2 := tcpToFinWait2 }) hi hst (.inl (.inr (.inl hc))) rfl hl ⟨hw, hcreate⟩
      (fun _ => Nat.zero_lt_succ _) fun e => absurd (hc.symm.trans e) (by decide)
  · rename_i hb hc
    exact h.conn hi (hc.trans hb.symm)
  · rename_i hc hne
    exact timewait_sat h hi (@next_timeWait fin _ (hc ▸ hn)) hc
  · rename_i h1 h2 h3 h4
    refine h.keep hi ⟨rfl, ⟨rfl, rfl⟩, .inr (.inr ⟨fin, hn⟩), fun e => ?_⟩
    rcases e with e | e
    · rw [e] at hn
      rcases next_finWait2 hn with hb | hb
      · exact absurd e (h3 hb)
      · exact e.trans hb.symm
    · exact absurd e h1

variable {g : Segment}

theorem tcpReceive_state {c' : Pcb} (h : Tcp.tcpReceive c g = .ok c') : c'.state = c.state := by
  obtain ⟨t, ht, rfl⟩ := Tcp.tcpReceive_recv h
  split
  · exact (Tcp.tcpUpdateBuf_state t g).trans ht.state
  · exact ht.state

variable {isn : Seq}

theorem spawn_state {mss : Nat} {d : Pcb} (h : Tcp.tcpHandleListen isn mss g = .ok d) :
    d.state = .synRcvd := by
  obtain ⟨t, ht, h⟩ := bind_ok h
  exact (Tcp.tcpOutput_recv h).state.trans (Tcp.tcpEnqueue_recv ht).state

theorem reset_state {d : Pcb} (hc : ¬ c.state.val ≤ TcpState.synSent.val) (h : Tcp.tcpHandleReset c = .ok d) :
    d.state = .closed := by
  unfold Tcp.tcpHandleReset at h
  rw [if_neg hc] at h
  obtain ⟨t, -, h⟩ := bind_ok h
  cases h; rfl

theorem listen_sat {new : Nat} (h : Inv A none s) (hbad : ∀ e, bad e → Misuse e)
    (hi : s.pcb i = some n) (hst : n.conn.state = .listen) (hc : c.state = .listen) (hnew : s.pcb new = none) :
    Sat bad (tcpHandleListen s i c g new isn) (Inv A none) := by
  have hk := h.conn hi (hc.trans hst.symm)
  refine deref_bind hi ?_
  split
  · exact Sat.ok hk
  split
  · exact Sat.ok hk
  refine (conn_sat hbad).bind fun d hd hd' => Sat.ok ?_
  have hne : new ≠ i := by
    rintro rfl
    rw [hi] at hnew; cases hnew
  have hfresh := spawn_state hd'
  have ha := h.alloc (m := fresh d (some i)) (w := .active) hnew rfl (.inr hfresh) nofun nofun
  obtain ⟨-, hheld, hqueued⟩ := h.absent hnew
  have hi' : (s.set new (fresh d (some i))).pcb i = some n := (set_ne hne.symm).trans hi
  have hqueued' : ¬ Sys.Queued ((s.set new (fresh d (some i))).push .active new) new :=
    fun hq => hqueued (queued_set (p := fresh d (some i)) (fun hj => absurd hj not_mem_nil) hq)
  have hr := ha.requeue (y := none) (p := { n with conn := c, acclist := new :: n.acclist, backcnt := n.backcnt + 1 }) hi' {
    state := ⟨hst, hc⟩
    timers := ⟨rfl, rfl⟩
    nodup := nodup_cons.2 ⟨fun hm => hqueued ⟨i, n, hi, hm⟩, h.accNodup i n hi⟩
    new := fun a ha => by
      rcases mem_cons.1 ha with rfl | ha
      · exact .inr ⟨⟨_, set_same, .inr (.inl hfresh), rfl, rfl⟩, hheld, hqueued'⟩
      · exact .inl ha
    old := fun a ha hn => by
      rcases ha with ha | ha
      · exact absurd (.tail _ ha) hn
      · exact absurd (Option.some.inj ha ▸ .head _) hn }
  have hcomm : ∀ (u : Sys) (n1 n2 : Node), ((u.set new n1).push .active new).set i n2 = ((u.set i n2).set new n1).push .active new := by
    intro u n1 n2
    unfold Sys.set Sys.push
    rw [update_comm hne]
  have hidem : ∀ n1 n2, (s.set i n1).set i n2 = s.set i n2 := by
    intro n1 n2
    unfold Sys.set
    rw [update_idem]
  rw [hcomm] at hr
  rw [hidem]
  exact hr

theorem input_sat {new : Nat} (h : Inv A none s) (hbad : ∀ e, bad e → Misuse e)
    (hi : s.pcb i = some n)
    (hnew : s.pcb new = none) : Sat bad (tcpInput s i g new isn) (Inv A none) := by
  refine deref_bind hi ?_
  split
  · exact Sat.ok h
  split
  · exact Sat.ok h
  split
  · unfold tcpHandleReset
    split
    · exact Sat.ok h
    rename_i hlt
    refine (conn_sat hbad).bind fun d _ hd => ?_
    have hst : n.conn.state ≠ .listen := fun e => hlt (by rw [e]; decide)
    have hd' : d.state = .closed := reset_state hlt hd
    refine (purge_sat hi (h.acclist_nil hi hst)).mono fun t ht => ?_
    subst ht
    exact h.keep hi ⟨rfl, ⟨rfl, rfl⟩, .inr (.inl ⟨hd', hst⟩), fun e => by
      rcases e with e | e <;> exact absurd (hd'.symm.trans e) (by decide)⟩
  · have hopt := Tcp.tcpParseOption_recv g.options n.conn
    dsimp only at hopt ⊢
    split
    · exact Sat.ok (h.conn hi hopt.state)
    refine (conn_sat hbad).bind fun d _ hd => ?_
    have hd' : d.state = n.conn.state := by
      split at hd
      · exact (tcpReceive_state hd).trans hopt.state
      · cases hd; exact hopt.state
    split
    · rename_i hl
      exact listen_sat h hbad hi (hd'.symm.trans hl) hl hnew
    · refine (conn_sat hbad).bind fun f _ hf => ?_
      have hnext := (Tcp.processState_recv hf).next
      rw [hd'] at hnext ⊢
      exact settle_sat h hbad hi hnext

end Onix.Own
