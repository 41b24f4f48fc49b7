/-
Every pcb in use is on one list and in the hands of one socket, of the `acclist` of one listener, or of
nobody; who has it tells the states it may be in. The invariant is kept by a change of one pcb that
stays in the hands it is in, by a new pcb, by a pcb that goes from the `acclist` to a socket, and by
freeing a pcb that nobody has.
-/
import Onix.Own.Model
import Onix.Tcp.Process

namespace Onix.Own

open Option List Onix.Lib
open Onix.Tcp (Pcb Segment Seq Flags TcpState TcpTimer SockOpt Iovec)

/-! ## Who has a pcb -/

def ofSock (st : TcpState) : Prop := st = .closed ∨ st = .listen ∨ st = .synSent ∨ st = .established ∨ st = .closeWait

def ofAcc (st : TcpState) : Prop := st = .closed ∨ st = .synRcvd ∨ st = .established ∨ st = .closeWait

def closing (st : TcpState) : Prop := st = .finWait1 ∨ st = .finWait2 ∨ st = .closing ∨ st = .lastAck ∨ st = .timeWait

instance (st : TcpState) : Decidable (ofSock st) := inferInstanceAs (Decidable (_ ∨ _))
instance (st : TcpState) : Decidable (ofAcc st) := inferInstanceAs (Decidable (_ ∨ _))
instance (st : TcpState) : Decidable (closing st) := inferInstanceAs (Decidable (_ ∨ _))

def Node.quiet (n : Node) : Prop := n.finWait2 = 0 ∧ n.timewait = 0

namespace Sys

def Held (s : Sys) (i : Nat) : Prop := ∃ k, s.sock k = some i

def Queued (s : Sys) (i : Nat) : Prop := ∃ l n, s.pcb l = some n ∧ i ∈ n.acclist

end Sys

/-- The pcbs in use. `A`: there may be pcbs in nobody's hands; `x`: one that is about to be freed. -/
structure Inv (A : Prop) (x : Option Nat) (s : Sys) : Prop where
  nodup : ∀ w, (s.list w).Nodup
  one : ∀ i v w, i ∈ s.list v → i ∈ s.list w → v = w
  listed : ∀ i, s.pcb i ≠ none ↔ ∃ w, i ∈ s.list w
  sock : ∀ k i, s.sock k = some i → ∃ n, s.pcb i = some n ∧ ofSock n.conn.state ∧ n.quiet
  sockOne : ∀ k l i, s.sock k = some i → s.sock l = some i → k = l
  acc : ∀ i n j, s.pcb i = some n → j ∈ n.acclist →
    n.conn.state = .listen ∧ (∃ m, s.pcb j = some m ∧ ofAcc m.conn.state ∧ m.quiet) ∧ ¬ s.Held j
  accNodup : ∀ i n, s.pcb i = some n → n.acclist.Nodup
  accOne : ∀ i l n m j, s.pcb i = some n → s.pcb l = some m → j ∈ n.acclist → j ∈ m.acclist → i = l
  listening : ∀ i n, s.pcb i = some n → (i ∈ s.list .listen ↔ n.conn.state = .listen)
  waiting : ∀ y ∈ s.waiting, s.sock y.1 = some y.2
  orphan : ∀ i n, s.pcb i = some n → ¬ s.Held i → ¬ s.Queued i → x ≠ some i →
    A ∧ (closing n.conn.state ∨ n.conn.state = .closed)
  timed : ∀ i n, s.pcb i = some n → (n.conn.state = .finWait2 → 0 < n.finWait2) ∧
    (n.conn.state = .timeWait → 0 < n.timewait ∧ i ∈ s.list .timewait)
  created : ∀ i n, s.pcb i = some n → i ∈ s.list .create → n.conn.state = .closed

variable {A : Prop} {x : Option Nat} {s t : Sys} {i j k : Nat} {n p m : Node} {w : Where}

@[simp] theorem set_same : (s.set i n).pcb i = some n := Function.update_self ..

theorem set_ne (h : j ≠ i) : (s.set i n).pcb j = s.pcb j := Function.update_of_ne h ..

theorem queued_set (hj : j ∈ p.acclist → s.Queued j) (h : (s.set i p).Queued j) : s.Queued j := by
  obtain ⟨a, b, ha, hb⟩ := h
  by_cases hai : a = i
  · subst hai
    obtain rfl := some.inj (set_same.symm.trans ha)
    exact hj hb
  · exact ⟨a, b, (set_ne hai).symm.trans ha, hb⟩

theorem Inv.acc_ne (h : Inv A x s) (hi : s.pcb i = some n) (hj : j ∈ n.acclist) : j ≠ i := by
  rintro rfl
  obtain ⟨h1, ⟨m, h2, h3, -⟩, -⟩ := h.acc j n j hi hj
  obtain rfl := some.inj (hi.symm.trans h2)
  rw [h1] at h3
  revert h3; decide

theorem Inv.acclist_nil (h : Inv A x s) (hi : s.pcb i = some n) (hst : n.conn.state ≠ .listen) : n.acclist = [] := by
  cases hl : n.acclist with
  | nil => rfl
  | cons j l => exact absurd (h.acc i n j hi (hl ▸ .head _)).1 hst

/-- The lists with `i` on `w` and the others where they were. -/
structure Relinked (l : Where → List Nat) (i : Nat) (w : Where) (l' : Where → List Nat) : Prop where
  nodup : ∀ v, (l' v).Nodup
  mem : ∀ v j, j ∈ l' v ↔ (j ≠ i ∧ j ∈ l v) ∨ (j = i ∧ v = w)

theorem Inv.whereabouts (h : Inv A x s) (hi : s.pcb i = some n) : ∃ w, Relinked s.list i w s.list := by
  obtain ⟨w, hw⟩ := (h.listed i).1 (by rw [hi]; exact nofun)
  refine ⟨w, h.nodup, fun v j => ⟨fun hj => ?_, ?_⟩⟩
  · by_cases hji : j = i
    · subst hji; exact .inr ⟨rfl, h.one j v w hj hw⟩
    · exact .inl ⟨hji, hj⟩
  · rintro (⟨-, hj⟩ | ⟨rfl, rfl⟩)
    · exact hj
    · exact hw

/-- What a change of the pcb `i` has to meet: it depends on who has it. -/
structure Fits (A : Prop) (x : Option Nat) (s : Sys) (i : Nat) (n p : Node) (w : Where) : Prop where
  acclist : p.acclist = n.acclist
  held : s.Held i → ofSock p.conn.state ∧ p.quiet
  queued : s.Queued i → ofAcc p.conn.state ∧ p.quiet
  orphan : ¬ s.Held i → ¬ s.Queued i → x ≠ some i → A ∧ (closing p.conn.state ∨ p.conn.state = .closed)
  listens : n.conn.state = .listen → p.conn.state = .listen
  listening : w = .listen ↔ p.conn.state = .listen
  finWait2 : p.conn.state = .finWait2 → 0 < p.finWait2
  timewait : p.conn.state = .timeWait → 0 < p.timewait ∧ w = .timewait
  created : w = .create → p.conn.state = .closed

theorem Inv.update {l : Where → List Nat} (h : Inv A x s) (hi : s.pcb i = some n) (hf : Fits A x s i n p w)
    (hl : Relinked s.list i w l) : Inv A x { s.set i p with list := l } := by
  have hpcb : ∀ j m, (s.set i p).pcb j = some m → (j = i ∧ m = p) ∨ (j ≠ i ∧ s.pcb j = some m) := by
    intro j m hj
    by_cases hji : j = i
    · subst hji
      rw [set_same] at hj
      exact .inl ⟨rfl, (some.inj hj).symm⟩
    · rw [set_ne hji] at hj
      exact .inr ⟨hji, hj⟩
  -- every `acclist` is as it was
  have hacc : ∀ j m, (s.set i p).pcb j = some m → ∃ m0, s.pcb j = some m0 ∧ m.acclist = m0.acclist ∧
      (m0.conn.state = .listen → m.conn.state = .listen) := by
    intro j m hj
    rcases hpcb j m hj with ⟨rfl, rfl⟩ | ⟨-, hj⟩
    · exact ⟨n, hi, hf.acclist, hf.listens⟩
    · exact ⟨m, hj, rfl, id⟩
  have hqueued : ∀ j, s.Queued j → Sys.Queued { s.set i p with list := l } j := by
    rintro j ⟨a, b, ha, hj⟩
    by_cases hai : a = i
    · subst hai
      obtain rfl := some.inj (hi.symm.trans ha)
      exact ⟨a, p, set_same, hf.acclist ▸ hj⟩
    · exact ⟨a, b, (set_ne hai).trans ha, hj⟩
  refine ⟨hl.nodup, ?_, ?_, ?_, h.sockOne, ?_, ?_, ?_, ?_, h.waiting, ?_, ?_, ?_⟩
  · intro j v v' hv hv'
    rcases (hl.mem v j).1 hv with ⟨h1, h2⟩ | ⟨rfl, rfl⟩ <;> rcases (hl.mem v' j).1 hv' with ⟨h3, h4⟩ | ⟨h3, rfl⟩
    · exact h.one j v v' h2 h4
    · exact absurd h3 h1
    · exact absurd rfl h3
    · rfl
  · intro j
    by_cases hji : j = i
    · subst hji
      rw [set_same]
      exact iff_of_true nofun ⟨w, (hl.mem w j).2 (.inr ⟨rfl, rfl⟩)⟩
    · rw [set_ne hji, h.listed j]
      refine exists_congr fun v => ?_
      rw [hl.mem v j]
      exact ⟨fun hj => .inl ⟨hji, hj⟩, fun hj => hj.elim And.right fun hj => absurd hj.1 hji⟩
  · intro k j hk
    obtain ⟨m, h1, h2, h3⟩ := h.sock k j hk
    by_cases hji : j = i
    · subst hji
      exact ⟨p, set_same, hf.held ⟨k, hk⟩⟩
    · exact ⟨m, (set_ne hji).trans h1, h2, h3⟩
  · intro a m j hm hj
    obtain ⟨m0, h1, h2, h3⟩ := hacc a m hm
    obtain ⟨h4, ⟨b, h5, h6, h7⟩, h8⟩ := h.acc a m0 j h1 (h2 ▸ hj)
    refine ⟨h3 h4, ?_, h8⟩
    by_cases hji : j = i
    · subst hji
      exact ⟨p, set_same, hf.queued ⟨a, m0, h1, h2 ▸ hj⟩⟩
    · exact ⟨b, (set_ne hji).trans h5, h6, h7⟩
  · intro a m hm
    obtain ⟨m0, h1, h2, -⟩ := hacc a m hm
    rw [h2]; exact h.accNodup a m0 h1
  · intro a b m m' j hm hm' hj hj'
    obtain ⟨m0, h1, h2, -⟩ := hacc a m hm
    obtain ⟨m1, h3, h4, -⟩ := hacc b m' hm'
    exact h.accOne a b m0 m1 j h1 h3 (h2 ▸ hj) (h4 ▸ hj')
  · intro j m hm
    rw [hl.mem .listen j]
    rcases hpcb j m hm with ⟨rfl, rfl⟩ | ⟨hji, hj⟩
    · rw [← hf.listening]
      exact ⟨fun hj => hj.elim (fun hj => absurd rfl hj.1) fun hj => hj.2.symm, fun hj => .inr ⟨rfl, hj.symm⟩⟩
    · rw [← h.listening j m hj]
      exact ⟨fun hj => hj.elim And.right fun hj => absurd hj.1 hji, fun hj => .inl ⟨hji, hj⟩⟩
  · intro j m hm h1 h2 hx
    have h2' : ¬ s.Queued j := fun hq => h2 (hqueued j hq)
    rcases hpcb j m hm with ⟨rfl, rfl⟩ | ⟨-, hj⟩
    · exact hf.orphan h1 h2' hx
    · exact h.orphan j m hj h1 h2' hx
  · intro j m hm
    rw [hl.mem .timewait j]
    rcases hpcb j m hm with ⟨rfl, rfl⟩ | ⟨hji, hj⟩
    · exact ⟨hf.finWait2, fun hst => ⟨(hf.timewait hst).1, .inr ⟨rfl, (hf.timewait hst).2.symm⟩⟩⟩
    · exact ⟨(h.timed j m hj).1, fun hst => ⟨((h.timed j m hj).2 hst).1, .inl ⟨hji, ((h.timed j m hj).2 hst).2⟩⟩⟩
  · intro j m hm hj
    rcases (hl.mem .create j).1 hj with ⟨hji, hj⟩ | ⟨rfl, hw⟩
    · rw [set_ne hji] at hm
      exact h.created j m hm hj
    · rw [set_same] at hm
      obtain rfl := some.inj hm
      exact hf.created hw.symm

/-! ## A change in the hands it is in -/

/-- Where a connection may go by itself: on by a segment, or to `CLOSED` unless it listens. -/
def Follows (st st' : TcpState) : Prop := st' = st ∨ (st' = .closed ∧ st ≠ .listen) ∨ ∃ fin, st' ∈ st.next fin

theorem Follows.facts {st st' : TcpState} (h : Follows st st') : (ofSock st → ofSock st') ∧ (ofAcc st → ofAcc st') ∧
    (closing st ∨ st = .closed → closing st' ∨ st' = .closed) ∧ (st' = .listen ↔ st = .listen) := by
  rcases h with rfl | ⟨rfl, hne⟩ | ⟨fin, h⟩
  · exact ⟨id, id, id, .rfl⟩
  · exact ⟨fun _ => .inl rfl, fun _ => .inl rfl, fun _ => .inr rfl, iff_of_false nofun hne⟩
  · revert h
    cases st <;> cases fin <;> cases st' <;> decide

theorem Follows.closed {st st' : TcpState} (h : Follows st st') (hst : st = .closed) : st' = .closed := by
  subst hst
  rcases h with h | h | ⟨fin, h⟩
  · exact h
  · exact h.1
  · revert h
    cases fin <;> cases st' <;> decide

/-- The pcb stays what it was to the lists, the sockets and the timers. -/
structure Keeps (n p : Node) : Prop where
  acclist : p.acclist = n.acclist
  timers : p.finWait2 = n.finWait2 ∧ p.timewait = n.timewait
  follows : Follows n.conn.state p.conn.state
  waits : p.conn.state = .finWait2 ∨ p.conn.state = .timeWait → p.conn.state = n.conn.state

theorem Inv.keep (h : Inv A x s) (hi : s.pcb i = some n) (hk : Keeps n p) : Inv A x (s.set i p) := by
  obtain ⟨w, hw⟩ := h.whereabouts hi
  obtain ⟨h1, h2, h3, h4⟩ := hk.follows.facts
  have hquiet : n.quiet → p.quiet := fun hq => ⟨hk.timers.1.trans hq.1, hk.timers.2.trans hq.2⟩
  refine h.update (l := s.list) hi ⟨hk.acclist, ?_, ?_, ?_, h4.2, ?_, ?_, ?_, ?_⟩ hw
  · rintro ⟨k, hk⟩
    obtain ⟨m, e, hst, hq⟩ := h.sock k i hk
    obtain rfl := some.inj (hi.symm.trans e)
    exact ⟨h1 hst, hquiet hq⟩
  · rintro ⟨a, b, ha, hb⟩
    obtain ⟨-, ⟨m, e, hst, hq⟩, -⟩ := h.acc a b i ha hb
    obtain rfl := some.inj (hi.symm.trans e)
    exact ⟨h2 hst, hquiet hq⟩
  · exact fun ho hq hx => (h.orphan i n hi ho hq hx).imp_right h3
  · rw [h4, ← h.listening i n hi, hw.mem]
    exact ⟨fun e => .inr ⟨rfl, e.symm⟩, fun e => e.elim (fun e => absurd rfl e.1) fun e => e.2.symm⟩
  · intro hst
    rw [hk.timers.1]
    exact (h.timed i n hi).1 ((hk.waits (.inl hst)).symm.trans hst)
  · intro hst
    obtain ⟨h5, h6⟩ := (h.timed i n hi).2 ((hk.waits (.inr hst)).symm.trans hst)
    rw [hk.timers.2]
    refine ⟨h5, ?_⟩
    rcases (hw.mem _ i).1 h6 with h7 | ⟨-, h7⟩
    · exact absurd rfl h7.1
    · exact h7.symm
  · rintro rfl
    exact hk.follows.closed (h.created i n hi ((hw.mem _ i).2 (.inr ⟨rfl, rfl⟩)))

theorem Inv.conn {c : Pcb} (h : Inv A x s) (hi : s.pcb i = some n) (hc : c.state = n.conn.state) :
    Inv A x (s.set i { n with conn := c }) :=
  h.keep hi ⟨rfl, ⟨rfl, rfl⟩, .inl hc, fun _ => hc⟩

/-! ## The calls that wait -/

theorem Inv.wait (h : Inv A x s) (hk : s.sock k = some i) : Inv A x { s with waiting := (k, i) :: s.waiting } := by
  refine ⟨h.nodup, h.one, h.listed, h.sock, h.sockOne, h.acc, h.accNodup, h.accOne, h.listening, ?_, h.orphan, h.timed,
    h.created⟩
  intro y hy
  rcases mem_cons.1 hy with rfl | hy
  · exact hk
  · exact h.waiting y hy

theorem Inv.unwait {y : Nat × Nat} (h : Inv A x s) : Inv A x { s with waiting := s.waiting.erase y } :=
  ⟨h.nodup, h.one, h.listed, h.sock, h.sockOne, h.acc, h.accNodup, h.accOne, h.listening,
    fun z hz => h.waiting z (mem_of_mem_erase hz), h.orphan, h.timed, h.created⟩

/-! ## Freeing -/

/-- `t` is `s` without the pcbs `l`. -/
structure Dropped (s : Sys) (l : List Nat) (t : Sys) : Prop where
  sock : t.sock = s.sock
  waiting : t.waiting = s.waiting
  pcb : ∀ j, t.pcb j = if j ∈ l then none else s.pcb j
  nodup : ∀ w, (s.list w).Nodup → (t.list w).Nodup
  mem : (∀ w, (s.list w).Nodup) → ∀ w j, j ∈ t.list w ↔ j ∈ s.list w ∧ j ∉ l

theorem Inv.unsock (h : Inv A none s) (hk : s.sock k = some i) (hw : ∀ y ∈ s.waiting, y.1 ≠ k) :
    Inv A (some i) { s with sock := Function.update s.sock k none } ∧
      ¬ Sys.Held { s with sock := Function.update s.sock k none } i := by
  have hsock : ∀ l j, Function.update s.sock k none l = some j → l ≠ k ∧ s.sock l = some j := by
    intro l j hl
    by_cases hlk : l = k
    · subst hlk
      rw [Function.update_self] at hl; cases hl
    · rw [Function.update_of_ne hlk] at hl
      exact ⟨hlk, hl⟩
  have hheld : ∀ j, Sys.Held { s with sock := Function.update s.sock k none } j → s.Held j := fun j ⟨l, hl⟩ =>
    ⟨l, (hsock l j hl).2⟩
  refine ⟨⟨h.nodup, h.one, h.listed, fun l j hl => h.sock l j (hsock l j hl).2,
    fun a b j ha hb => h.sockOne a b j (hsock a j ha).2 (hsock b j hb).2, ?_, h.accNodup, h.accOne, h.listening, ?_,
    ?_, h.timed, h.created⟩, ?_⟩
  · intro a m j hm hj
    obtain ⟨h1, h2, h3⟩ := h.acc a m j hm hj
    exact ⟨h1, h2, fun hh => h3 (hheld j hh)⟩
  · intro y hy
    show Function.update s.sock k none y.1 = _
    rw [Function.update_of_ne (hw y hy)]
    exact h.waiting y hy
  · intro j m hm h1 h2 hx
    refine h.orphan j m hm ?_ h2 nofun
    rintro ⟨l, hl⟩
    refine h1 ⟨l, ?_⟩
    show Function.update s.sock k none l = _
    rw [Function.update_of_ne]
    · exact hl
    · rintro rfl
      exact hx (hk.symm.trans hl)
  · rintro ⟨l, hl⟩
    obtain ⟨h1, h2⟩ := hsock l i hl
    exact h1 (h.sockOne l k i h2 hk)

theorem Inv.drop (h : Inv A x s) (hx : x = none ∨ x = some i) (hi : s.pcb i = some n) (hheld : ¬ s.Held i)
    (hqueued : ¬ s.Queued i)
    (hd : Dropped s (i :: n.acclist) t) : Inv A none t := by
  have hmem := hd.mem h.nodup
  have hpcb : ∀ j m, t.pcb j = some m → j ∉ i :: n.acclist ∧ s.pcb j = some m := by
    intro j m hj
    rw [hd.pcb] at hj
    split at hj
    · cases hj
    · rename_i hn; exact ⟨hn, hj⟩
  have hkeep : ∀ j, j ∉ i :: n.acclist → t.pcb j = s.pcb j := fun j hj => by rw [hd.pcb, if_neg hj]
  have hfree : ∀ j, j ∈ i :: n.acclist → ¬ s.Held j := by
    intro j hj
    rcases mem_cons.1 hj with rfl | hj
    · exact hheld
    · exact (h.acc i n j hi hj).2.2
  have hin : ∀ j, t.Held j ↔ s.Held j := fun j => by unfold Sys.Held; rw [hd.sock]
  refine ⟨fun w => hd.nodup w (h.nodup w), fun j v w hv hw => h.one j v w ((hmem v j).1 hv).1 ((hmem w j).1 hw).1, ?_, ?_, ?_, ?_, ?_, ?_,
    ?_, ?_, ?_, ?_, ?_⟩
  · intro j
    by_cases hj : j ∈ i :: n.acclist
    · rw [hd.pcb, if_pos hj]
      exact iff_of_false (fun hn => hn rfl) fun ⟨w, hw⟩ => ((hmem w j).1 hw).2 hj
    · rw [hkeep j hj, h.listed j]
      exact exists_congr fun w => by rw [hmem w j, and_iff_left hj]
  · intro k j hk
    rw [hd.sock] at hk
    obtain ⟨m, h1, h2⟩ := h.sock k j hk
    exact ⟨m, (hkeep j fun hj => hfree j hj ⟨k, hk⟩).trans h1, h2⟩
  · intro k l j hk hl
    rw [hd.sock] at hk hl
    exact h.sockOne k l j hk hl
  · intro a m j hm hj
    obtain ⟨ha, hm⟩ := hpcb a m hm
    obtain ⟨h1, ⟨b, h2, h3⟩, h4⟩ := h.acc a m j hm hj
    refine ⟨h1, ⟨b, (hkeep j fun hj' => ?_).trans h2, h3⟩, fun hh => h4 ((hin j).1 hh)⟩
    rcases mem_cons.1 hj' with rfl | hj'
    · exact hqueued ⟨a, m, hm, hj⟩
    · exact ha (h.accOne a i m n j hm hi hj hj' ▸ .head _)
  · exact fun a m hm => h.accNodup a m (hpcb a m hm).2
  · exact fun a b m m' j hm hm' => h.accOne a b m m' j (hpcb a m hm).2 (hpcb b m' hm').2
  · intro j m hm
    obtain ⟨hj, hm⟩ := hpcb j m hm
    rw [hmem, and_iff_left hj]
    exact h.listening j m hm
  · intro y hy
    rw [hd.waiting] at hy
    rw [hd.sock]
    exact h.waiting y hy
  · intro j m hm h1 h2 _
    obtain ⟨hj, hm⟩ := hpcb j m hm
    refine h.orphan j m hm (fun hh => h1 ((hin j).2 hh)) ?_ ?_
    · rintro ⟨a, b, ha, hb⟩
      refine h2 ⟨a, b, (hkeep a fun ha' => ?_).trans ha, hb⟩
      rcases mem_cons.1 ha' with rfl | ha'
      · obtain rfl := some.inj (hi.symm.trans ha)
        exact hj (.tail _ hb)
      · -- a pcb on an `acclist` has none of its own
        obtain ⟨-, ⟨c, h5, h6, -⟩, -⟩ := h.acc i n a hi ha'
        obtain rfl := some.inj (ha.symm.trans h5)
        rw [(h.acc a b j ha hb).1] at h6
        revert h6; decide
    · rcases hx with rfl | rfl
      · exact nofun
      · exact fun e => hj (some.inj e ▸ .head _)
  · intro j m hm
    obtain ⟨hj, hm⟩ := hpcb j m hm
    refine ⟨(h.timed j m hm).1, fun hst => ⟨((h.timed j m hm).2 hst).1, ?_⟩⟩
    exact (hmem _ j).2 ⟨((h.timed j m hm).2 hst).2, hj⟩
  · exact fun j m hm hj => h.created j m (hpcb j m hm).2 ((hmem _ j).1 hj).1

/-! ## New pcbs -/

theorem Inv.absent (h : Inv A x s) (hj : s.pcb j = none) : (∀ w, j ∉ s.list w) ∧ ¬ s.Held j ∧ ¬ s.Queued j := by
  refine ⟨fun w hw => (h.listed j).2 ⟨w, hw⟩ hj, ?_, ?_⟩
  · rintro ⟨k, hk⟩
    obtain ⟨m, hm, -⟩ := h.sock k j hk
    rw [hj] at hm; cases hm
  · rintro ⟨a, n, ha, hn⟩
    obtain ⟨-, ⟨m, hm, -⟩, -⟩ := h.acc a n j ha hn
    rw [hj] at hm; cases hm

theorem Inv.alloc (h : Inv A none s) (hj : s.pcb j = none) (hm : m.acclist = [])
    (hst : m.conn.state = .closed ∨ m.conn.state = .synRcvd)
    (hw : w ≠ .listen) (hcreate : w = .create → m.conn.state = .closed) : Inv A (some j) ((s.set j m).push w j) := by
  obtain ⟨hlist, hheld, hqueued⟩ := h.absent hj
  have hne : ∀ a n, s.pcb a = some n → a ≠ j := by
    rintro a n ha rfl
    rw [hj] at ha; cases ha
  have hpcb : ∀ a n, (s.set j m).pcb a = some n → (a = j ∧ n = m) ∨ s.pcb a = some n := by
    intro a n ha
    by_cases haj : a = j
    · subst haj
      rw [set_same] at ha
      exact .inl ⟨rfl, (some.inj ha).symm⟩
    · rw [set_ne haj] at ha
      exact .inr ha
  have hmem : ∀ v a, a ∈ ((s.set j m).push w j).list v ↔ (a = j ∧ v = w) ∨ a ∈ s.list v := by
    intro v a
    show a ∈ Function.update s.list w (j :: s.list w) v ↔ _
    by_cases hvw : v = w
    · subst hvw
      rw [Function.update_self, mem_cons, and_iff_left rfl]
    · rw [Function.update_of_ne hvw]
      exact ⟨.inr, fun e => e.elim (fun e => absurd e.2 hvw) id⟩
  have hlive : ∀ a n, s.pcb a = some n → (s.set j m).pcb a = some n := fun a n ha => (set_ne (hne a n ha)).trans ha
  have hlisten : m.conn.state ≠ .listen := by
    rcases hst with e | e <;> rw [e] <;> decide
  refine ⟨?_, ?_, ?_, ?_, h.sockOne, ?_, ?_, ?_, ?_, h.waiting, ?_, ?_, ?_⟩
  · intro v
    show (Function.update s.list w (j :: s.list w) v).Nodup
    by_cases hvw : v = w
    · subst hvw
      rw [Function.update_self]
      exact nodup_cons.2 ⟨hlist v, h.nodup v⟩
    · rw [Function.update_of_ne hvw]
      exact h.nodup v
  · intro a v v' hv hv'
    rcases (hmem v a).1 hv with ⟨rfl, rfl⟩ | h1 <;> rcases (hmem v' a).1 hv' with ⟨e, rfl⟩ | h2
    · rfl
    · exact absurd h2 (hlist v')
    · exact absurd (e ▸ h1) (hlist v)
    · exact h.one a v v' h1 h2
  · intro a
    show (s.set j m).pcb a ≠ none ↔ _
    by_cases haj : a = j
    · subst haj
      rw [set_same]
      exact iff_of_true nofun ⟨w, (hmem w a).2 (.inl ⟨rfl, rfl⟩)⟩
    · rw [set_ne haj, h.listed a]
      exact exists_congr fun v => by rw [hmem v a]; exact ⟨.inr, fun e => e.elim (fun e => absurd e.1 haj) id⟩
  · intro k a hk
    obtain ⟨n, h1, h2⟩ := h.sock k a hk
    exact ⟨n, hlive a n h1, h2⟩
  · intro a n b hn hb
    rcases hpcb a n hn with ⟨rfl, rfl⟩ | hn
    · rw [hm] at hb; cases hb
    obtain ⟨h1, ⟨c, h2, h3⟩, h4⟩ := h.acc a n b hn hb
    exact ⟨h1, ⟨c, hlive b c h2, h3⟩, h4⟩
  · intro a n hn
    rcases hpcb a n hn with ⟨rfl, rfl⟩ | hn
    · rw [hm]; exact nodup_nil
    · exact h.accNodup a n hn
  · intro a b n p c hn hn' hc hc'
    rcases hpcb a n hn with ⟨rfl, rfl⟩ | hn
    · rw [hm] at hc; cases hc
    rcases hpcb b p hn' with ⟨rfl, rfl⟩ | hn'
    · rw [hm] at hc'; cases hc'
    · exact h.accOne a b n p c hn hn' hc hc'
  · intro a n hn
    rw [hmem]
    rcases hpcb a n hn with ⟨rfl, rfl⟩ | hn
    · exact iff_of_false (fun e => e.elim (fun e => hw e.2.symm) (hlist _)) hlisten
    · rw [← h.listening a n hn]
      exact ⟨fun e => e.elim (fun e => absurd e.1 (hne a n hn)) id, .inr⟩
  · intro a n hn h1 h2 hx
    rcases hpcb a n hn with ⟨rfl, rfl⟩ | hn
    · exact absurd rfl hx
    · refine h.orphan a n hn h1 ?_ nofun
      rintro ⟨b, c, hb, hc⟩
      exact h2 ⟨b, c, hlive b c hb, hc⟩
  · intro a n hn
    rcases hpcb a n hn with ⟨rfl, rfl⟩ | hn
    · rcases hst with e | e <;> rw [e] <;> exact ⟨nofun, nofun⟩
    · refine ⟨(h.timed a n hn).1, fun e => ⟨((h.timed a n hn).2 e).1, (hmem _ a).2 (.inr ((h.timed a n hn).2 e).2)⟩⟩
  · intro a n hn ha
    rcases hpcb a n hn with ⟨rfl, rfl⟩ | hn
    · rcases (hmem .create a).1 ha with ⟨-, hw'⟩ | ha
      · exact hcreate hw'.symm
      · exact absurd ha (hlist _)
    · rcases (hmem .create a).1 ha with ⟨haj, -⟩ | ha
      · exact absurd haj (hne a n hn)
      · exact h.created a n hn ha

theorem Inv.give (h : Inv A (some j) s) (hj : s.pcb j = some m) (hst : ofSock m.conn.state) (hq : m.quiet)
    (hheld : ¬ s.Held j)
    (hqueued : ¬ s.Queued j) (hk : s.sock k = none) : Inv A none
    { s with sock := Function.update s.sock k (some j) } := by
  have hsock : ∀ l a, Function.update s.sock k (some j) l = some a → (l = k ∧ a = j) ∨ (l ≠ k ∧ s.sock l = some a) := by
    intro l a hl
    by_cases hlk : l = k
    · subst hlk
      rw [Function.update_self] at hl
      exact .inl ⟨rfl, (some.inj hl).symm⟩
    · rw [Function.update_of_ne hlk] at hl
      exact .inr ⟨hlk, hl⟩
  have hkeep : ∀ l a, s.sock l = some a → Function.update s.sock k (some j) l = some a := by
    intro l a hl
    rw [Function.update_of_ne]
    · exact hl
    · rintro rfl
      rw [hk] at hl; cases hl
  refine ⟨h.nodup, h.one, h.listed, ?_, ?_, ?_, h.accNodup, h.accOne, h.listening, fun y hy => hkeep _ _ (h.waiting y hy), ?_,
    h.timed, h.created⟩
  · intro l a hl
    rcases hsock l a hl with ⟨-, rfl⟩ | ⟨-, hl⟩
    · exact ⟨m, hj, hst, hq⟩
    · exact h.sock l a hl
  · intro l l' a hl hl'
    rcases hsock l a hl with ⟨rfl, rfl⟩ | ⟨-, h1⟩ <;> rcases hsock l' _ hl' with ⟨rfl, e⟩ | ⟨-, h2⟩
    · rfl
    · exact absurd ⟨l', h2⟩ hheld
    · exact absurd ⟨l, e ▸ h1⟩ hheld
    · exact h.sockOne l l' a h1 h2
  · intro a n b hn hb
    obtain ⟨h1, h2, h3⟩ := h.acc a n b hn hb
    refine ⟨h1, h2, ?_⟩
    rintro ⟨l, hl⟩
    rcases hsock l b hl with ⟨-, rfl⟩ | ⟨-, hl⟩
    · exact hqueued ⟨a, n, hn, hb⟩
    · exact h3 ⟨l, hl⟩
  · intro a n hn h1 h2 _
    refine h.orphan a n hn (fun ⟨l, hl⟩ => h1 ⟨l, hkeep l a hl⟩) h2 ?_
    intro e
    obtain rfl := some.inj e
    exact h1 ⟨k, Function.update_self ..⟩

/-- What the new `acclist` of a listener may hold; `x` and `y`: the pcb that nobody has before and after. -/
structure Requeued (x y : Option Nat) (s : Sys) (n p : Node) : Prop where
  state : n.conn.state = .listen ∧ p.conn.state = .listen
  timers : p.finWait2 = n.finWait2 ∧ p.timewait = n.timewait
  nodup : p.acclist.Nodup
  new : ∀ a ∈ p.acclist, a ∈ n.acclist ∨
    ((∃ m, s.pcb a = some m ∧ ofAcc m.conn.state ∧ m.quiet) ∧ ¬ s.Held a ∧ ¬ s.Queued a)
  old : ∀ a, a ∈ n.acclist ∨ x = some a → a ∉ p.acclist → y = some a

theorem Inv.requeue {y : Option Nat} (h : Inv A x s) (hi : s.pcb i = some n) (hr : Requeued x y s n p) : Inv A y
    (s.set i p) := by
  have hpcb : ∀ a m, (s.set i p).pcb a = some m → (a = i ∧ m = p) ∨ (a ≠ i ∧ s.pcb a = some m) := by
    intro a m ha
    by_cases hai : a = i
    · subst hai
      rw [set_same] at ha
      exact .inl ⟨rfl, (some.inj ha).symm⟩
    · rw [set_ne hai] at ha
      exact .inr ⟨hai, ha⟩
  have hlive : ∀ a m, s.pcb a = some m → m.conn.state ≠ .listen → (s.set i p).pcb a = some m := by
    intro a m ha hm
    rw [set_ne]
    · exact ha
    · rintro rfl
      obtain rfl := some.inj (hi.symm.trans ha)
      exact hm hr.state.1
  have hacc : ∀ m : Node, ofAcc m.conn.state → m.conn.state ≠ .listen := by
    intro m hm e
    rw [e] at hm; revert hm; decide
  have hmember : ∀ a ∈ p.acclist, (∃ m, s.pcb a = some m ∧ ofAcc m.conn.state ∧ m.quiet) ∧ ¬ s.Held a := by
    intro a ha
    rcases hr.new a ha with ha | ⟨h1, h2, -⟩
    · exact (h.acc i n a hi ha).2
    · exact ⟨h1, h2⟩
  refine ⟨h.nodup, h.one, ?_, ?_, h.sockOne, ?_, ?_, ?_, ?_, h.waiting, ?_, ?_, ?_⟩
  · intro a
    show _ ↔ ∃ w, a ∈ s.list w
    rw [← h.listed a]
    by_cases hai : a = i
    · subst hai
      rw [set_same, hi]
      exact iff_of_true nofun nofun
    · rw [set_ne hai]
  · intro k a hk
    obtain ⟨m, h1, h2, h3⟩ := h.sock k a hk
    by_cases hai : a = i
    · subst hai
      obtain rfl := some.inj (hi.symm.trans h1)
      exact ⟨p, set_same, .inr (.inl hr.state.2), hr.timers.1.trans h3.1, hr.timers.2.trans h3.2⟩
    · exact ⟨m, (set_ne hai).trans h1, h2, h3⟩
  · intro a m b hm hb
    rcases hpcb a m hm with ⟨rfl, rfl⟩ | ⟨-, hm⟩
    · obtain ⟨⟨c, h1, h2, h3⟩, h4⟩ := hmember b hb
      exact ⟨hr.state.2, ⟨c, hlive b c h1 (hacc c h2), h2, h3⟩, h4⟩
    · obtain ⟨h1, ⟨c, h2, h3, h4⟩, h5⟩ := h.acc a m b hm hb
      exact ⟨h1, ⟨c, hlive b c h2 (hacc c h3), h3, h4⟩, h5⟩
  · intro a m hm
    rcases hpcb a m hm with ⟨rfl, rfl⟩ | ⟨-, hm⟩
    · exact hr.nodup
    · exact h.accNodup a m hm
  · -- a pcb of another `acclist` was not nobody's
    have hother : ∀ a m b, a ≠ i → s.pcb a = some m → b ∈ m.acclist → b ∉ p.acclist := by
      intro a m b hai hm hb hb'
      rcases hr.new b hb' with hb' | ⟨-, -, hq⟩
      · exact hai (h.accOne a i m n b hm hi hb hb')
      · exact hq ⟨a, m, hm, hb⟩
    intro a b m m' c hm hm' hc hc'
    rcases hpcb a m hm with ⟨rfl, rfl⟩ | ⟨h1, h2⟩ <;> rcases hpcb b m' hm' with ⟨rfl, rfl⟩ | ⟨h3, h4⟩
    · rfl
    · exact absurd hc (hother b m' c h3 h4 hc')
    · exact absurd hc' (hother a m c h1 h2 hc)
    · exact h.accOne a b m m' c h2 h4 hc hc'
  · intro a m hm
    rcases hpcb a m hm with ⟨rfl, rfl⟩ | ⟨-, hm⟩
    · show a ∈ s.list .listen ↔ _
      rw [h.listening a n hi]
      exact iff_of_true hr.state.1 hr.state.2
    · exact h.listening a m hm
  · intro a m hm h1 h2 hy
    have hin : a ∉ p.acclist := fun ha => h2 ⟨i, p, set_same, ha⟩
    have hq : ∀ b c, b ≠ i → s.pcb b = some c → a ∉ c.acclist := fun b c hb hc ha => h2 ⟨b, c, (set_ne hb).trans hc, ha⟩
    have hno : a ∉ n.acclist := fun ha => hy (hr.old a (.inl ha) hin)
    have hq' : ¬ s.Queued a := by
      rintro ⟨b, c, hb, hc⟩
      by_cases hbi : b = i
      · subst hbi
        obtain rfl := some.inj (hi.symm.trans hb)
        exact hno hc
      · exact hq b c hbi hb hc
    have hx : x ≠ some a := fun hx => hy (hr.old a (.inr hx) hin)
    rcases hpcb a m hm with ⟨rfl, rfl⟩ | ⟨-, hm⟩
    · have h3 := h.orphan a n hi h1 hq' hx
      rw [hr.state.1] at h3
      exact absurd h3.2 (by decide)
    · exact h.orphan a m hm h1 hq' hx
  · intro a m hm
    rcases hpcb a m hm with ⟨rfl, rfl⟩ | ⟨-, hm⟩
    · rw [hr.state.2]; exact ⟨nofun, nofun⟩
    · exact h.timed a m hm
  · intro a m hm ha
    rcases hpcb a m hm with ⟨rfl, rfl⟩ | ⟨-, hm⟩
    · exact absurd (hr.state.1.symm.trans (h.created a n hi ha)) nofun
    · exact h.created a m hm ha

end Onix.Own
