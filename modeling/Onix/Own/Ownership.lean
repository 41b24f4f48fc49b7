/-
Who frees a TCP pcb. In every run each pcb in use is on one list and in one pair of hands, or in nobody's
and on its way to be freed; but nothing frees a connection whose socket was closed before it got to
`FIN_WAIT2` or `TIME_WAIT`, and a reset or a timeout leaves it in `CLOSED` for ever. The claim is met as
long as only sockets without a connection are closed, and is broken by the first other `tcp_close`.
-/
import Onix.Own.Calls

namespace Onix.Own

open Onix.Lib
open Onix.Tcp (Pcb Segment Seq Flags TcpState TcpTimer SockOpt Iovec)

variable {A : Prop} {s t : Sys} {i j k : Nat} {n m : Node} {a : Act}

/-! ## Every run -/

def Abandons (s : Sys) : Act → Prop
  | .close k => ∃ i n, s.sock k = some i ∧ s.pcb i = some n ∧ connected n.conn.state
  | _ => False

/-- The faults a step may not have: only a round of `tcp_slowtimo` reads a pcb it has freed, when the
timer of `FIN_WAIT2` runs out. -/
def Unexpected (s : Sys) (a : Act) (e : Fault) : Prop := Misuse e ∧ ¬ (e = .freed ∧ (∃ expires, a = .slowtimo expires) ∧ Expiring s)

theorem step_sat (h : Inv A none s) (hA : Abandons s a → A) (he : enabled s a) : Sat (Unexpected s a) (step s a)
    (Inv A none) := by
  have hbad : ∀ e, Unexpected s a e → Misuse e := fun e he => he.1
  have hsock : ∀ k, s.sock k ≠ none → ∃ i, s.sock k = some i := fun k => Option.ne_none_iff_exists'.1
  cases a with
  | socket k new isn => exact socket_sat h he.1 he.2
  | close k =>
    obtain ⟨i, hk⟩ := hsock k he.1
    exact (close_sat h (fun n hn hc => hA ⟨i, n, hk, hn, hc⟩) hbad hk he.2).mono fun t ht => ht.1
  | listen k backlog =>
    obtain ⟨i, hk⟩ := hsock k he.1
    exact tcpListen_sat h hk
  | accept k ns =>
    obtain ⟨i, hk⟩ := hsock k he.1
    exact tcpAccept_sat h hk he.2
  | connect k =>
    obtain ⟨i, hk⟩ := hsock k he
    exact tcpConnect_sat h hbad hk
  | send k iov flags =>
    obtain ⟨i, hk⟩ := hsock k he
    exact tcpSendmsg_sat h hbad hk
  | recv k sizes =>
    obtain ⟨i, hk⟩ := hsock k he
    exact tcpRecvmsg_sat h hbad hk
  | setsockopt k opt val =>
    obtain ⟨i, hk⟩ := hsock k he
    obtain ⟨n, hn, -⟩ := h.held hk
    refine ofSock_bind hk (deref_bind hn (Sat.ok (h.conn hn ?_)))
    cases opt <;> rfl
  | name k =>
    obtain ⟨i, hk⟩ := hsock k he
    obtain ⟨n, hn, -⟩ := h.held hk
    exact ofSock_bind hk (deref_bind hn (Sat.ok h))
  | resume k i r =>
    have hw : (k, i) ∈ s.waiting ∧ ∀ ns, r = .accept ns → s.sock ns = none := by
      cases r with
      | done => exact ⟨he, nofun⟩
      | recv sizes => exact ⟨he, nofun⟩
      | accept ns =>
        refine ⟨he.1, ?_⟩
        rintro _ ⟨⟩
        exact he.2
    exact resume_sat h hbad hw.1 hw.2
  | input i g new isn =>
    have hon : ∃ w, i ∈ s.list w := by
      rcases he.1 with hi | hi | hi
      · exact ⟨_, hi⟩
      · exact ⟨_, hi⟩
      · exact ⟨_, hi⟩
    obtain ⟨n, hn⟩ := Option.ne_none_iff_exists'.1 ((h.listed i).2 hon)
    exact input_sat h hbad hn he.2
  | sent i place =>
    cases hn : s.pcb i with
    | none =>
      have he : ((s.pcb i).bind fun n => n.conn.unacked[place]?.map Tcp.Pbuf.count) = some 2 := he
      rw [hn] at he; cases he
    | some n => exact deref_bind hn (Sat.ok (h.conn (c := Tcp.deviceSent n.conn place) hn rfl))
  | slowtimo expires =>
    have hexp : Expiring s → ¬ Unexpected s (.slowtimo expires) .freed := fun hexp hb => hb.2 ⟨rfl, ⟨expires, rfl⟩, hexp⟩
    exact tcpSlowtimo_sat h hbad hexp
  | fastimo => exact tcpFastimo_sat h hbad

theorem boot_inv (h : own.start s) : Inv A none s := by
  obtain rfl : s = _ := h
  exact {
    nodup := fun _ => List.nodup_nil
    one := fun _ _ _ h => absurd h List.not_mem_nil
    listed := fun _ => iff_of_false (fun h => h rfl) fun h => absurd h.choose_spec List.not_mem_nil
    sock := fun _ _ h => nomatch h
    sockOne := fun _ _ _ h => nomatch h
    acc := fun _ _ _ h => nomatch h
    accNodup := fun _ _ h => nomatch h
    accOne := fun _ _ _ _ _ h => nomatch h
    listening := fun _ _ h => nomatch h
    waiting := fun _ h => absurd h List.not_mem_nil
    orphan := fun _ _ h => nomatch h
    timed := fun _ _ h => nomatch h
    created := fun _ _ h => nomatch h }

theorem reach_inv {P : Sys → Act → Prop} (hP : ∀ s a, P s a → Abandons s a → A) (h : own.Reach P s) : Inv A none s :=
  h.inv (fun _ h0 => boot_inv h0) fun s a _ hs hPa hst => (step_sat hs (hP s a hPa) hst.1).of_ok hst.2

/-! ## Ownership -/

/-- A timer that frees the pcb is running: it counts down on the lists `tcp_slowtimo` goes through. -/
def Sys.WillFree (s : Sys) (i : Nat) (n : Node) : Prop := ¬ n.quiet ∧ (i ∈ s.list .active ∨ i ∈ s.list .timewait)

/-- Who has the pcb: one open socket, the `acclist` of one live listener, or nobody. -/
inductive Owner (s : Sys) (i : Nat) (n : Node) : Prop
  | socket (h : ∃! k, s.sock k = some i) (h1 : ¬ s.Queued i)
  | listener (h : ∃! l, ∃ m, s.pcb l = some m ∧ m.conn.state = .listen ∧ i ∈ m.acclist) (h1 : ¬ s.Held i)
  | orphan (h : ¬ s.Held i) (h1 : ¬ s.Queued i) (hst : closing n.conn.state) (ht : s.WillFree i n)

structure Owned (s : Sys) : Prop where
  lists : ∀ i, s.pcb i ≠ none → ∃! w, i ∈ s.list w
  live : ∀ i w, i ∈ s.list w → s.pcb i ≠ none
  once : ∀ w, (s.list w).Nodup
  owner : ∀ i n, s.pcb i = some n → Owner s i n

/-- What holds in every run: a pcb in nobody's hands is closing or, its connection broken off, in
`CLOSED`; in `FIN_WAIT2` and `TIME_WAIT` a timer will free it. -/
structure Tracked (s : Sys) : Prop where
  lists : ∀ i, s.pcb i ≠ none → ∃! w, i ∈ s.list w
  live : ∀ i w, i ∈ s.list w → s.pcb i ≠ none
  once : ∀ w, (s.list w).Nodup
  owner : ∀ i n, s.pcb i = some n → Owner s i n ∨ (¬ s.Held i ∧ ¬ s.Queued i ∧ (closing n.conn.state ∨ n.conn.state = .closed))
  timed : ∀ i n, s.pcb i = some n → n.conn.state = .finWait2 ∨ n.conn.state = .timeWait → Owner s i n

theorem Inv.lists (h : Inv A none s) (hi : s.pcb i ≠ none) : ∃! w, i ∈ s.list w := by
  obtain ⟨w, hw⟩ := (h.listed i).1 hi
  exact ⟨w, hw, fun v hv => h.one i v w hv hw⟩

theorem Inv.owner (h : Inv A none s) (hi : s.Held i ∨ s.Queued i) : Owner s i n := by
  rcases hi with ⟨k, hk⟩ | ⟨l, m, hl, hm⟩
  · refine .socket ⟨k, hk, fun k' hk' => h.sockOne k' k i hk' hk⟩ ?_
    rintro ⟨l, m, hl, hm⟩
    exact (h.acc l m i hl hm).2.2 ⟨k, hk⟩
  · obtain ⟨h1, -, h2⟩ := h.acc l m i hl hm
    refine .listener ⟨l, ⟨m, hl, h1, hm⟩, ?_⟩ h2
    rintro l' ⟨m', hl', -, hm'⟩
    exact h.accOne l' l m' m i hl' hl hm' hm

theorem Inv.tracked (h : Inv A none s) : Tracked s := by
  refine ⟨fun i => h.lists, fun i w hw => (h.listed i).2 ⟨w, hw⟩, h.nodup, fun i n hi => ?_, fun i n hi hst => ?_⟩
  · by_cases hheld : s.Held i ∨ s.Queued i
    · exact .inl (h.owner hheld)
    · obtain ⟨h1, h2⟩ := not_or.1 hheld
      exact .inr ⟨h1, h2, (h.orphan i n hi h1 h2 nofun).2⟩
  · have hclosing : closing n.conn.state := by
      rcases hst with e | e <;> rw [e] <;> decide
    obtain ⟨h1, h2⟩ := h.alone hi hclosing
    refine .orphan h1 h2 hclosing ⟨fun hq => ?_, ?_⟩
    · rcases hst with e | e
      · exact absurd hq.1 (Nat.ne_of_gt ((h.timed i n hi).1 e))
      · exact absurd hq.2 (Nat.ne_of_gt ((h.timed i n hi).2 e).1)
    · obtain ⟨w, hw⟩ := (h.listed i).1 (by rw [hi]; exact nofun)
      cases w with
      | active => exact .inl hw
      | timewait => exact .inr hw
      | create =>
        have hcl := h.created i n hi hw
        rcases hst with e | e <;> exact absurd (e.symm.trans hcl) nofun
      | listen =>
        have hl := (h.listening i n hi).1 hw
        rcases hst with e | e <;> exact absurd (e.symm.trans hl) nofun

theorem Inv.owned (h : Inv False none s) : Owned s := by
  refine ⟨fun i => h.lists, fun i w hw => (h.listed i).2 ⟨w, hw⟩, h.nodup, fun i n hi => h.owner ?_⟩
  by_contra hno
  obtain ⟨h1, h2⟩ := not_or.1 hno
  exact (h.orphan i n hi h1 h2 nofun).1

theorem Inv.unexpiring (h : Inv False none s) : ¬ Expiring s := by
  rintro ⟨i, n, hi, hone⟩
  have hq : ¬ n.quiet := fun hq => absurd (hone.symm.trans hq.1) (by decide)
  obtain ⟨h1, h2⟩ := h.busy hi hq
  exact (h.orphan i n hi h1 h2 nofun).1

theorem Inv.weaken (h : Inv A none s) : Inv True none s :=
  ⟨h.nodup, h.one, h.listed, h.sock, h.sockOne, h.acc, h.accNodup, h.accOne, h.listening, h.waiting,
    fun i n hi h1 h2 hx => ⟨trivial, (h.orphan i n hi h1 h2 hx).2⟩, h.timed, h.created⟩

/-! ## The claim -/

def Clean (s : Sys) : Prop := ∀ a e, enabled s a → step s a = .error e → ¬ Misuse e

def KeepsOpen (s : Sys) (a : Act) : Prop := ¬ Abandons s a

theorem step_clean (h : Inv A none s) (he : enabled s a) {e : Fault} (hs : step s a = .error e) : ¬ Unexpected s a e :=
  (step_sat h.weaken (fun _ => trivial) he).not_bad hs

theorem Inv.clean (h : Inv False none s) : Clean s := by
  intro a e he hs hm
  refine step_clean h he hs ⟨hm, ?_⟩
  rintro ⟨-, -, hexp⟩
  exact h.unexpiring hexp

theorem Abandons.stray (h : Inv A none s) (ha : Abandons s a) (hs : own.Steps s a t) : ¬ Owned t := by
  cases a with
  | close k =>
    obtain ⟨i, n, hk, hi, hc⟩ := ha
    have hclose : Sat (fun _ => False) (tcpClose s k) fun t => Inv True none t ∧ Closed s i t :=
      close_sat h.weaken (fun _ _ _ => trivial) (fun _ => False.elim) hk hs.1.2
    obtain ⟨-, hclosed⟩ := hclose.of_ok hs.2
    obtain ⟨m, hm, hq, h1, h2, -⟩ := hclosed n hi hc
    intro ho
    cases ho.owner i m hm with
    | socket hu =>
      obtain ⟨k', hk', -⟩ := hu
      exact h1 ⟨k', hk'⟩
    | listener hu =>
      obtain ⟨l, ⟨b, hb, -, hmem⟩, -⟩ := hu
      exact h2 ⟨l, b, hb, hmem⟩
    | orphan _ _ _ ht => exact ht.1 hq
  | _ => cases ha

theorem reset_strands {g : Segment} {new : Nat} {isn : Seq} (h : Inv A none s) (hi : s.pcb i = some n)
    (hst : closing n.conn.state)
    (hv : Tcp.tcpValidate n.conn g) (hr : g.flags.has Tcp.tcpRst) (hs : step s (.input i g new isn) = .ok t) :
    ∃ m, t.pcb i = some m ∧ m.conn.state = .closed ∧ ¬ t.Held i ∧ ¬ t.Queued i := by
  obtain ⟨hheld, hqueued⟩ := h.alone hi hst
  have hne : n.conn.state ≠ .closed ∧ ¬ n.conn.state.val ≤ TcpState.synSent.val ∧ n.conn.state ≠ .listen := by
    rcases hst with e | e | e | e | e <;> rw [e] <;> decide
  suffices Sat (fun _ => False) (tcpInput s i g new isn) fun t =>
      ∃ m, t.pcb i = some m ∧ m.conn.state = .closed ∧ ¬ t.Held i ∧ ¬ t.Queued i from this.of_ok hs
  refine deref_bind hi ?_
  rw [if_neg (not_not.2 hv), if_neg hne.1, if_pos hr]
  unfold tcpHandleReset
  rw [if_neg hne.2.1]
  refine (conn_sat fun _ => False.elim).bind fun d _ hd => ?_
  have hd' : d.state = .closed := reset_state hne.2.1 hd
  refine (purge_sat hi (h.acclist_nil hi hne.2.2)).mono fun u hu => ?_
  subst hu
  exact ⟨_, set_same, hd', hheld, fun hq => hqueued (queued_set (p := { n with conn := d }) (fun hj => ⟨i, n, hi, hj⟩) hq)⟩

/-- As long as only sockets without a connection are closed, each pcb in use is where it belongs and none
is used after it was freed; the first other `tcp_close` leaves a pcb that nobody has and nothing frees.
In every run, the lists are right, what nobody has is closing or broken off, and only the timer of
`FIN_WAIT2` makes a round of `tcp_slowtimo` use a pcb it has freed. -/
theorem pcb_ownership (s : Sys) :
    (own.Reach KeepsOpen s → Owned s ∧ Clean s) ∧
    (own.Reach Machine.Any s → (∀ a t, Abandons s a → own.Steps s a t → ¬ Owned t) ∧ Tracked s ∧
      ∀ a e, own.enabled s a → own.step s a = .error e → ¬ Unexpected s a e) := by
  refine ⟨fun h => ?_, fun h => ?_⟩
  · have hinv : Inv False none s := reach_inv (fun _ _ hP ha => hP ha) h
    exact ⟨hinv.owned, hinv.clean⟩
  · have hinv : Inv True none s := reach_inv (fun _ _ _ _ => trivial) h
    exact ⟨fun a t ha hs => ha.stray hinv hs, hinv.tracked, fun a e he => step_clean hinv he⟩

/-! ## A pcb that is never freed -/

instance (s : Sys) (a : Act) : Decidable (own.enabled s a) := inferInstanceAs (Decidable (enabled s a))

def boot : Sys := ⟨fun _ => none, fun _ => [], fun _ => none, []⟩

def reply (seqno ackno : Seq) (flags : Flags) : Segment := ⟨seqno, ackno, flags, 4096, [], []⟩

def connectAndClose : List Act :=
  [.socket 1 10 5, .connect 1, .input 10 (reply 7 6 (Tcp.tcpSyn ||| Tcp.tcpAck)) 11 0, .resume 1 10 .done, .close 1, .sent 10 0]

/-- The peer resets the connection in `FIN_WAIT1`: its pcb is in `CLOSED`, and nobody has it. -/
theorem reset_after_close : ¬ ∀ s, own.Reach Machine.Any s → Owned s := by
  have h : ((own.trace Machine.Any boot connectAndClose).bind fun s => (s.pcb 10).map fun n =>
      (decide (closing n.conn.state), decide (Tcp.tcpValidate n.conn (reply 8 0 (Tcp.tcpRst ||| Tcp.tcpAck))),
        decide (own.enabled s (.input 10 (reply 8 0 (Tcp.tcpRst ||| Tcp.tcpAck)) 11 0)),
        (step s (.input 10 (reply 8 0 (Tcp.tcpRst ||| Tcp.tcpAck)) 11 0)).toOption.isSome)) = some (true, true, true, true) := by
    decide +kernel
  obtain ⟨s, hs, h⟩ := Option.bind_eq_some_iff.1 h
  obtain ⟨n, hn, he⟩ := Option.map_eq_some_iff.1 h
  obtain ⟨h1, h2⟩ := Prod.mk.inj he
  obtain ⟨h2, h3⟩ := Prod.mk.inj h2
  obtain ⟨h3, h4⟩ := Prod.mk.inj h3
  have hr : own.Reach Machine.Any s := Machine.trace_reach rfl hs
  intro hall
  cases hst : step s (.input 10 (reply 8 0 (Tcp.tcpRst ||| Tcp.tcpAck)) 11 0) with
  | error e => rw [hst] at h4; cases h4
  | ok t =>
    have ht := hr.tail trivial (u := t) ⟨of_decide_eq_true h3, hst⟩
    have hinv : Inv True none s := reach_inv (fun _ _ _ _ => trivial) hr
    obtain ⟨m, hm, hcl, hheld, hqueued⟩ := reset_strands hinv hn (of_decide_eq_true h1) (of_decide_eq_true h2) (by decide) hst
    cases (hall t ht).owner 10 m hm with
    | socket hu =>
      obtain ⟨k, hk, -⟩ := hu
      exact hheld ⟨k, hk⟩
    | listener hu =>
      obtain ⟨l, ⟨b, hb, -, hmem⟩, -⟩ := hu
      exact hqueued ⟨l, b, hb, hmem⟩
    | orphan _ _ hclosing _ =>
      rw [hcl] at hclosing
      exact absurd hclosing (by decide)

end Onix.Own
