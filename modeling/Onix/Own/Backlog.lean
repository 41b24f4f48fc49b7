/-
The backlog of a listener. `tcp_handle_listen` counts the pcbs it makes in `backcnt`, and nothing ever
counts one down again: not `tcp_accept`, which takes the pcb off the `acclist`, and no reset, `FIN` or
timeout, which leave it there. It arms the timer of the handshake on the listener, whose timers no
round goes through, and not on the new pcb.

Every step leaves the books of a listener as they are, but for the ones that accept a `SYN`, take a
connection or begin to listen; from this the count, and what is left of it, in every run.
-/
import Onix.Own.Ownership

namespace Onix.Own

open List Function Onix.Lib
open Onix.Tcp (Pcb Segment Seq Flags TcpState TcpTimer SockOpt Iovec)

/-! ## The timers of a handshake -/

def tcpToSyn : Nat := 75 * 2

abbrev Timers := Nat → Nat

def ValidSyn (n : Node) (g : Segment) : Prop := g.flags = Tcp.tcpSyn ∧ (Tcp.tcpParseOption n.conn g.options).2 = true

instance (n : Node) (g : Segment) : Decidable (ValidSyn n g) := inferInstanceAs (Decidable (_ ∧ _))

def accepts (s : Sys) : Act → Bool
  | .input i g _ _ => (s.pcb i).any fun n => decide (n.conn.state = .listen ∧ ValidSyn n g ∧ n.backcnt ≠ n.backlog)
  | _ => false

def takes (s : Sys) : Act → Bool
  | .accept k _ =>
    ((s.sock k).bind s.pcb).any fun n => decide (n.conn.state = .listen ∧ n.backlog ≠ 0) && (tcpFindNpcb s n).isSome
  | .resume _ i (.accept _) => (s.pcb i).any fun n => (tcpFindNpcb s n).isSome
  | _ => false

/-- The timers after a step: `tcp_connect` and `tcp_handle_listen` arm one each, a new pcb has none armed, and a
round of `tcp_slowtimo` counts those of the pcbs on its two lists. -/
def synAfter (g : Timers) (s : Sys) (a : Act) (_ : Sys) : Timers :=
  match a with
  | .socket _ new _ => Function.update g new 0
  | .connect k =>
    match s.sock k with
    | some i => if (s.pcb i).any fun n => decide (n.conn.state = .closed) then Function.update g i tcpToSyn else g
    | none => g
  | .input i _ new _ => if accepts s a then Function.update (Function.update g i tcpToSyn) new 0 else g
  | .slowtimo _ => fun i => if i ∈ s.list .active ∨ i ∈ s.list .timewait then g i - 1 else g i
  | _ => g

def timed : Machine (Sys × Timers) Act Fault := own.record (fun _ g => g = fun _ => 0) synAfter

def OnTime (x : Sys × Timers) : Act → Prop
  | .slowtimo expires => ∀ i ∈ x.1.list .active ++ x.1.list .timewait, expires i .syn = decide (x.2 i = 1)
  | _ => True

instance (x : Sys × Timers) : (a : Act) → Decidable (OnTime x a)
  | .slowtimo _ => inferInstanceAs (Decidable (∀ i ∈ _, _ = _))
  | .socket .. | .close _ | .listen _ _ | .accept _ _ | .connect _ | .send .. | .recv _ _ | .setsockopt .. | .name _
  | .resume .. | .input .. | .sent _ _ | .fastimo => inferInstanceAs (Decidable True)

instance (x : Sys × Timers) (a : Act) : Decidable (timed.enabled x a) := inferInstanceAs (Decidable (enabled x.1 a))

/-! ## The backlog -/

/-- A connection that waits for `tcp_accept`, or for the end of its handshake. -/
def pending (st : TcpState) : Prop := st = .synRcvd ∨ st = .established

/-- `tcp_handle_listen` puts a pcb for the segment on the `acclist`. -/
def Accepted (s : Sys) (i : Nat) (e : Segment) (new : Nat) (isn : Seq) : Prop :=
  ∃ t m, step s (.input i e new isn) = .ok t ∧ t.pcb i = some m ∧ new ∈ m.acclist

structure Backlog (s : Sys) (g : Timers) : Prop where
  count : ∀ i n, s.pcb i = some n → n.conn.state = .listen → n.backcnt = n.acclist.length
  room : ∀ i n e new isn, s.pcb i = some n → n.conn.state = .listen → ValidSyn n e → n.acclist.length < n.backlog →
    s.pcb new = none → Accepted s i e new isn
  armed : ∀ i n, s.pcb i = some n → n.conn.state = .synRcvd → 0 < g i ∧ i ∈ s.list .active
  live : ∀ i n j m, s.pcb i = some n → n.conn.state = .listen → j ∈ n.acclist → s.pcb j = some m → pending m.conn.state

/-! ## What a step leaves of the books -/

variable {A : Prop} {s t u : Sys} {i j k : Nat} {n p m : Node} {a : Act} {g : Timers}
variable {f : Sys → Nat → Except Fault Sys}

def no : Fault → Prop := fun _ => False

/-- The pcb listens only if it did, with the same books, and no handshake begins. -/
structure SameBooks (n p : Node) : Prop where
  listens : p.conn.state = .listen →
    n.conn.state = .listen ∧ p.acclist = n.acclist ∧ p.backcnt = n.backcnt ∧ p.backlog = n.backlog
  handshake : p.conn.state = .synRcvd → n.conn.state = .synRcvd

def Kept (s t : Sys) : Prop := ∀ i p, t.pcb i = some p → ∃ n, s.pcb i = some n ∧ SameBooks n p

theorem SameBooks.refl (n : Node) : SameBooks n n := ⟨fun h => ⟨h, rfl, rfl, rfl⟩, id⟩

theorem SameBooks.trans (h1 : SameBooks n m) (h2 : SameBooks m p) : SameBooks n p := by
  refine ⟨fun h => ?_, fun h => h1.handshake (h2.handshake h)⟩
  obtain ⟨hm, ha, hc, hb⟩ := h2.listens h
  obtain ⟨hn, ha', hc', hb'⟩ := h1.listens hm
  exact ⟨hn, ha.trans ha', hc.trans hc', hb.trans hb'⟩

variable {c : Pcb}

theorem SameBooks.follows (h : Follows n.conn.state c.state) : SameBooks n { n with conn := c } := by
  refine ⟨fun hl => ⟨h.facts.2.2.2.1 hl, rfl, rfl, rfl⟩, fun hr => ?_⟩
  rcases h with h | ⟨h, -⟩ | ⟨fin, h⟩
  · exact h.symm.trans hr
  · exact absurd (h.symm.trans hr) (by decide)
  · rw [hr] at h
    rcases Tcp.TcpState.next_early h (by decide) with h | ⟨-, h⟩ | ⟨h, -⟩
    · exact h.symm
    · exact absurd h (by decide)
    · exact absurd h (by decide)

theorem SameBooks.leaves (h1 : p.conn.state ≠ .listen) (h2 : p.conn.state ≠ .synRcvd) : SameBooks n p :=
  ⟨fun h => absurd h h1, fun h => absurd h h2⟩

theorem Kept.refl (s : Sys) : Kept s s := fun _ p h => ⟨p, h, .refl p⟩

theorem Kept.trans (h1 : Kept s t) (h2 : Kept t u) : Kept s u := by
  intro i p hp
  obtain ⟨m, hm, hmp⟩ := h2 i p hp
  obtain ⟨n, hn, hnm⟩ := h1 i m hm
  exact ⟨n, hn, hnm.trans hmp⟩

theorem Kept.set (hi : s.pcb i = some n) (h : SameBooks n p) : Kept s (s.set i p) := by
  intro j q hq
  by_cases hj : j = i
  · subst hj
    obtain rfl := Option.some.inj (set_same.symm.trans hq)
    exact ⟨n, hi, h⟩
  · exact ⟨q, (set_ne hj).symm.trans hq, .refl q⟩

theorem Kept.state (hi : s.pcb i = some n) (h : c.state = n.conn.state) : Kept s (s.set i { n with conn := c }) :=
  .set hi (.follows (.inl h))

variable {l : List Nat}

theorem Dropped.kept (h : Dropped s l t) : Kept s t := by
  intro j p hp
  rw [h.pcb] at hp
  split at hp
  · cases hp
  · exact ⟨p, hp, .refl p⟩

/-! ## System calls -/

theorem tcpClose_kept (h : Inv A none s) (hk : s.sock k = some i) (hw : ∀ y ∈ s.waiting, y.1 ≠ k) :
    Sat no (tcpClose s k) (Kept s) := by
  obtain ⟨n, hn, hst, -, -⟩ := h.held hk
  obtain ⟨hu, -⟩ := h.unsock hk hw
  have hput : Sat no (tcpPcbPut (Sys.pcbs { s with sock := update s.sock k none } + 1)
      { s with sock := update s.sock k none } i) (Dropped { s with sock := update s.sock k none } (i :: n.acclist)) :=
    put_sat hu (fun _ => False.elim) hn
  have halone : connected n.conn.state → Sat no (conn (Tcp.tcpClose n.conn) >>= fun c =>
      pure (Sys.set { s with sock := update s.sock k none } i { n with conn := c })) (Kept s) := by
    intro hc
    refine (conn_sat fun _ => False.elim).bind fun c _ hd => Sat.ok (Kept.set hn (.leaves ?_ ?_))
    · show c.state ≠ .listen
      rcases close_conn hc hd with e | e <;> rw [e] <;> decide
    · show c.state ≠ .synRcvd
      rcases close_conn hc hd with e | e <;> rw [e] <;> decide
  refine ofSock_bind hk (deref_bind hn ?_)
  rcases hst with e | e | e | e | e <;> rw [e] at halone ⊢
  · exact hput.mono fun t ht => ht.kept
  · exact hput.mono fun t ht => ht.kept
  · exact hput.mono fun t ht => ht.kept
  · exact halone (by decide)
  · exact halone (by decide)

theorem tcpConnect_kept (hk : s.sock k = some i) (hi : s.pcb i = some n) : Sat no (tcpConnect s k) (Kept s) := by
  refine ofSock_bind hk (deref_bind hi ?_)
  split
  · exact Sat.ok (.refl s)
  rename_i hst
  refine (conn_sat fun _ => False.elim).bind fun c _ hc => Sat.ok (Kept.set hi (.leaves ?_ ?_))
  · show c.state ≠ .listen
    rw [connect_state (not_not.1 hst) hc]; decide
  · show c.state ≠ .synRcvd
    rw [connect_state (not_not.1 hst) hc]; decide

theorem tcpSendmsg_kept {iov : List ((Nat → UInt8) × Nat)} {flags : Flags} (hk : s.sock k = some i)
    (hi : s.pcb i = some n) : Sat no (tcpSendmsg s k iov flags) (Kept s) := by
  refine ofSock_bind hk (deref_bind hi ?_)
  split
  · exact Sat.ok (.refl s)
  refine (conn_sat fun _ => False.elim).bind fun c _ hc => ?_
  have hkept : Kept s (s.set i { n with conn := c }) := .state hi (Tcp.tcpSendmsg_recv hc).state
  split
  · exact Sat.ok hkept
  · exact Sat.ok hkept

theorem recvQueued_kept {sizes : List Nat} {y : Pcb × List Iovec} (hi : s.pcb i = some n)
    (hc : Tcp.recvQueued n.conn (sizes.map fun n => ⟨[], n⟩) = .ok y) : Kept s (s.set i { n with conn := y.1 }) :=
  .state hi (@Tcp.recvQueued_loop _ y.1 _ y.2 hc).2.1

theorem tcpRecvmsg_kept {sizes : List Nat} (hk : s.sock k = some i) (hi : s.pcb i = some n) :
    Sat no (tcpRecvmsg s k sizes) (Kept s) := by
  refine ofSock_bind hk (deref_bind hi ?_)
  split
  · exact Sat.ok (.refl s)
  refine (conn_sat fun _ => False.elim).bind fun y _ hy => Sat.ok ?_
  rcases Tcp.tcpRecvmsg_cases hy with e | e
  · exact .state hi (congrArg Pcb.state e)
  · exact recvQueued_kept hi e

/-! ## The timer tasks -/

def Flat (s : Sys) : Prop := ∀ i n, s.pcb i = some n → n.conn.state ≠ .listen → n.acclist = []

theorem Inv.flat {x : Option Nat} (h : Inv A x s) : Flat s := fun _ _ hi => h.acclist_nil hi

theorem Flat.set (h : Flat s) (hp : p.conn.state ≠ .listen → p.acclist = []) : Flat (s.set i p) := by
  intro j q hq
  by_cases hj : j = i
  · subst hj
    obtain rfl := Option.some.inj (set_same.symm.trans hq)
    exact hp
  · exact h j q ((set_ne hj).symm.trans hq)

theorem Dropped.flat (h : Dropped s l t) (hs : Flat s) : Flat t := by
  intro j p hp
  rw [h.pcb] at hp
  split at hp
  · cases hp
  · exact hs j p hp

/-- A round works on a pcb that did not listen when it began. -/
structure Rounded (s : Sys) (i : Nat) (u : Sys) : Prop where
  kept : Kept s u
  flat : Flat u
  quiet : ∀ n, u.pcb i = some n → n.conn.state ≠ .listen

theorem Rounded.set (h : Rounded s i u) (hi : u.pcb i = some n) (hb : SameBooks n p) (hacc : p.acclist = n.acclist) :
    Rounded s i (u.set i p) := by
  have hst := h.quiet n hi
  refine ⟨h.kept.trans (.set hi hb), h.flat.set fun _ => hacc.trans (h.flat i n hi hst), fun q hq => ?_⟩
  obtain rfl := Option.some.inj (set_same.symm.trans hq)
  exact fun e => hst (hb.listens e).1

theorem Rounded.dropped (h : Rounded s i u) (hd : Dropped u l t) : Rounded s i t := by
  refine ⟨h.kept.trans hd.kept, hd.flat h.flat, fun n hn => ?_⟩
  rw [hd.pcb] at hn
  split at hn
  · cases hn
  · exact h.quiet n hn

theorem tcpTick_rounded {expires : TcpTimer → Bool} (type : TcpTimer) (h : Rounded s i u) :
    Sat no (tcpTick expires i u type) (Rounded s i) := by
  cases hi : u.pcb i with
  | none =>
    unfold tcpTick Sys.deref
    rw [hi]
    exact Sat.error id
  | some n =>
    have hst := h.quiet n hi
    have hput : ∀ p : Node, p.acclist = n.acclist → Sat no (tcpPcbPut ((u.set i p).pcbs + 1) (u.set i p) i) (Rounded s i) := by
      intro p hp
      refine (put_leaf (fun _ => False.elim) _ set_same (hp.trans (h.flat i n hi hst))).mono fun t ht => ?_
      exact h.dropped (ht.set (mem_singleton.2 rfl))
    have htimeout : Sat no (if expires type then tcpTimeout u i n type else pure u) (Rounded s i) := by
      split
      · unfold tcpTimeout
        refine (conn_sat fun _ => False.elim).bind fun c _ hc => ?_
        have hset : Rounded s i (u.set i { n with conn := c }) := by
          refine h.set hi (.follows ?_) rfl
          rcases timeout_state hc with e | e
          · exact .inl e
          · exact .inr (.inl ⟨e, hst⟩)
        split
        · refine (purge_sat hi (h.flat i n hi hst)).mono fun t ht => ?_
          subst ht; exact hset
        · exact Sat.ok hset
      · exact Sat.ok h
    refine deref_bind hi ?_
    cases type with
    | finWait2 =>
      dsimp only
      split
      · exact hput _ rfl
      · exact Sat.ok (h.set hi ⟨fun e => absurd e hst, id⟩ rfl)
    | timewait =>
      dsimp only
      split
      · exact hput _ rfl
      · exact Sat.ok (h.set hi ⟨fun e => absurd e hst, id⟩ rfl)
    | syn | rexmit | persist | keepalive => exact htimeout

theorem slowPcb_rounded {expires : Nat → TcpTimer → Bool} (h : Rounded s i u) : Sat no (slowPcb expires u i) (Rounded s i) := by
  cases hi : u.pcb i with
  | none =>
    unfold slowPcb Sys.deref
    rw [hi]
    exact Sat.error id
  | some n =>
    refine deref_bind hi (foldlM_sat _ _ (fun v type _ hv => tcpTick_rounded type hv) ?_)
    exact h.set hi (.follows (.inl rfl)) rfl

theorem fastPcb_rounded (h : Rounded s i u) : Sat no (fastPcb u i) (Rounded s i) := by
  cases hi : u.pcb i with
  | none =>
    unfold fastPcb Sys.deref
    rw [hi]
    exact Sat.error id
  | some n =>
    refine deref_bind hi ((conn_sat fun _ => False.elim).bind fun c _ hc => Sat.ok ?_)
    exact h.set hi (.follows (.inl (Tcp.tcpFastimo_recv hc).state)) rfl

theorem loop_kept (hf : ∀ i u, Rounded s i u → Sat no (f u i) (Rounded s i)) (l : List Nat)
    (hl : ∀ i ∈ l, ∀ n, s.pcb i = some n → n.conn.state ≠ .listen) (hk : Kept s u) (hu : Flat u) :
    Sat no (l.foldlM f u) fun t => Kept s t ∧ Flat t := by
  refine foldlM_sat l u (fun v i hi hv => ?_) ⟨hk, hu⟩
  refine (hf i v ⟨hv.1, hv.2, fun p hp e => ?_⟩).mono fun t ht => ⟨ht.kept, ht.flat⟩
  obtain ⟨n, hn, hb⟩ := hv.1 i p hp
  exact hl i hi n hn (hb.listens e).1

theorem round_kept (h : Inv A none s)
    (hf : ∀ t i u, Rounded t i u → Sat no (f u i) (Rounded t i))
    (hr : ∀ u i n, Inv A none u → u.pcb i = some n → True → n.conn.state ≠ .listen → Sat no (f u i) (Round A [i] u)) :
    Sat no ((s.list .active).foldlM f s >>= fun t => (t.list .timewait).foldlM f t) (Kept s) := by
  have hquiet : ∀ t w, Inv A none t → w ≠ .listen → ∀ i ∈ t.list w, ∀ n, t.pcb i = some n → n.conn.state ≠ .listen := by
    intro t w ht hw i hi n hn
    obtain ⟨m, hm, hst⟩ := ht.on hi hw
    obtain rfl := Option.some.inj (hn.symm.trans hm)
    exact hst
  refine (loop_kept (hf s) _ (hquiet s .active h nofun) (.refl s) h.flat).bind fun t ht hk => ?_
  have hround := round_sat hr _ s h (h.nodup .active) fun j hj => ?_
  have hinv := (hround.of_ok ht).inv
  refine (loop_kept (hf t) _ (hquiet t .timewait hinv nofun) (.refl t) hinv.flat).mono fun u hu => hk.1.trans hu.1
  obtain ⟨m, hm, hst⟩ := h.on hj nofun
  exact ⟨m, hm, trivial, hst⟩

theorem tcpSlowtimo_kept {expires : Nat → TcpTimer → Bool} (h : Inv A none s) : Sat no (tcpSlowtimo s expires) (Kept s) :=
  round_kept h (fun _ _ _ => slowPcb_rounded) fun _ _ _ hu hi _ hst => slowPcb_sat (fun _ => False.elim) hu hi hst fun _ => id

theorem tcpFastimo_kept (h : Inv A none s) : Sat no (tcpFastimo s) (Kept s) :=
  round_kept h (fun _ _ _ => fastPcb_rounded) fun _ _ _ hu hi _ _ => fastPcb_sat (fun _ => False.elim) hu hi

/-! ## An incoming segment -/

theorem tcpPcbTimewait_kept (hi : s.pcb i = some n) (hn : n.acclist = []) (hc : c.state = .timeWait) :
    Sat no (tcpPcbTimewait s i c) (Kept s) := by
  refine (purge_sat hi hn).bind fun t _ ht => ?_
  subst ht
  refine deref_bind set_same (Sat.ok ?_)
  refine (Kept.set hi (p := { n with conn := c }) (.leaves ?_ ?_)).trans (Kept.set set_same ⟨fun e => ⟨e, rfl, rfl, rfl⟩, id⟩)
  · show c.state ≠ .listen
    rw [hc]; decide
  · show c.state ≠ .synRcvd
    rw [hc]; decide

theorem settle_kept {fin : Bool} (h : Inv A none s) (hi : s.pcb i = some n)
    (hn : c.state ∈ n.conn.state.next fin) : Sat no (settle s i n.conn.state c) (Kept s) := by
  have hset : Kept s (s.set i { n with conn := c }) := .set hi (.follows (.inr (.inr ⟨fin, hn⟩)))
  refine deref_bind hi ?_
  split
  · rename_i hb hc
    have hnil : n.acclist = [] := h.acclist_nil hi (by rw [hb]; decide)
    exact (put_leaf (n := { n with conn := c }) (fun _ => False.elim) _ set_same hnil).mono fun t ht => hset.trans ht.kept
  · rename_i hb hc
    refine Sat.ok (Kept.set hi (.leaves ?_ ?_))
    · show c.state ≠ .listen
      rw [hc]; decide
    · show c.state ≠ .synRcvd
      rw [hc]; decide
  · exact Sat.ok hset
  · rename_i hc hne
    refine tcpPcbTimewait_kept hi (h.acclist_nil hi fun e => ?_) hc
    have hcl := @next_timeWait fin _ (hc ▸ hn)
    rw [e] at hcl
    exact absurd hcl (by decide)
  · exact Sat.ok hset

variable {e : Segment}

theorem received_state {d : Pcb} {l : List Tcp.TcpOpt} {ok : Bool} (hp : Tcp.tcpParseOption n.conn l = (c, ok))
    (hd : (if e.flags.has Tcp.tcpAck ∧ c.state ≠ .timeWait then Tcp.tcpReceive { c with idle := 0 } e
      else .ok { c with idle := 0 }) = .ok d) :
    d.state = n.conn.state := by
  have hc : c.state = n.conn.state := by
    have := (Tcp.tcpParseOption_recv l n.conn).state
    rw [hp] at this
    exact this
  split at hd
  · exact (tcpReceive_state hd).trans hc
  · cases hd; exact hc

variable {new : Nat} {isn : Seq}

theorem accepts_input (hi : s.pcb i = some n) :
    accepts s (.input i e new isn) = decide (n.conn.state = .listen ∧ ValidSyn n e ∧ n.backcnt ≠ n.backlog) := by
  unfold accepts
  dsimp only
  rw [hi]; rfl

theorem input_kept (h : Inv A none s) (hi : s.pcb i = some n)
    (hno : accepts s (.input i e new isn) = false) : Sat no (tcpInput s i e new isn) (Kept s) := by
  have hno : ¬ (n.conn.state = .listen ∧ ValidSyn n e ∧ n.backcnt ≠ n.backlog) := by
    rw [accepts_input hi] at hno
    exact of_decide_eq_false hno
  refine deref_bind hi ?_
  split
  · exact Sat.ok (.refl s)
  split
  · exact Sat.ok (.refl s)
  split
  · unfold tcpHandleReset
    split
    · exact Sat.ok (.refl s)
    rename_i hlt
    have hst : n.conn.state ≠ .listen := fun e => hlt (by rw [e]; decide)
    refine (conn_sat fun _ => False.elim).bind fun d _ hd => ?_
    refine (purge_sat hi (h.acclist_nil hi hst)).mono fun t ht => ?_
    subst ht
    exact .set hi (.follows (.inr (.inl ⟨reset_state hlt hd, hst⟩)))
  · generalize hp : Tcp.tcpParseOption n.conn e.options = r
    dsimp only
    split
    · refine Sat.ok (.state hi ?_)
      have := (Tcp.tcpParseOption_recv e.options n.conn).state
      rw [hp] at this
      exact this
    rename_i hok
    refine (conn_sat fun _ => False.elim).bind fun d _ hd => ?_
    have hd' : d.state = n.conn.state := received_state hp hd
    split
    · rename_i hl
      have hset : Kept s (s.set i { n with conn := d }) := .state hi hd'
      refine deref_bind hi ?_
      split
      · exact Sat.ok hset
      rename_i hsyn
      split
      · exact Sat.ok hset
      rename_i hb
      have hv : ValidSyn n e := by
        refine ⟨not_not.1 hsyn, ?_⟩
        rw [hp]
        exact not_not.1 hok
      exact absurd ⟨hd'.symm.trans hl, hv, hb⟩ hno
    · refine (conn_sat fun _ => False.elim).bind fun f _ hf => ?_
      have hnext := (Tcp.processState_recv hf).next
      rw [hd'] at hnext ⊢
      exact settle_kept h hi hnext

/-- A new pcb on the `acclist` of the listener, counted. -/
structure Spawned (s : Sys) (i : Nat) (n : Node) (new : Nat) (t : Sys) : Prop where
  listener : ∃ m, t.pcb i = some m ∧ m.conn.state = .listen ∧ m.acclist = new :: n.acclist ∧ m.backcnt = n.backcnt + 1 ∧
    m.backlog = n.backlog
  child : ∃ m, t.pcb new = some m ∧ m.conn.state = .synRcvd
  others : ∀ j, j ≠ i → j ≠ new → t.pcb j = s.pcb j

theorem enqueue_control {flags : Flags} (hbuf : c.sndBuf = none) (hun : c.unsent = [] ∧ c.unacked = [] ∧ c.recved = [])
    (hmss : Tcp.tcpDefaultMss ≤ c.sndMss) :
    ∃ d p, Tcp.tcpEnqueue c (fun _ => 0) 0 flags = .ok d ∧ d.unsent = [p] ∧ p.count = 1 := by
  obtain ⟨h1, h2, h3⟩ := hun
  have hpos : (0 : Int) < c.sndMss := Int.ofNat_lt.2 (Nat.lt_of_lt_of_le (by decide) hmss)
  have hq : (Tcp.enqueueBuf c flags).size = 0 ∧ (Tcp.enqueueBuf c flags).count = 1 := by
    unfold Tcp.enqueueBuf
    rw [hbuf]
    exact ⟨rfl, rfl⟩
  have hlen : Tcp.enqueueLen c (Tcp.enqueueBuf c flags) 0 = 0 := by
    unfold Tcp.enqueueLen
    rw [hq.1, if_pos (by omega)]
  have hcount : ∀ q : Tcp.Pbuf, (Tcp.fillBuf (fun _ => 0) 0 0 0 flags q).count = q.count := by
    intro q
    unfold Tcp.fillBuf
    dsimp only
    split <;> rfl
  have hroom : ¬ (c.sndBuf = none ∧ Tcp.pbufMax ≤ c.unsent.length + c.unacked.length + c.recved.length) := by
    rw [h1, h2, h3]
    exact fun h => absurd h.2 (by decide)
  have hseg : ∃ d p, Tcp.tcpEnqueueSeg (fun _ => 0) 0 0 0 flags c = .ok (d, 0) ∧ d.unsent = [p] ∧ p.count = 1 := by
    unfold Tcp.tcpEnqueueSeg
    rw [if_neg hroom]
    rw [hlen, if_neg (fun h => absurd h.2.2 (by decide)), h1]
    exact ⟨_, _, rfl, rfl, (hcount _).trans hq.2⟩
  obtain ⟨d, p, hd, hu, hp⟩ := hseg
  refine ⟨d, p, ?_, hu, hp⟩
  unfold Tcp.tcpEnqueue
  rw [if_neg (Nat.not_lt.2 hmss)]
  show Tcp.enqueueLoop (fun _ => 0) 0 flags (Tcp.tcpMaxWindow + 1 + 1) 0 0 c = _
  unfold Tcp.enqueueLoop
  rw [hd]
  rfl

theorem output_one {p : Tcp.Pbuf} (hu : c.unsent = [p]) (hp : p.count = 1) : ∃ d, Tcp.tcpOutput c = .ok d := by
  have hun : (Tcp.slowStart c).unsent = [p] := by
    unfold Tcp.slowStart
    split <;> exact hu
  unfold Tcp.tcpOutput
  dsimp only
  split
  · exact ⟨_, rfl⟩
  have hloop : ∃ d, Tcp.outputLoop (Tcp.outputWnd (Tcp.slowStart c)) [p] (Tcp.slowStart c) = .ok d := by
    unfold Tcp.outputLoop
    dsimp only
    split
    · exact ⟨_, rfl⟩
    · rw [if_neg (not_not.2 hp)]
      exact ⟨_, rfl⟩
  obtain ⟨d, hd⟩ := hloop
  rw [hun, hd]
  show ∃ d', (if d.ackNow = true then pure (Tcp.tcpSendAck d Tcp.tcpAck) else pure d : Except Tcp.Fault Pcb) = .ok d'
  split
  · exact ⟨_, rfl⟩
  · exact ⟨_, rfl⟩

theorem spawn_ok (isn : Seq) (mss : Nat) (e : Segment) : ∃ d, Tcp.tcpHandleListen isn mss e = .ok d := by
  have hmss : Tcp.tcpDefaultMss ≤ if mss < Tcp.tcpDefaultMss then Tcp.tcpDefaultMss else mss := by
    split
    · exact Nat.le_refl _
    · rename_i h; exact Nat.le_of_not_lt h
  obtain ⟨d, p, hd, hu, hp⟩ := @enqueue_control { Tcp.tcpPcbGet isn with
    state := .synRcvd, sndWnd := e.window, sndMss := if mss < Tcp.tcpDefaultMss then Tcp.tcpDefaultMss else mss
    rcvNxt := e.seqno + 1 } (Tcp.tcpSyn ||| Tcp.tcpAck) rfl ⟨rfl, rfl, rfl⟩ hmss
  unfold Tcp.tcpHandleListen
  dsimp only
  rw [hd]
  exact output_one hu hp

theorem input_accepts (hi : s.pcb i = some n) (hnew : s.pcb new = none)
    (ha : accepts s (.input i e new isn) = true) : ∃ t, step s (.input i e new isn) = .ok t ∧ Spawned s i n new t := by
  rw [accepts_input hi] at ha
  obtain ⟨hl, ⟨hsyn, hopt⟩, hb⟩ := of_decide_eq_true ha
  have hne : new ≠ i := by
    rintro rfl
    rw [hi] at hnew; cases hnew
  generalize hp : Tcp.tcpParseOption n.conn e.options = r at hopt
  obtain ⟨c, ok⟩ := r
  obtain rfl : ok = true := hopt
  have hc : c.state = .listen := by
    have := (Tcp.tcpParseOption_recv e.options n.conn).state
    rw [hp] at this
    exact this.trans hl
  obtain ⟨d, hd⟩ := spawn_ok isn c.sndMss e
  have hflags : ¬ (e.flags.has Tcp.tcpAck ∧ c.state ≠ .timeWait) ∧ ¬ e.flags.has Tcp.tcpRst ∧ Tcp.tcpValidate n.conn e := by
    unfold Tcp.tcpValidate
    rw [hsyn]
    exact ⟨fun h => absurd h.1 (by decide), by decide, decide_eq_true (.inl (by decide))⟩
  have hstep : step s (.input i e new isn) = .ok (((((s.set i { n with conn := { c with idle := 0 } }).set i
      { n with conn := { c with idle := 0 }, acclist := new :: n.acclist, backcnt := n.backcnt + 1 }).set new
        (fresh d (some i))).push .active new)) := by
    show tcpInput s i e new isn = _
    unfold tcpInput
    rw [deref_ok hi]
    show (if _ then _ else _) = _
    rw [if_neg (not_not.2 hflags.2.2), if_neg (by rw [hl]; decide), if_neg hflags.2.1, hp]
    show tcpProcess s i { c with idle := 0 } e new isn = _
    unfold tcpProcess
    rw [if_neg hflags.1]
    show (if c.state = .listen then tcpHandleListen s i { c with idle := 0 } e new isn else _) = _
    rw [if_pos hc]
    unfold tcpHandleListen
    rw [deref_ok hi]
    show (if _ then _ else _) = _
    rw [if_neg (not_not.2 hsyn), if_neg hb, hd]
    rfl
  refine ⟨_, hstep, ⟨{ n with conn := { c with idle := 0 }, acclist := new :: n.acclist, backcnt := n.backcnt + 1 }, ?_,
    hc, rfl, rfl, rfl⟩, ⟨fresh d (some i), set_same, spawn_state hd⟩, fun j hji hjn => ?_⟩
  · exact (set_ne hne.symm).trans set_same
  · exact (set_ne hjn).trans ((set_ne hji).trans (set_ne hji))

/-! ## The steps that change the books -/

inductive Booked (s : Sys) (a : Act) (t : Sys) : Prop
  | kept (ha : accepts s a = false) (ht : takes s a = false) (h : Kept s t)
  | opened (new : Nat) (c : Pcb) (ha : accepts s a = false) (ht : takes s a = false) (hnew : s.pcb new = none)
      (hc : c.state = .closed) (h : t.pcb = (s.set new (fresh c none)).pcb)
  | listens (i : Nat) (n p : Node) (ha : accepts s a = false) (ht : takes s a = false) (hi : s.pcb i = some n)
      (hn : n.conn.state = .closed) (hp : p.conn.state = .listen ∧ p.acclist = n.acclist ∧ p.backcnt = 0)
      (h : t.pcb = (s.set i p).pcb)
  | accepted (i new : Nat) (n : Node) (e : Segment) (isn : Seq) (he : a = .input i e new isn) (ha : accepts s a = true)
      (ht : takes s a = false) (hi : s.pcb i = some n) (h : Spawned s i n new t)
  | taken (i j : Nat) (n : Node) (ha : accepts s a = false) (ht : takes s a = true) (hi : s.pcb i = some n) (hj : j ∈ n.acclist)
      (h : t.pcb = (s.set i { n with acclist := n.acclist.erase j }).pcb)

theorem tcpListen_booked {backlog : Nat} (hk : s.sock k = some i) (hi : s.pcb i = some n) :
    Sat no (tcpListen s k backlog) (Booked s (.listen k backlog)) := by
  refine ofSock_bind hk (deref_bind hi ?_)
  split
  · exact Sat.ok (.kept rfl rfl (.refl s))
  rename_i hst
  exact Sat.ok (.listens i n { n with conn := { n.conn with state := .listen }, backcnt := 0, backlog := backlog } rfl rfl hi
    (not_not.1 hst) ⟨rfl, rfl, rfl⟩ rfl)

theorem tcpAccept_booked {ns : Nat} (hk : s.sock k = some i) (hi : s.pcb i = some n) :
    Sat no (tcpAccept s k ns) (Booked s (.accept k ns)) := by
  have htakes : takes s (.accept k ns) = (decide (n.conn.state = .listen ∧ n.backlog ≠ 0) && (tcpFindNpcb s n).isSome) := by
    unfold takes
    dsimp only
    rw [hk]
    show (s.pcb i).any _ = _
    rw [hi]; rfl
  refine ofSock_bind hk (deref_bind hi ?_)
  split
  · rename_i hc
    refine Sat.ok (.kept rfl ?_ (.refl s))
    rw [htakes, decide_eq_false fun h => hc.elim (absurd h.1) (absurd · h.2)]
    rfl
  rename_i hc
  obtain ⟨hl, hb⟩ := not_or.1 hc
  split
  · rename_i j hj
    refine Sat.ok (.taken i j n rfl ?_ hi (mem_of_find?_eq_some hj) rfl)
    rw [htakes, hj, decide_eq_true ⟨not_not.1 hl, hb⟩]
    rfl
  · rename_i hj
    refine Sat.ok (.kept rfl ?_ (.refl s))
    rw [htakes, hj, Bool.and_comm]
    rfl

theorem resume_booked {r : Resume} (hi : s.pcb i = some n) : Sat no (resume s k i r) (Booked s (.resume k i r)) := by
  refine deref_bind (s := { s with waiting := s.waiting.erase (k, i) }) hi ?_
  cases r with
  | done => exact Sat.ok (.kept rfl rfl (.refl s))
  | accept ns =>
    dsimp only
    split
    · rename_i j hj
      refine Sat.ok (.taken i j n rfl ?_ hi (mem_of_find?_eq_some hj) rfl)
      unfold takes
      dsimp only
      rw [hi]
      show (tcpFindNpcb s n).isSome = true
      rw [show tcpFindNpcb s n = some j from hj]
      rfl
    · exact Sat.error id
  | recv sizes => exact (conn_sat fun _ => False.elim).bind fun y _ hy => Sat.ok (.kept rfl rfl (recvQueued_kept hi hy))

theorem step_booked (h : Inv A none s) (he : enabled s a) : Sat no (step s a) (Booked s a) := by
  have hsock : ∀ k, s.sock k ≠ none → ∃ i n, s.sock k = some i ∧ s.pcb i = some n := by
    intro k hk
    obtain ⟨i, hi⟩ := Option.ne_none_iff_exists'.1 hk
    obtain ⟨n, hn, -⟩ := h.held hi
    exact ⟨i, n, hi, hn⟩
  cases a with
  | socket k new isn => exact Sat.ok (.opened new _ rfl rfl he.2 rfl rfl)
  | close k =>
    obtain ⟨i, n, hk, -⟩ := hsock k he.1
    exact (tcpClose_kept h hk he.2).mono fun t ht => .kept rfl rfl ht
  | listen k backlog =>
    obtain ⟨i, n, hk, hi⟩ := hsock k he.1
    exact tcpListen_booked hk hi
  | accept k ns =>
    obtain ⟨i, n, hk, hi⟩ := hsock k he.1
    exact tcpAccept_booked hk hi
  | connect k =>
    obtain ⟨i, n, hk, hi⟩ := hsock k he
    exact (tcpConnect_kept hk hi).mono fun t ht => .kept rfl rfl ht
  | send k iov flags =>
    obtain ⟨i, n, hk, hi⟩ := hsock k he
    exact (tcpSendmsg_kept hk hi).mono fun t ht => .kept rfl rfl ht
  | recv k sizes =>
    obtain ⟨i, n, hk, hi⟩ := hsock k he
    exact (tcpRecvmsg_kept hk hi).mono fun t ht => .kept rfl rfl ht
  | setsockopt k opt val =>
    obtain ⟨i, n, hk, hi⟩ := hsock k he
    refine ofSock_bind hk (deref_bind hi (Sat.ok (.kept rfl rfl (.state hi ?_))))
    cases opt <;> rfl
  | name k =>
    obtain ⟨i, n, hk, hi⟩ := hsock k he
    exact ofSock_bind hk (deref_bind hi (Sat.ok (.kept rfl rfl (.refl s))))
  | resume k i r =>
    have hw : (k, i) ∈ s.waiting := by
      cases r with
      | done | recv _ => exact he
      | accept _ => exact he.1
    obtain ⟨n, hn, -⟩ := h.held (h.waiting _ hw)
    exact resume_booked hn
  | input i e new isn =>
    have hon : ∃ w, i ∈ s.list w := by
      rcases he.1 with hi | hi | hi
      · exact ⟨_, hi⟩
      · exact ⟨_, hi⟩
      · exact ⟨_, hi⟩
    obtain ⟨n, hn⟩ := Option.ne_none_iff_exists'.1 ((h.listed i).2 hon)
    cases ha : accepts s (.input i e new isn) with
    | false => exact (input_kept h hn ha).mono fun t ht => .kept ha rfl ht
    | true =>
      obtain ⟨t, hs, ht⟩ := input_accepts hn he.2 ha
      rw [hs]
      exact Sat.ok (.accepted i new n e isn rfl ha rfl hn ht)
  | sent i place =>
    cases hn : s.pcb i with
    | none =>
      show Sat no (s.deref i >>= _) _
      unfold Sys.deref
      rw [hn]
      exact Sat.error id
    | some n => exact deref_bind hn (Sat.ok (.kept rfl rfl (.state (c := Tcp.deviceSent n.conn place) hn rfl)))
  | slowtimo expires => exact (tcpSlowtimo_kept h).mono fun t ht => .kept rfl rfl ht
  | fastimo => exact (tcpFastimo_kept h).mono fun t ht => .kept rfl rfl ht

/-! ## Every run -/

def Counted (s : Sys) : Prop := ∀ i n, s.pcb i = some n → n.conn.state = .listen → n.backcnt = n.acclist.length

/-- What is left of the count in every run: no pcb is missed, the backlog bounds them, and no handshake has its
timer armed. -/
structure Ledger (s : Sys) (g : Timers) : Prop where
  counted : ∀ i n, s.pcb i = some n → n.conn.state = .listen → n.acclist.length ≤ n.backcnt ∧ n.backcnt ≤ n.backlog
  unarmed : ∀ i n, s.pcb i = some n → n.conn.state = .synRcvd → g i = 0

def Quiet (s : Sys) : Prop := ∀ i n, s.pcb i = some n → n.conn.state ≠ .synRcvd ∧
  (n.conn.state = .listen → n.acclist = [] ∧ n.backcnt = 0)

theorem set_cases (h : (s.set i p).pcb j = some n) : (j = i ∧ n = p) ∨ (j ≠ i ∧ s.pcb j = some n) := by
  by_cases hj : j = i
  · subst hj
    exact .inl ⟨rfl, (Option.some.inj (set_same.symm.trans h)).symm⟩
  · exact .inr ⟨hj, (set_ne hj).symm.trans h⟩

theorem Spawned.cases (h : Spawned s i n new t) (hj : t.pcb j = some m) :
    (j = i ∧ m.conn.state = .listen ∧ m.acclist = new :: n.acclist ∧ m.backcnt = n.backcnt + 1 ∧ m.backlog = n.backlog) ∨
      (j = new ∧ m.conn.state = .synRcvd) ∨ (j ≠ i ∧ j ≠ new ∧ s.pcb j = some m) := by
  by_cases hji : j = i
  · subst hji
    obtain ⟨p, hp, hrest⟩ := h.listener
    obtain rfl := Option.some.inj (hj.symm.trans hp)
    exact .inl ⟨rfl, hrest⟩
  by_cases hjn : j = new
  · subst hjn
    obtain ⟨p, hp, hst⟩ := h.child
    obtain rfl := Option.some.inj (hj.symm.trans hp)
    exact .inr (.inl ⟨rfl, hst⟩)
  · exact .inr (.inr ⟨hji, hjn, (h.others j hji hjn).symm.trans hj⟩)

/-- What the books of a listener were before a step. -/
inductive Listens (s : Sys) (a : Act) (j : Nat) (p : Node) : Prop
  | same (n : Node) (hi : s.pcb j = some n) (hl : n.conn.state = .listen)
      (h : p.acclist = n.acclist ∧ p.backcnt = n.backcnt ∧ p.backlog = n.backlog)
  | empty (n : Node) (hi : s.pcb j = some n) (hn : n.conn.state = .closed) (h : p.acclist = [] ∧ p.backcnt = 0)
  | more (n : Node) (new : Nat) (ha : accepts s a = true) (hi : s.pcb j = some n) (hl : n.conn.state = .listen)
      (hb : n.backcnt ≠ n.backlog) (h : p.acclist = new :: n.acclist ∧ p.backcnt = n.backcnt + 1 ∧ p.backlog = n.backlog)
  | less (n : Node) (k : Nat) (ht : takes s a = true) (hi : s.pcb j = some n) (hl : n.conn.state = .listen) (hk : k ∈ n.acclist)
      (h : p.acclist = n.acclist.erase k ∧ p.backcnt = n.backcnt ∧ p.backlog = n.backlog)

theorem Booked.listens_of (hinv : Inv A none s) (hb : Booked s a t) (hj : t.pcb j = some p) (hl : p.conn.state = .listen) :
    Listens s a j p := by
  have hold : s.pcb j = some p → Listens s a j p := fun h => .same p h hl ⟨rfl, rfl, rfl⟩
  cases hb with
  | kept ha ht hk =>
    obtain ⟨n, hn, hsame⟩ := hk j p hj
    obtain ⟨hl', h⟩ := hsame.listens hl
    exact .same n hn hl' h
  | opened new c ha ht hnew hc he =>
    rw [he] at hj
    rcases set_cases hj with ⟨-, rfl⟩ | ⟨-, hj⟩
    · exact absurd (hc.symm.trans hl) nofun
    · exact hold hj
  | listens i n q ha ht hi hn hq he =>
    rw [he] at hj
    rcases set_cases hj with ⟨rfl, rfl⟩ | ⟨-, hj⟩
    · exact .empty n hi hn ⟨hq.2.1.trans (hinv.acclist_nil hi (by rw [hn]; decide)), hq.2.2⟩
    · exact hold hj
  | accepted i new n e isn he ha ht hi hs =>
    rcases hs.cases hj with ⟨rfl, -, h⟩ | ⟨-, h⟩ | ⟨-, -, hj⟩
    · have hacc := ha
      rw [he, accepts_input hi] at hacc
      obtain ⟨hl, -, hne⟩ := of_decide_eq_true hacc
      exact .more n new ha hi hl hne h
    · exact absurd (h.symm.trans hl) nofun
    · exact hold hj
  | taken i k n ha ht hi hk he =>
    rw [he] at hj
    rcases set_cases hj with ⟨rfl, rfl⟩ | ⟨-, hj⟩
    · exact .less n k ht hi hl hk ⟨rfl, rfl, rfl⟩
    · exact hold hj

theorem Booked.handshake (hb : Booked s a t) (hj : t.pcb j = some p) (hst : p.conn.state = .synRcvd) :
    (∃ n, s.pcb j = some n ∧ n.conn.state = .synRcvd) ∨ ∃ i e isn, a = .input i e j isn ∧ accepts s a = true := by
  cases hb with
  | kept ha ht hk =>
    obtain ⟨n, hn, hsame⟩ := hk j p hj
    exact .inl ⟨n, hn, hsame.handshake hst⟩
  | opened new c ha ht hnew hc he =>
    rw [he] at hj
    rcases set_cases hj with ⟨-, rfl⟩ | ⟨-, hj⟩
    · exact absurd (hc.symm.trans hst) nofun
    · exact .inl ⟨p, hj, hst⟩
  | listens i n q ha ht hi hn hq he =>
    rw [he] at hj
    rcases set_cases hj with ⟨-, rfl⟩ | ⟨-, hj⟩
    · exact absurd (hq.1.symm.trans hst) nofun
    · exact .inl ⟨p, hj, hst⟩
  | accepted i new n e isn he ha ht hi hs =>
    rcases hs.cases hj with ⟨-, h, -⟩ | ⟨rfl, -⟩ | ⟨hji, hjn, hj⟩
    · exact absurd (h.symm.trans hst) nofun
    · exact .inr ⟨i, e, isn, he, ha⟩
    · exact .inl ⟨p, hj, hst⟩
  | taken i k n ha ht hi hk he =>
    rw [he] at hj
    rcases set_cases hj with ⟨rfl, rfl⟩ | ⟨-, hj⟩
    · exact .inl ⟨n, hi, hst⟩
    · exact .inl ⟨p, hj, hst⟩

theorem synAfter_spawn (ha : accepts s (.input i e new isn) = true) :
    synAfter g s (.input i e new isn) t = update (update g i tcpToSyn) new 0 := by
  unfold synAfter
  dsimp only
  rw [if_pos ha]

theorem synAfter_zero (hi : s.pcb i = some n) (hst : n.conn.state = .synRcvd) (h0 : g i = 0) : synAfter g s a t i = 0 := by
  have hnew : ∀ (f : Timers) (new : Nat), f i = 0 → update f new 0 i = 0 := by
    intro f new hf
    by_cases h : i = new
    · rw [h, update_self]
    · rw [update_of_ne h, hf]
  -- the timer of a pcb in another state
  have harmed : ∀ k m, s.pcb k = some m → m.conn.state ≠ .synRcvd → update g k tcpToSyn i = 0 := by
    intro k m hm hne
    rw [update_of_ne, h0]
    rintro rfl
    obtain rfl := Option.some.inj (hi.symm.trans hm)
    exact hne hst
  cases a with
  | socket k new isn => exact hnew g new h0
  | connect k =>
    unfold synAfter
    dsimp only
    cases hk : s.sock k with
    | none => exact h0
    | some j =>
      dsimp only
      split
      · rename_i hcl
        obtain ⟨m, hm, hcl⟩ := (Option.any_eq_true ..).1 hcl
        exact harmed j m hm fun e => absurd ((of_decide_eq_true hcl).symm.trans e) nofun
      · exact h0
  | input j e new isn =>
    cases ha : accepts s (.input j e new isn) with
    | true =>
      rw [synAfter_spawn ha]
      obtain ⟨m, hm, hl⟩ := (Option.any_eq_true ..).1 ha
      exact hnew _ new (harmed j m hm fun e => absurd ((of_decide_eq_true hl).1.symm.trans e) nofun)
    | false =>
      unfold synAfter
      rw [ha]; exact h0
  | slowtimo expires =>
    unfold synAfter
    dsimp only
    split
    · rw [h0]
    · exact h0
  | _ => exact h0

theorem Ledger.step (hinv : Inv A none s) (h : Ledger s g) (hb : Booked s a t) : Ledger t (synAfter g s a t) := by
  refine ⟨fun j p hj hl => ?_, fun j p hj hst => ?_⟩
  · cases hb.listens_of hinv hj hl with
    | same n hi hn hp =>
      rw [hp.1, hp.2.1, hp.2.2]
      exact h.counted j n hi hn
    | empty n hi hn hp =>
      rw [hp.1, hp.2]
      exact ⟨Nat.le_refl _, Nat.zero_le _⟩
    | more n new ha hi hn hne hp =>
      obtain ⟨h1, h2⟩ := h.counted j n hi hn
      rw [hp.1, hp.2.1, hp.2.2, length_cons]
      omega
    | less n k ht hi hn hk hp =>
      obtain ⟨h1, h2⟩ := h.counted j n hi hn
      rw [hp.1, hp.2.1, hp.2.2]
      exact ⟨Nat.le_trans length_erase_le h1, h2⟩
  · rcases hb.handshake hj hst with ⟨n, hn, hn'⟩ | ⟨i, e, isn, rfl, ha⟩
    · exact synAfter_zero hn hn' (h.unarmed j n hn hn')
    · rw [synAfter_spawn ha, update_self]

theorem Counted.step (hinv : Inv A none s) (h : Counted s) (hb : Booked s a t) (ht : takes s a = false) : Counted t := by
  intro j p hj hl
  cases hb.listens_of hinv hj hl with
  | same n hi hn hp =>
    rw [hp.1, hp.2.1]
    exact h j n hi hn
  | empty n hi hn hp =>
    rw [hp.1, hp.2]; rfl
  | more n new ha hi hn hne hp =>
    rw [hp.1, hp.2.1, length_cons, h j n hi hn]
  | less n k ht' hi hn hk hp => exact absurd (ht.symm.trans ht') nofun

theorem Quiet.step (hinv : Inv A none s) (h : Quiet s) (hb : Booked s a t) (ha : accepts s a = false) : Quiet t := by
  refine fun j p hj => ⟨fun hst => ?_, fun hl => ?_⟩
  · rcases hb.handshake hj hst with ⟨n, hn, hn'⟩ | ⟨i, e, isn, rfl, ha'⟩
    · exact (h j n hn).1 hn'
    · exact absurd (ha.symm.trans ha') nofun
  · cases hb.listens_of hinv hj hl with
    | same n hi hn hp =>
      rw [hp.1, hp.2.1]
      exact (h j n hi).2 hn
    | empty n hi hn hp => exact hp
    | more n new ha' hi hn hne hp => exact absurd (ha.symm.trans ha') nofun
    | less n k ht' hi hn hk hp =>
      rw [((h j n hi).2 hn).1] at hk
      cases hk

theorem Quiet.backlog (h : Quiet s) : Backlog s g := by
  refine ⟨fun i n hi hl => ?_, fun i n e new isn hi hl hv hlt hnew => ?_, fun i n hi hst => absurd hst (h i n hi).1,
    fun i n j m hi hl hj => ?_⟩
  · obtain ⟨h1, h2⟩ := (h i n hi).2 hl
    rw [h1, h2]; rfl
  · obtain ⟨h1, h2⟩ := (h i n hi).2 hl
    have ha : accepts s (.input i e new isn) = true := by
      rw [accepts_input hi]
      refine decide_eq_true ⟨hl, hv, ?_⟩
      omega
    obtain ⟨t, ht, hs⟩ := input_accepts hi hnew ha
    obtain ⟨m, hm, -, hacc, -⟩ := hs.listener
    exact ⟨t, m, ht, hm, by rw [hacc]; exact .head _⟩
  · rw [((h i n hi).2 hl).1] at hj
    cases hj

theorem boot_none (h : own.start s) : ∀ i n, s.pcb i ≠ some n := by
  obtain rfl : s = _ := h
  exact fun _ _ h => nomatch h

theorem timed_step {x y : Sys × Timers} (hinv : Inv True none x.1) (h : timed.Steps x a y) :
    Inv True none y.1 ∧ Booked x.1 a y.1 ∧ y.2 = synAfter x.2 x.1 a y.1 := by
  obtain ⟨hs, hg⟩ := Machine.record_steps.1 h
  exact ⟨(step_sat hinv (fun _ => trivial) hs.1).of_ok hs.2, (step_booked hinv hs.1).of_ok hs.2, hg⟩

theorem timed_reach {P : Sys × Timers → Act → Prop} {I : Sys → Timers → Prop} (h0 : ∀ s g, (∀ i n, s.pcb i ≠ some n) → I s g)
    (hI : ∀ s g a t, Inv True none s → P (s, g) a → Booked s a t → I s g → I t (synAfter g s a t))
    (h : timed.Reach P (s, g)) : Inv True none s ∧ I s g := by
  have hstart : ∀ x, timed.start x → Inv True none x.1 ∧ I x.1 x.2 := fun x hx => ⟨boot_inv hx.1, h0 x.1 x.2 (boot_none hx.1)⟩
  have hstep : ∀ x a y, (Inv True none x.1 ∧ I x.1 x.2) → P x a → timed.Steps x a y → Inv True none y.1 ∧ I y.1 y.2 := by
    intro x a y hx hP hs
    obtain ⟨hinv, hb, hg⟩ := timed_step hx.1 hs
    rw [hg]
    exact ⟨hinv, hI _ _ _ _ hx.1 hP hb hx.2⟩
  exact @Machine.Reach.inv _ _ _ timed P (s, g) (fun x => Inv True none x.1 ∧ I x.1 x.2) hstart hstep h

theorem accepted_iff (hinv : Inv A none s) (hi : s.pcb i = some n)
    (hl : n.conn.state = .listen) (hv : ValidSyn n e) (hnew : s.pcb new = none) :
    Accepted s i e new isn ↔ n.backcnt ≠ n.backlog := by
  have ha : accepts s (.input i e new isn) = decide (n.backcnt ≠ n.backlog) := by
    rw [accepts_input hi]
    exact decide_eq_decide.2 ⟨fun h => h.2.2, fun h => ⟨hl, hv, h⟩⟩
  constructor
  · rintro ⟨t, m, ht, hm, hmem⟩ hb
    have hk : Kept s t := (input_kept hinv hi (ha.trans (decide_eq_false fun h => h hb))).of_ok ht
    obtain ⟨p, hp, hsame⟩ := hk i m hm
    obtain rfl := Option.some.inj (hi.symm.trans hp)
    have hinv' : Inv A none t := (@input_sat _ _ _ _ no _ _ _ hinv (fun _ => False.elim) hi hnew).of_ok ht
    obtain ⟨hlm, -, -⟩ := hinv'.acc i m new hm hmem
    rw [(hsame.listens hlm).2.1] at hmem
    obtain ⟨-, ⟨q, hq, -⟩, -⟩ := hinv.acc i n new hi hmem
    rw [hnew] at hq; cases hq
  · intro hb
    obtain ⟨t, ht, hs⟩ := input_accepts hi hnew (ha.trans (decide_eq_true hb))
    obtain ⟨m, hm, -, hacc, -⟩ := hs.listener
    exact ⟨t, m, ht, hm, by rw [hacc]; exact .head _⟩

theorem Booked.stays (hinv : Inv A none s) (hb : Booked s a t) (hi : s.pcb i = some n) (hl : n.conn.state = .listen)
    (hm : t.pcb i = some m) (hl' : m.conn.state = .listen) :
    n.backcnt ≤ m.backcnt ∧ (takes s a = false → ∀ j ∈ n.acclist, j ∈ m.acclist) := by
  cases hb.listens_of hinv hm hl' with
  | same p hp hpl h =>
    obtain rfl := Option.some.inj (hi.symm.trans hp)
    exact ⟨Nat.le_of_eq h.2.1.symm, fun _ j hj => h.1 ▸ hj⟩
  | empty p hp hpl h =>
    obtain rfl := Option.some.inj (hi.symm.trans hp)
    exact absurd (hl.symm.trans hpl) nofun
  | more p new ha hp hpl hne h =>
    obtain rfl := Option.some.inj (hi.symm.trans hp)
    refine ⟨by rw [h.2.1]; exact Nat.le_succ _, fun _ j hj => ?_⟩
    rw [h.1]
    exact .tail _ hj
  | less p k ht hp hpl hk h =>
    obtain rfl := Option.some.inj (hi.symm.trans hp)
    exact ⟨Nat.le_of_eq h.2.1.symm, fun ht' => absurd (ht'.symm.trans ht) nofun⟩

theorem Booked.uncounted (hinv : Inv A none s) (hled : Ledger s g) (hb : Booked s a t) (ht : takes s a = true) : ¬ Counted t := by
  intro hc
  cases hb with
  | taken i k n ha ht hi hk he =>
    have hl : n.conn.state = .listen := (hinv.acc i n k hi hk).1
    obtain ⟨h1, -⟩ := hled.counted i n hi hl
    have hcount := hc i _ ((congrFun he i).trans set_same) hl
    have hlen : (n.acclist.erase k).length = n.acclist.length - 1 := length_erase_of_mem hk
    have hpos := length_pos_of_mem hk
    dsimp only at hcount
    omega
  | kept _ h | opened _ _ _ h | listens _ _ _ _ h | accepted _ _ _ _ _ _ _ h => exact absurd (h.symm.trans ht) nofun

theorem Booked.unarmed (hb : Booked s a t) (ha : accepts s a = true) : ¬ Backlog t (synAfter g s a t) := by
  intro h
  cases hb with
  | accepted i new n e isn he ha' ht hi hs =>
    subst he
    obtain ⟨m, hm, hst⟩ := hs.child
    have hpos := (h.armed new m hm hst).1
    rw [synAfter_spawn ha, update_self] at hpos
    exact absurd hpos (Nat.lt_irrefl _)
  | kept h | opened _ _ h | listens _ _ _ h | taken _ _ _ h => exact absurd (h.symm.trans ha) nofun

/-- The backlog of a listener is right as long as no `SYN` was accepted, and the next one breaks it: the timer of
its handshake is not armed. The count alone is right until `tcp_accept` takes the first connection, and wrong after
that step. In every run `backcnt` bounds the `acclist` and decides whether a `SYN` is accepted, nothing lowers it, only
`tcp_accept` takes a pcb off the `acclist`, and no pcb in `SYN_RCVD` has its timer armed. -/
theorem listen_backlog (s : Sys) (g : Timers) :
    (timed.Reach (fun x a => accepts x.1 a = false) (s, g) → Backlog s g) ∧
    (timed.Reach (fun x a => takes x.1 a = false) (s, g) → Counted s) ∧
    (timed.Reach Machine.Any (s, g) → Ledger s g ∧
      (∀ a y, timed.Steps (s, g) a y → (accepts s a = true → ¬ Backlog y.1 y.2) ∧ (takes s a = true → ¬ Counted y.1)) ∧
      (∀ a y i n m, timed.Steps (s, g) a y → s.pcb i = some n → n.conn.state = .listen → y.1.pcb i = some m →
        m.conn.state = .listen → n.backcnt ≤ m.backcnt ∧ (takes s a = false → ∀ j ∈ n.acclist, j ∈ m.acclist)) ∧
      ∀ i n e new isn, s.pcb i = some n → n.conn.state = .listen → ValidSyn n e → s.pcb new = none →
        (Accepted s i e new isn ↔ n.backcnt ≠ n.backlog)) := by
  refine ⟨fun h => ?_, fun h => ?_, fun h => ?_⟩
  · have hq := timed_reach (I := fun s _ => Quiet s) (fun s _ h0 i n hi => absurd hi (h0 i n))
      (fun s g a t hinv ha hb hq => hq.step hinv hb ha) h
    exact hq.2.backlog
  · have hc := timed_reach (I := fun s _ => Counted s) (fun s _ h0 i n hi => absurd hi (h0 i n))
      (fun s g a t hinv ht hb hc => hc.step hinv hb ht) h
    exact hc.2
  · have hnone : ∀ s g, (∀ i n, s.pcb i ≠ some n) → Ledger s g := fun s _ h0 =>
      ⟨fun i n hi => absurd hi (h0 i n), fun i n hi => absurd hi (h0 i n)⟩
    obtain ⟨hinv, hled⟩ := timed_reach (I := Ledger) hnone
      (fun s g a t hinv _ hb hled => hled.step hinv hb) h
    refine ⟨hled, fun a y hs => ?_, fun a y i n m hs hi hl hm hl' => ?_, fun i n e new isn hi hl hv hnew =>
      accepted_iff hinv hi hl hv hnew⟩
    · obtain ⟨-, hb, hg⟩ := timed_step hinv hs
      exact ⟨fun ha => by rw [hg]; exact hb.unarmed ha, fun ht => hb.uncounted hinv hled ht⟩
    · exact (timed_step hinv hs).2.1.stays hinv hi hl hm hl'

/-! ## A listener that is full for ever -/

def acceptOne : List Act :=
  [.socket 1 10 5, .listen 1 1, .input 10 (reply 7 0 Tcp.tcpSyn) 11 0, .input 11 (reply 8 1 Tcp.tcpAck) 12 0, .accept 1 2]

/-- Nothing is pending, and no further `SYN` is accepted. -/
theorem backlog_used_up : ¬ ∀ s g, timed.Reach OnTime (s, g) → Backlog s g := by
  have h : ((timed.trace OnTime (boot, fun _ => 0) acceptOne).bind fun x => (x.1.pcb 10).map fun n =>
      (decide (n.conn.state = .listen), n.acclist, n.backcnt)) = some (true, [], 1) := by decide +kernel
  obtain ⟨x, hx, h⟩ := Option.bind_eq_some_iff.1 h
  obtain ⟨n, hn, he⟩ := Option.map_eq_some_iff.1 h
  obtain ⟨hl, he⟩ := Prod.mk.inj he
  obtain ⟨hacc, hcnt⟩ := Prod.mk.inj he
  intro hall
  have hstart : timed.start (boot, fun _ => 0) := ⟨rfl, rfl⟩
  have hb := hall x.1 x.2 (Machine.trace_reach hstart hx)
  have hcount := hb.count 10 n hn (of_decide_eq_true hl)
  rw [hacc, hcnt] at hcount
  cases hcount

end Onix.Own
