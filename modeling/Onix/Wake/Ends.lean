/-
Sockets that open and close, incoming segments and timers. A pcb that is freed has no task in a call on it, so nobody is woken by
that; a segment wakes with `EOK` whom it serves.
-/
import Onix.Wake.Steps

namespace Onix.Wake

open Function Onix.Lib
open Onix.Tcp (Segment Seq Flags TcpState TcpTimer SockOpt TimeoutEnds SameRecv)
open Onix.Own (ofSock ofAcc Follows)

variable {D : Prop} {ts ts' : Tasks} {f : Pcbs} {e : Udps} {s u : State} {n m p : Pcb} {k : Task} {i j l t c : Nat} {a : Act} {W S : Nat → Prop}

/-! ## Sockets -/

theorem Holds.socket {isn : Seq} (h : Holds D ts f e) (hi : f i = none) :
    Holds D ts (update f i (some (fresh (Tcp.tcpPcbGet isn) true none))) e := by
  refine ⟨h.books.alloc hi rfl rfl, h.calls.alloc hi ⟨rfl, rfl, rfl⟩, fun c k hk h1 h2 => (h.queue c k hk h1 h2).alloc hi,
    fun d => (h.asleep d).pcbs fun j q c k hj hn _ => .inl ?_⟩
  rcases update_cases hj with ⟨rfl, rfl⟩ | ⟨-, hj⟩
  · rcases hn with hn | hn | hn <;> cases hn
  · exact ⟨q, hj, hn⟩

theorem Holds.listen {backlog : Nat} (h : Holds D s.task s.pcb s.udp) (ho : Open s i) (hu : tcpListen s i backlog = .ok u) :
    Holds D u.task u.pcb u.udp := by
  obtain ⟨n, hn, hu⟩ := bind_ok hu
  have hi := deref_ok hn
  have hsock := open_sock ho hi
  split at hu
  · cases hu
    exact h
  rename_i hst
  have hst : n.conn.state = .closed := not_not.1 hst
  cases hu
  have hleaf := h.books.leaf i n hi (by rw [hst]; decide)
  have hb : Books (update s.pcb i (some { n with conn := { n.conn with state := .listen }, backcnt := 0, backlog := backlog })) :=
    h.books.own hi hsock rfl (fun _ => hleaf) nofun fun _ => .inr (.inl rfl)
  refine h.pcb hi hb id (fun _ => rfl) (fun _ => .inl) (fun _ => .inl) (fun _ => .inl) (fun c k hk h1 h2 => ?_) fun c k hc _ => .inl hc
  exact (h.queue c k hk h1 h2).pcb hi rfl (fun l q hl hm _ => absurd hm (h.books.not_queued hi hsock hl)) id

/-! ## Pcbs that are freed -/

theorem Calls.outside (h : Calls ts f e) (hi : f i = some n) (hn : n.sock = false) (hk : ts t = some k) : k.place.pcb ≠ some i := fun hp => by
  obtain ⟨m, hm, hs⟩ := h.held t k i hk hp
  cases hi.symm.trans hm
  cases hn.symm.trans hs

theorem Named.nobody (h : Named ts f e) (hi : f i = some n) (hno : ∀ t k, ts t = some k → k.place.pcb ≠ some i) : ¬ n.names t := fun hn => by
  obtain ⟨k, hk, hp, -⟩ := h.place hi hn
  exact hno t k hk hp

theorem Holds.drop (h : Holds D ts f e) (hi : f i = some n) (hno : ∀ t k, ts t = some k → k.place.pcb ≠ some i)
    (hq : ∀ l m, f l = some m → i ∉ m.acclist) : Holds D ts (dropped f i n.acclist) e := by
  have hout : ∀ t k j, ts t = some k → k.place.pcb = some j → j ≠ i ∧ j ∉ n.acclist := fun t k j hk hp => by
    refine ⟨fun e => hno t k hk (e ▸ hp), fun hj => ?_⟩
    obtain ⟨m, hm, -, hs, -⟩ := h.books.child i n j hi hj
    exact h.calls.outside hm hs hk hp
  refine ⟨h.books.drop hi hq, h.calls.drop hout, fun t k hk h1 h2 => (h.queue t k hk h1 h2).drop h.books hi hq fun j hj => hout t k j hk hj,
    fun d => (h.asleep d).pcbs fun j q t k hj hn _ => .inl ⟨q, ?_, hn⟩⟩
  unfold dropped at hj
  split at hj
  · cases hj
  · exact hj

theorem Holds.put (h : Holds D s.task s.pcb s.udp) (hi : s.pcb i = some n) (hno : ∀ t k, s.task t = some k → k.place.pcb ≠ some i)
    (hq : ∀ l m, s.pcb l = some m → i ∉ m.acclist) (hu : tcpPcbPut s i = .ok u) : Holds D u.task u.pcb u.udp := by
  obtain ⟨hr, h1⟩ := tcpPcbPut_spec (S := fun _ => False) hi hu
  have htask : u.task = s.task := by
    funext t
    refine (hr t).resolve_right fun ⟨⟨j, hj, m, hm, hn⟩, _⟩ => ?_
    rcases List.mem_cons.1 hj with rfl | hj
    · exact h.calls.named.nobody hm hno hn
    · obtain ⟨q, hmq, -, hs, -⟩ := h.books.child i n j hi hj
      cases hm.symm.trans hmq
      exact h.calls.named.nobody hm (fun t k hk => h.calls.outside hm hs hk) hn
  rw [h1, htask]
  exact h.drop hi hno hq

theorem Calls.leave (h : Calls ts f e) (hi : f i = some n) (hno : ∀ t k, ts t = some k → k.place.pcb ≠ some i) (hw : Waiters n p) :
    Calls ts (update f i (some p)) e := by
  have hget : ∀ t k j q, ts t = some k → k.place.pcb = some j → f j = some q → update f i (some p) j = some q :=
    fun t k j q hk hp hq => update_ne (fun e => hno t k hk (e ▸ hp)) hq
  have hnone : ∀ t, ¬ p.names t := fun t ht => h.named.nobody hi hno (hw.names ht)
  refine ⟨h.died, fun t k j hk hp => ?_, fun t k j hk hp => ?_, h.udp, fun j q t hj ht => ?_, fun j q t hj ht => ?_, fun j q t hj ht => ?_,
    h.named.ux⟩
  · obtain ⟨q, hq, hs⟩ := h.held t k j hk hp
    exact ⟨q, hget t k j q hk hp hq, hs⟩
  · obtain ⟨q, hq, hl⟩ := h.listens t k j hk hp
    exact ⟨q, hget t k j q hk (by rw [hp]; rfl) hq, hl⟩
  · rcases update_cases hj with ⟨rfl, rfl⟩ | ⟨-, hj⟩
    · exact absurd (.inl ht) (hnone t)
    · exact h.named.ac j q t hj ht
  · rcases update_cases hj with ⟨rfl, rfl⟩ | ⟨-, hj⟩
    · exact absurd (.inr (.inl ht)) (hnone t)
    · exact h.named.rx j q t hj ht
  · rcases update_cases hj with ⟨rfl, rfl⟩ | ⟨-, hj⟩
    · exact absurd (.inr (.inr ht)) (hnone t)
    · exact h.named.tx j q t hj ht

theorem Holds.close (h : Holds D s.task s.pcb s.udp) (ho : Open s i) (hno : ∀ t k, s.task t = some k → k.place.pcb ≠ some i)
    (hu : tcpClose s i = .ok u) : Holds D u.task u.pcb u.udp := by
  obtain ⟨n, hn, hu⟩ := bind_ok hu
  have hi := deref_ok hn
  have hsock := open_sock ho hi
  have hq : ∀ l m, s.pcb l = some m → i ∉ m.acclist := fun l m hl => h.books.not_queued hi hsock hl
  -- the states a pcb with a socket goes on from
  have hfin : ∀ d, n.conn.state = .established ∨ n.conn.state = .closeWait → Tcp.tcpClose n.conn = .ok d →
      Holds D s.task (update s.pcb i (some { n with conn := d, sock := false })) s.udp := by
    intro d hst hd
    have hsyn : d.state ≠ .synRcvd := by
      cases Tcp.tcpClose_side hd with
      | same h1 => rcases hst with e | e <;> rw [h1.state, e] <;> decide
      | close _ h1 => rcases h1 with ⟨-, e⟩ | ⟨-, e⟩ <;> rw [e] <;> decide
      | closed _ h1 => rw [h1]; decide
    have hleaf := h.books.leaf i n hi (by rcases hst with e | e <;> rw [e] <;> decide)
    have hb : Books (update s.pcb i (some { n with conn := d, sock := false })) :=
      h.books.own hi hsock rfl (fun _ => hleaf) hsyn fun e => nomatch e
    refine ⟨hb, h.calls.leave hi hno ⟨.inr rfl, .inr rfl, .inr rfl⟩, fun t k hk h1 h2 => ?_, fun c => (h.asleep c).pcb_one hi fun t k ht _ => .inl ht⟩
    have haw := h.queue t k hk h1 h2
    refine awaited_pcb haw hi rfl (fun l hx => ?_) fun sizes hx => absurd (by rw [hx]; rfl) (hno t k hk)
    rw [hx] at haw
    obtain ⟨q, hl, j, hj, m, hm, hest⟩ := haw
    exact ⟨q, hl, j, hj, m, hm, hest, fun e => absurd (e ▸ hj) (hq l q hl)⟩
  split at hu
  · exact h.put hi hno hq hu
  · exact h.put hi hno hq hu
  · exact h.put hi hno hq hu
  · rename_i h1 h2 h3
    obtain ⟨d, hd, hu⟩ := bind_ok hu
    cases hu
    refine hfin d ?_ (conn_ok hd)
    rcases h.books.sock i n hi hsock with e | e | e | e | e
    · exact absurd e h1
    · exact absurd e h3
    · exact absurd e h2
    · exact .inl e
    · exact .inr e

/-! ## Segments -/

theorem Inv.heard (h : Inv s) (hi : s.pcb i = some n) (hh : Heard s n p t) (hk : s.task t = some k) :
    Awaited (update s.pcb i (some p)) s.udp k.place := by
  rcases hh with (ht | ⟨ht, hne, -⟩) | ⟨ht, hst⟩ | ⟨hsyn, hest, l, m, hl, hm, ht⟩
  · obtain ⟨k', hk', hx⟩ := h.calls.named.tx i n t hi ht
    cases hk.symm.trans hk'
    exact awaited_of (by rw [hx]; rfl)
  · obtain ⟨k', hk', sizes, hx⟩ := h.calls.named.rx i n t hi ht
    cases hk.symm.trans hk'
    rw [hx]
    exact ⟨p, update_self .., hne⟩
  · obtain ⟨k', hk', hx | hx⟩ := h.calls.named.ac i n t hi ht
    · cases hk.symm.trans hk'
      obtain ⟨q, hq, hql⟩ := h.calls.listens t k i hk hx
      cases hi.symm.trans hq
      cases hql.symm.trans hst
    · cases hk.symm.trans hk'
      exact awaited_of (by rw [hx]; rfl)
  · obtain ⟨k', hk', hx | hx⟩ := h.calls.named.ac l m t hm ht
    · cases hk.symm.trans hk'
      rw [hx]
      -- the connection is on the `acclist` of its listener
      obtain ⟨l', q, hl', hq, hmem⟩ := h.books.syn i n hi hsyn
      cases hl.symm.trans hl'
      cases hm.symm.trans hq
      have hli : l ≠ i := fun e => by
        subst e
        cases hi.symm.trans hm
        rw [h.books.child_leaf hi hmem hi] at hmem
        cases hmem
      exact ⟨m, update_ne hli hm, i, hmem, p, update_self .., hest⟩
    · cases hk.symm.trans hk'
      exact awaited_of (by rw [hx]; rfl)

theorem Holds.inv (h : Holds D s.task s.pcb s.udp) : Inv s := ⟨h.books, h.calls, h.queue⟩

theorem Holds.stays {g : Segment} {new : Nat} {isn : Seq} (h : Holds D s.task s.pcb s.udp) (hi : s.pcb i = some n)
    (hs : Sound s (.input i g new isn)) (hd : D → Undisturbed s (.input i g new isn)) (hc : Tcp.tcpInput n.conn g = .ok p.conn) (hsame : Same n p)
    (hr : Roused (fun t => Off n p t ∨ Shaken s n p t) (Heard s n p) s.task ts) : Holds D ts (update s.pcb i (some p)) s.udp := by
  have hf := input_follows hc
  have hcalls := h.calls.waiters (p := p) hi (fun e => hsame.sock.trans e) (fun e => hf.facts.2.2.2.2 e) hsame.waiters
  refine ⟨h.books.local hi ⟨hsame.acclist, hsame.listener, hsame.sock, hf⟩, hcalls.stay hr.stay, fun t k' hk' h1 h2 => ?_, fun d => ?_⟩
  · rcases hr t with e | ⟨-, k, r, hk, hk2, hheard⟩
    · have hk := e ▸ hk'
      refine (hs.leaves t k' hk h1 h2 nofun).pcb (h.queue t k' hk h1 h2) hi hsame.acclist (fun hst hno => ?_) fun sizes hx hne hno => ?_
      · exact input_established hc hst fun hends => hno ⟨rfl, hends⟩
      · obtain ⟨q, hq, hqs⟩ := h.calls.held t k' i hk (by rw [hx]; rfl)
        cases hi.symm.trans hq
        exact input_recved hc (h.books.sock i n hi hqs) hne fun hres => hno ⟨rfl, hres⟩
    · cases hk2.symm.trans hk'
      show Awaited _ _ k.place
      exact h.inv.heard hi (hheard h2) hk
  · refine ((h.asleep d).pcb_one hi fun t k ht _ => .inl (hsame.waiters.names ht)).roused hr fun t ht => ?_
    rcases ht with ht | ⟨hsyn, hest, l, m, hl, hm, ht⟩
    · exact h.calls.named.off hi hsame.waiters ht
    · have hnone := (hd d).handshake i g new isn n p.conn l m rfl hi hsyn hc hest hl hm
      cases hnone.symm.trans ht

theorem Holds.spawns {new : Nat} (h : Holds D s.task s.pcb s.udp) (hi : s.pcb i = some n) (hnew : s.pcb new = none) (hst : n.conn.state = .listen)
    (hp : p.conn.state = .listen ∧ p.acclist = new :: n.acclist ∧ p.sock = n.sock ∧ p.listener = n.listener) (hw : Waiters n p)
    (hm : m.conn.state = .synRcvd ∧ m.acclist = [] ∧ m.sock = false ∧ m.listener = some i)
    (hn : m.acWaiter = none ∧ m.rxWaiter = none ∧ m.txWaiter = none) (hrec : n.conn.recved ≠ [] → p.conn.recved ≠ [])
    (hr : Roused (Off n p) (Served n p) s.task ts) :
    Holds D ts (update (update s.pcb i (some p)) new (some m)) s.udp := by
  have hni : new ≠ i := fun e => by
    rw [e, hi] at hnew
    cases hnew
  have hnew1 : update s.pcb i (some p) new = none := by rw [update_of_ne hni, hnew]
  have hcalls := (h.calls.waiters (p := p) hi (fun e => hp.2.2.1.trans e) (fun _ => hp.1) hw).alloc hnew1 hn
  have hasleep : D → Asleep s.task (update (update s.pcb i (some p)) new (some m)) s.udp := fun d => by
    refine ((h.asleep d).pcb_one hi fun t k ht _ => .inl (hw.names ht)).pcbs fun j q t k hj ht _ => .inl ?_
    rcases update_cases hj with ⟨rfl, rfl⟩ | ⟨-, hj⟩
    · rcases ht with ht | ht | ht
      · cases hn.1.symm.trans ht
      · cases hn.2.1.symm.trans ht
      · cases hn.2.2.symm.trans ht
    · exact ⟨q, hj, ht⟩
  -- the new pcb has taken nothing from the listener, which has an entry more
  have hone : ∀ x, Awaited s.pcb s.udp x → Awaited (update s.pcb i (some p)) s.udp x := fun x hx => by
    cases x with
    | accept l =>
      obtain ⟨q, hl, j, hj, b, hb, hest⟩ := hx
      have hji : j ≠ i := fun e => by
        subst e
        cases hi.symm.trans hb
        cases hst.symm.trans hest
      refine by_cases (fun hli : l = i => ?_) fun hli => ⟨q, update_ne hli hl, j, hj, b, update_ne hji hb, hest⟩
      subst hli
      cases hi.symm.trans hl
      exact ⟨p, update_self .., j, hp.2.1 ▸ List.mem_cons_of_mem _ hj, b, update_ne hji hb, hest⟩
    | recv j sizes =>
      obtain ⟨q, hj, hne⟩ := hx
      refine by_cases (fun hji : j = i => ?_) fun hji => ⟨q, update_ne hji hj, hne⟩
      subst hji
      cases hi.symm.trans hj
      exact ⟨p, update_self .., hrec hne⟩
    | udp v => exact hx
    | user | waitpid | sleep | device d | connect j | send j => trivial
  refine ⟨h.books.spawn hi hst hnew hp hm, hcalls.stay hr.stay, fun t k' hk' h1 h2 => ?_, fun d => (hasleep d).roused hr fun t ht => ?_⟩
  · rcases hr t with e | ⟨-, k, r, hk, hk2, hserved⟩
    · exact (hone _ (h.queue t k' (e ▸ hk') h1 h2)).alloc hnew1
    · cases hk2.symm.trans hk'
      refine Awaited.alloc ?_ hnew1
      rcases hserved h2 with ht | ⟨ht, hne, -⟩
      · obtain ⟨k', hk', hx⟩ := h.calls.named.tx i n t hi ht
        cases hk.symm.trans hk'
        exact awaited_of (by rw [hx]; rfl)
      · obtain ⟨k', hk', sizes, hx⟩ := h.calls.named.rx i n t hi ht
        cases hk.symm.trans hk'
        rw [hx]
        exact ⟨p, update_self .., hne⟩
  · obtain ⟨h1, h2⟩ := h.calls.named.off hi hw ht
    refine ⟨fun j q hj => ?_, h2⟩
    rcases update_cases hj with ⟨rfl, rfl⟩ | ⟨-, hj⟩
    · rintro (ht | ht | ht)
      · cases hn.1.symm.trans ht
      · cases hn.2.1.symm.trans ht
      · cases hn.2.2.symm.trans ht
    · exact h1 j q hj

theorem Books.last_ack (h : Books f) (hi : f i = some n) (hst : n.conn.state = .lastAck) :
    n.sock = false ∧ ∀ l m, f l = some m → i ∉ m.acclist := by
  constructor
  · by_contra hs
    have hsock := h.sock i n hi (Bool.not_eq_false _ ▸ hs)
    rw [hst] at hsock
    exact absurd hsock (by decide)
  · intro l m hl hm
    obtain ⟨q, hq, -, -, hacc⟩ := h.child l m i hl hm
    cases hi.symm.trans hq
    rw [hst] at hacc
    exact absurd hacc (by decide)

theorem Holds.input {g : Segment} {new : Nat} {isn : Seq} (h : Holds D s.task s.pcb s.udp) (hnew : s.pcb new = none)
    (hs : Sound s (.input i g new isn)) (hd : D → Undisturbed s (.input i g new isn)) (hu : tcpInput s i g new isn = .ok u) :
    Holds D u.task u.pcb u.udp := by
  obtain ⟨n, hn, -⟩ := bind_ok hu
  have hi := deref_ok hn
  rcases tcpInput_came h.books hi hu with ⟨hc, hsame, hr⟩ | ⟨hst, hp, hw, hm, hn, hrec, hr⟩ | ⟨hst, hr⟩
  · exact h.stays hi hs hd hc hsame hr
  · exact h.spawns hi hnew hst hp hw hm hn hrec hr
  · obtain ⟨hsock, hq⟩ := h.books.last_ack hi hst
    have hno : ∀ t k, s.task t = some k → k.place.pcb ≠ some i := fun t k hk => h.calls.outside hi hsock hk
    rename_i ts
    have htask : ts = s.task := by
      funext t
      exact (hr t).resolve_right fun ⟨hn, _⟩ => h.calls.named.nobody hi hno hn
    rw [htask]
    exact h.drop hi hno hq

/-! ## Timers -/

theorem Holds.timeout {type : TcpTimer} (h : Holds D s.task s.pcb s.udp) (he : enabled s (.timeout i type)) (hs : Sound s (.timeout i type))
    (hu : tcpTimeout s i type = .ok u) : Holds D u.task u.pcb u.udp := by
  obtain ⟨n, hn, hu⟩ := bind_ok hu
  have hi := deref_ok hn
  -- the timers of a pcb that was closed
  have hput : ¬ Open s i ∧ ¬ Queued s i → tcpPcbPut s i = .ok u → Holds D u.task u.pcb u.udp := fun ⟨ho, hq⟩ hu => by
    refine h.put hi (fun t k hk hp => ?_) (fun l m hl hm => hq ⟨l, m, hl, hm⟩) hu
    exact ho (h.calls.held t k i hk hp)
  -- the others
  have hrest : n.conn.state ≠ .listen → ∀ c, Tcp.tcpTimeout n.conn type = .ok c →
      (if TimeoutEnds n.conn type then tcpPcbPurge s i c .etime else pure (s.setPcb i { n with conn := c })) = .ok u → Holds D u.task u.pcb u.udp := by
    intro hst c hc hu
    split at hu
    · rename_i hends
      obtain ⟨hr, h1⟩ := tcpPcbPurge_spec (S := fun _ => False) hi (h.books.leaf i n hi hst) (by decide) hu
      obtain ⟨p, hp⟩ : ∃ p : Pcb, p = { n with conn := c, acWaiter := none, rxWaiter := none, txWaiter := none } := ⟨_, rfl⟩
      rw [← hp] at h1
      have hf : Follows n.conn.state p.conn.state := by
        rw [hp]
        rcases Tcp.tcpTimeout_parts hc with ⟨h2, -⟩ | ⟨-, h2, -⟩
        · exact .inl h2.state
        · exact .inr (.inl ⟨h2, hst⟩)
      have hsame : Same n p := by
        rw [hp]
        exact ⟨rfl, rfl, rfl, .inl rfl, .inl rfl, .inl rfl⟩
      rw [h1]
      have hcalls := h.calls.waiters (p := p) hi (fun e => hsame.sock.trans e) (fun e => absurd e hst) hsame.waiters
      refine ⟨h.books.local hi ⟨hsame.acclist, hsame.listener, hsame.sock, hf⟩, hcalls.stay hr.stay, fun t k' hk' h2 h3 => ?_, fun d => ?_⟩
      · rcases hr t with e | ⟨-, k, r, hk, hk2, hno⟩
        · have hk := e ▸ hk'
          refine (hs.leaves t k' hk h2 h3 nofun).pcb (h.queue t k' hk h2 h3) hi hsame.acclist (fun _ hno => ?_) fun _ _ _ hno => ?_
          · exact absurd ⟨rfl, hends⟩ hno
          · exact absurd ⟨rfl, hends⟩ hno
        · cases hk2.symm.trans hk'
          exact absurd (hno h3) id
      · refine ((h.asleep d).pcb_one hi fun t k ht _ => .inl (hsame.waiters.names ht)).roused hr fun t ht => h.calls.named.off hi hsame.waiters ?_
        rw [hp]
        exact ht.imp (fun e => ⟨e, rfl⟩) (Or.imp (fun e => ⟨e, rfl⟩) fun e => ⟨e, rfl⟩)
    · rename_i hends
      cases hu
      exact h.conn hi ((Tcp.tcpTimeout_parts hc).resolve_right fun e => hends e.1).1
  cases type with
  | finWait2 => exact hput he.2 hu
  | timewait => exact hput he.2 hu
  | syn | rexmit | persist | keepalive =>
    obtain ⟨m, hm, hst⟩ := he
    cases hi.symm.trans hm
    obtain ⟨c, hc, hu⟩ := bind_ok hu
    exact hrest hst c (conn_ok hc) hu

end Onix.Wake
