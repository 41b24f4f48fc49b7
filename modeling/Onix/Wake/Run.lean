/-
UDP sockets, calls that go on after a wait, and the run of the whole: a task that is woken with `EOK` finds the queue it waited for,
and a waiter is a task in the call on that pcb, blocked when nothing but the socket wakes such a task.
-/
import Onix.Wake.Ends

namespace Onix.Wake

open Function Onix.Lib
open Onix.Tcp (Segment Seq Flags TcpState TcpTimer SockOpt TimeoutEnds SameRecv)
open Onix.Own (ofSock ofAcc Follows)

variable {D : Prop} {ts ts' : Tasks} {f : Pcbs} {e e' : Udps} {s u : State} {n m p : Pcb} {k : Task} {i j l t c v : Nat} {a : Act}
  {W S : Nat → Prop} {x : Place}

/-! ## UDP -/

theorem derefUdp_ok {q : Udp} (h : s.derefUdp v = .ok q) : s.udp v = some q := by
  unfold State.derefUdp at h
  split at h
  · rename_i m hm
    rw [hm, Except.ok.inj h]
  · cases h

theorem Holds.udps (h : Holds D ts f e)
    (hname : ∀ v q t, e' v = some q → q.rxWaiter = some t → (∃ p, e v = some p ∧ p.rxWaiter = some t) ∨
      ∃ k, ts t = some k ∧ k.place = .udp v ∧ k.state = .waiting)
    (hcall : ∀ t k v, ts t = some k → k.place = .udp v → e' v ≠ none)
    (hq : ∀ t k v, ts t = some k → k.state = .ready → k.status = .ok → k.place = .udp v → ∃ q, e' v = some q ∧ q.rxPbufList ≠ []) :
    Holds D ts f e' := by
  refine ⟨h.books, ⟨h.calls.died, h.calls.held, h.calls.listens, hcall, h.calls.named.ac, h.calls.named.rx, h.calls.named.tx, fun v q t hv ht => ?_⟩,
    fun t k hk h1 h2 => ?_, fun d => ⟨(h.asleep d).pcb, fun v q t k hv ht hk => ?_⟩⟩
  · rcases hname v q t hv ht with ⟨p, hp, ht⟩ | ⟨k, hk, hx, -⟩
    · exact h.calls.named.ux v p t hp ht
    · exact ⟨k, hk, hx⟩
  · have haw := h.queue t k hk h1 h2
    cases hx : k.place with
    | udp v => exact hq t k v hk h1 h2 hx
    | accept i | recv i sizes | user | waitpid | sleep | device d | connect i | send i =>
      rw [hx] at haw
      exact haw
  · rcases hname v q t hv ht with ⟨p, hp, ht⟩ | ⟨k', hk', -, hst⟩
    · exact (h.asleep d).udp v p t k hp ht hk
    · cases hk.symm.trans hk'
      exact hst

theorem Holds.udp_one {q q' : Udp} (h : Holds D ts f e) (hv : e v = some q)
    (hw : ∀ t, q'.rxWaiter = some t → q.rxWaiter = some t ∨ ∃ k, ts t = some k ∧ k.place = .udp v ∧ k.state = .waiting)
    (hq : ∀ t k, ts t = some k → k.state = .ready → k.status = .ok → k.place = .udp v → q.rxPbufList ≠ [] → q'.rxPbufList ≠ []) :
    Holds D ts f (update e v (some q')) := by
  refine h.udps (fun w p t hp ht => ?_) (fun t k w hk hx => ?_) fun t k w hk h1 h2 hx => ?_
  · rcases update_cases hp with ⟨rfl, rfl⟩ | ⟨-, hp⟩
    · exact (hw t ht).imp_left fun e => ⟨q, hv, e⟩
    · exact .inl ⟨p, hp, ht⟩
  · by_cases hwv : w = v
    · subst hwv
      rw [update_self]
      nofun
    · rw [update_of_ne hwv]
      exact h.calls.udp t k w hk hx
  · have haw := h.queue t k hk h1 h2
    rw [hx] at haw
    obtain ⟨p, hp, hne⟩ := haw
    by_cases hwv : w = v
    · subst hwv
      cases hv.symm.trans hp
      exact ⟨q', update_self .., hq t k hk h1 h2 hx hne⟩
    · exact ⟨p, update_ne hwv hp, hne⟩

theorem Holds.udpSocket (h : Holds D ts f e) (hv : e v = none) : Holds D ts f (update e v (some ⟨[], none⟩)) := by
  have hget : ∀ w q, e w = some q → update e v (some ⟨[], none⟩) w = some q := fun w q hw => update_ne (fun e => by
    rw [e, hv] at hw
    cases hw) hw
  refine h.udps (fun w p t hp ht => ?_) (fun t k w hk hx => ?_) fun t k w hk h1 h2 hx => ?_
  · rcases update_cases hp with ⟨rfl, rfl⟩ | ⟨-, hp⟩
    · cases ht
    · exact .inl ⟨p, hp, ht⟩
  · obtain ⟨q, hq⟩ := Option.ne_none_iff_exists'.1 (h.calls.udp t k w hk hx)
    rw [hget w q hq]
    nofun
  · have haw := h.queue t k hk h1 h2
    rw [hx] at haw
    obtain ⟨q, hq, hne⟩ := haw
    exact ⟨q, hget w q hq, hne⟩

theorem Holds.udpClose (h : Holds D ts f e) (hno : ∀ t k, ts t = some k → k.place ≠ .udp v) : Holds D ts f (update e v none) := by
  have hne : ∀ t k w, ts t = some k → k.place = .udp w → w ≠ v := fun t k w hk hx e => hno t k hk (e ▸ hx)
  refine h.udps (fun w p t hp ht => ?_) (fun t k w hk hx => ?_) fun t k w hk h1 h2 hx => ?_
  · by_cases hwv : w = v
    · subst hwv
      rw [update_self] at hp
      cases hp
    · rw [update_of_ne hwv] at hp
      exact .inl ⟨p, hp, ht⟩
  · rw [update_of_ne (hne t k w hk hx)]
    exact h.calls.udp t k w hk hx
  · have haw := h.queue t k hk h1 h2
    rw [hx] at haw
    rw [update_of_ne (hne t k w hk hx)]
    exact haw

theorem Holds.udpInput {payload : List UInt8} (h : Holds D s.task s.pcb s.udp) (hu : udpInput s v payload = .ok u) :
    Holds D u.task u.pcb u.udp := by
  obtain ⟨q, hq, hu⟩ := bind_ok hu
  obtain ⟨ts, hts, hu⟩ := bind_ok hu
  cases hu
  have hv := derefUdp_ok hq
  have hr := unblock_roused hts
  have h1 : Holds D s.task s.pcb (update s.udp v (some ⟨payload :: q.rxPbufList, none⟩)) :=
    h.udp_one hv nofun fun _ _ _ _ _ _ _ => List.cons_ne_nil _ _
  refine ⟨h1.books, h1.calls.stay hr.stay, h1.queue.roused hr fun t k ht hk => ?_, fun d => (h1.asleep d).roused hr fun t ht => ?_⟩
  · obtain ⟨k', hk', hx⟩ := h.calls.named.ux v q t hv ht.1
    cases hk.symm.trans hk'
    rw [hx]
    exact ⟨_, update_self .., List.cons_ne_nil _ _⟩
  · obtain ⟨k, hk, hx⟩ := h.calls.named.ux v q t hv ht
    constructor
    · intro i n hi hn
      obtain ⟨k', hk', hp, -⟩ := h.calls.named.place hi hn
      cases hk.symm.trans hk'
      rw [hx] at hp
      cases hp
    · intro w p hp hw
      obtain ⟨k', hk', hx'⟩ := h1.calls.named.ux w p t hp hw
      cases hk.symm.trans hk'
      cases hx.symm.trans hx'
      rw [update_self] at hp
      cases hp
      cases hw

theorem Holds.popback {q : Udp} (h : Holds D s.task s.pcb s.udp) (hv : s.udp v = some q)
    (hq : ∀ t k, s.task t = some k → k.state = .ready → k.status = .ok → k.place = .udp v → 1 < q.rxPbufList.length)
    (hu : popback s v q = .ok u) : Holds D u.task u.pcb u.udp := by
  unfold Wake.popback at hu
  split at hu
  · cases hu
  cases hu
  refine h.udp_one hv (fun _ => .inl) fun t k hk h1 h2 hx _ => ?_
  have hlen := hq t k hk h1 h2 hx
  refine List.ne_nil_of_length_pos ?_
  rw [List.length_dropLast]
  omega

theorem Holds.udpRecv (h : Holds D s.task s.pcb s.udp) (ht : Runs s t) (hs : Sound s (.udpRecv t v)) (hu : udpRecvmsg s t v = .ok u) :
    Holds D u.task u.pcb u.udp := by
  obtain ⟨q, hq, hu⟩ := bind_ok hu
  have hv := derefUdp_ok hq
  split at hu
  · obtain ⟨ts, hts, hu⟩ := bind_ok hu
    cases hu
    obtain ⟨k, hk, rfl⟩ := taskBlock_ok hts
    have h1 : Holds D (update s.task t (some { k with state := .waiting, place := .udp v })) s.pcb s.udp := h.task ht.user fun k' hk' => by
      cases hk'
      refine ⟨⟨nofun, nofun, nofun, fun w hw => ?_⟩, nofun⟩
      cases hw
      rw [hv]
      nofun
    refine h1.udp_one hv (fun c hc => ?_) fun _ _ _ _ _ _ => id
    cases hc
    exact .inr ⟨_, update_self .., rfl, rfl⟩
  · refine h.popback hv (fun c k hk h1 h2 hx => ?_) hu
    have hl := hs.leaves c k hk h1 h2 nofun
    rw [hx] at hl
    obtain ⟨p, hp, hlen⟩ := hl
    cases hv.symm.trans hp
    exact hlen rfl

/-! ## After a wait -/

theorem Holds.away (h : Holds D ts f e) (ht : Unnamed f e t) : Holds D (update ts t (some { k with place := .user })) f e :=
  ⟨h.books, h.calls.task (fun i n hi => ⟨fun e => ht.1 i n hi (.inl e), fun e => ht.1 i n hi (.inr (.inl e)), fun e => ht.1 i n hi (.inr (.inr e))⟩)
    ht.2 fun k' hk' => by cases hk'; exact .user rfl, h.queue.task fun k' hk' _ _ => by cases hk'; trivial, fun d => (h.asleep d).task ht⟩

theorem Named.gone (h : Named ts f e) (hk : ts t = some k) (hp : ∀ i n, k.place.pcb = some i → f i = some n →
      (k.place.slot = 0 → n.acWaiter = none) ∧ (k.place.slot = 1 → n.rxWaiter = none) ∧ (k.place.slot = 2 → n.txWaiter = none))
    (hu : ∀ v q, k.place = .udp v → e v = some q → q.rxWaiter = none) : Unnamed f e t := by
  constructor
  · intro i n hi hn
    obtain ⟨k', hk', hx, -⟩ := h.place hi hn
    cases hk.symm.trans hk'
    obtain ⟨h0, h1, h2⟩ := hp i n hx hi
    obtain ⟨s0, s1, s2⟩ := h.slots hi hk
    rcases hn with hn | hn | hn
    · cases (h0 (s0 hn)).symm.trans hn
    · cases (h1 (s1 hn)).symm.trans hn
    · cases (h2 (s2 hn)).symm.trans hn
  · intro v q hv hn
    obtain ⟨k', hk', hx⟩ := h.ux v q t hv hn
    cases hk.symm.trans hk'
    cases (hu v q hx hv).symm.trans hn

theorem Holds.leave (h : Holds D ts f e) (hk : ts t = some k) (hx : k.place.pcb = some i) (hi : f i = some n) (hs : Same n p) (hc : p.conn = n.conn)
    (hw : (k.place.slot = 0 → p.acWaiter = none) ∧ (k.place.slot = 1 → p.rxWaiter = none) ∧ (k.place.slot = 2 → p.txWaiter = none)) :
    Holds D (update ts t (some { k with place := .user })) (update f i (some p)) e := by
  have h1 : Holds D ts (update f i (some p)) e := h.same hi hs (.inl (congrArg Tcp.Pcb.state hc)) fun c k' hk' h1 h2 =>
    (h.queue c k' hk' h1 h2).pcb hi hs.acclist (fun _ _ _ _ e => by rw [hc]; exact e) fun e => by rw [hc]; exact e
  refine h1.away (h1.calls.named.gone hk (fun j q hj hq => ?_) fun v q hv => ?_)
  · cases hx.symm.trans hj
    rw [update_self] at hq
    cases hq
    exact hw
  · rw [hv] at hx
    cases hx

theorem Holds.leaveUdp {q : Udp} (h : Holds D ts f e) (hk : ts t = some k) (hx : k.place = .udp v) (hv : e v = some q) :
    Holds D (update ts t (some { k with place := .user })) f (update e v (some { q with rxWaiter := none })) := by
  have h1 : Holds D ts f (update e v (some { q with rxWaiter := none })) := h.udp_one hv nofun fun _ _ _ _ _ _ => id
  refine h1.away (h1.calls.named.gone hk (fun i n hi => ?_) fun w p hw hp => ?_)
  · rw [hx] at hi
    cases hi
  · cases hx.symm.trans hw
    rw [update_self] at hp
    cases hp
    rfl

theorem Holds.resume (h : Holds D s.task s.pcb s.udp) (hs : Sound s (.resume t)) (hu : resume s t = .ok u) : Holds D u.task u.pcb u.udp := by
  unfold Wake.resume at hu
  split at hu
  · cases hu
  rename_i k hk
  -- who was woken before has its own
  have hother : ∀ c k', update s.task t (some { k with place := .user }) c = some k' → k'.place ≠ .user → s.task c = some k' ∧ c ≠ t :=
    fun c k' hk' hne => by
      rcases update_cases hk' with ⟨rfl, rfl⟩ | ⟨hct, hk'⟩
      · exact absurd rfl hne
      · exact ⟨hk', hct⟩
  unfold goOn at hu
  split at hu
  · -- `tcp_accept`
    rename_i i hx
    obtain ⟨n, hn, hu⟩ := bind_ok hu
    have hi : s.pcb i = some n := deref_ok hn
    have h1 := h.leave (p := { n with acWaiter := none }) hk (by rw [hx]; rfl) hi ⟨rfl, rfl, rfl, .inl rfl, .inr rfl, .inr rfl⟩ rfl
      (by rw [hx]; exact ⟨fun _ => rfl, nofun, nofun⟩)
    dsimp only at hu
    split at hu
    · cases hu
      exact h1
    rename_i hok
    split at hu
    · rename_i j hf
      rw [find_congr (s := s) rfl hi rfl] at hf
      have hf' := hf
      rw [← find_congr (s := s) (w := none) (u := (s.setTask (update s.task t (some { k with place := .user }))).setPcb i
        { n with acWaiter := none }) rfl hi rfl] at hf'
      refine Holds.accepted (s := (s.setTask (update s.task t (some { k with place := .user }))).setPcb i { n with acWaiter := none }) h1
        (update_self ..) hf' (fun c k' l hk' h2 h3 hl => ?_) hu
      obtain ⟨hk', hct⟩ := hother c k' hk' (by rw [hl]; nofun)
      have hleft := hs.leaves c k' hk' h2 h3 (fun e => hct (Act.resume.inj e).symm)
      rw [hl] at hleft
      obtain ⟨q, hq, b, hb, hbj, m, hm, hest⟩ := hleft.other (j := j) fun _ => ⟨k, i, n, hk, hx, not_not.1 hok, hi, hf⟩
      have hkeep : ∀ r x, s.pcb r = some x → ∃ x', update s.pcb i (some { n with acWaiter := none }) r = some x' ∧ x'.acclist = x.acclist ∧
          x'.conn = x.conn := fun r x hr => by
        by_cases hri : r = i
        · subst hri
          cases hi.symm.trans hr
          exact ⟨_, update_self .., rfl, rfl⟩
        · exact ⟨x, update_ne hri hr, rfl, rfl⟩
      obtain ⟨q', hq', hacc, -⟩ := hkeep l q hq
      obtain ⟨m', hm', -, hconn⟩ := hkeep b m hm
      exact ⟨q', hq', b, hacc ▸ hb, hbj, m', hm', by rw [hconn]; exact hest⟩
    · cases hu
  · -- `tcp_connect`
    rename_i i hx
    obtain ⟨n, hn, hu⟩ := bind_ok hu
    cases hu
    exact h.leave hk (by rw [hx]; rfl) (deref_ok hn) ⟨rfl, rfl, rfl, .inl rfl, .inr rfl, .inr rfl⟩ rfl
      (by rw [hx]; exact ⟨fun _ => rfl, nofun, nofun⟩)
  · -- `tcp_recvmsg`
    rename_i i sizes hx
    obtain ⟨n, hn, hu⟩ := bind_ok hu
    have hi : s.pcb i = some n := deref_ok hn
    have h1 := h.leave (p := { n with rxWaiter := none }) hk (by rw [hx]; rfl) hi ⟨rfl, rfl, rfl, .inr rfl, .inl rfl, .inr rfl⟩ rfl
      (by rw [hx]; exact ⟨nofun, fun _ => rfl, nofun⟩)
    split at hu
    · cases hu
      exact h1
    rename_i hok
    refine Holds.read (s := (s.setTask (update s.task t (some { k with place := .user }))).setPcb i { n with rxWaiter := none }) h1
      (update_self ..) (fun c k' xs hk' h2 h3 hl => ?_) hu
    obtain ⟨hk', hct⟩ := hother c k' hk' (by rw [hl]; nofun)
    have hleft := hs.leaves c k' hk' h2 h3 (fun e => hct (Act.resume.inj e).symm)
    rw [hl] at hleft
    obtain ⟨q, hq, hno⟩ := hleft
    cases hi.symm.trans hq
    exact Nat.not_le.1 fun hle => hno ⟨k, sizes, hk, hx, not_not.1 hok, hle⟩
  · -- `tcp_sendmsg`
    rename_i i hx
    obtain ⟨n, hn, hu⟩ := bind_ok hu
    cases hu
    exact h.leave hk (by rw [hx]; rfl) (deref_ok hn) ⟨rfl, rfl, rfl, .inr rfl, .inr rfl, .inl rfl⟩ rfl
      (by rw [hx]; exact ⟨nofun, nofun, fun _ => rfl⟩)
  · -- `udp_recvmsg`
    rename_i v hx
    obtain ⟨q, hq, hu⟩ := bind_ok hu
    have hv : s.udp v = some q := derefUdp_ok hq
    have h1 := h.leaveUdp hk hx hv
    split at hu
    · cases hu
      exact h1
    rename_i hok
    refine Holds.popback (s := (s.setTask (update s.task t (some { k with place := .user }))).setUdp v { q with rxWaiter := none }) h1
      (update_self ..) (fun c k' hk' h2 h3 hl => ?_) hu
    obtain ⟨hk', hct⟩ := hother c k' hk' (by rw [hl]; nofun)
    have hleft := hs.leaves c k' hk' h2 h3 (fun e => hct (Act.resume.inj e).symm)
    rw [hl] at hleft
    obtain ⟨p, hp, hlen⟩ := hleft
    cases hv.symm.trans hp
    exact hlen ⟨k, hk, hx, not_not.1 hok⟩
  all_goals
    rename_i hx
    cases hu
    exact h.away (h.calls.named.unnamed fun k' hk' => by cases hk.symm.trans hk'; rw [hx]; rfl)

theorem Queue.goesOn (h : Queue s.task s.pcb s.udp) : GoesOn s := by
  rintro t ⟨k, hk, hready, -⟩
  obtain ⟨s1, hs1⟩ : ∃ s1, s1 = s.setTask (update s.task t (some { k with place := .user })) := ⟨_, rfl⟩
  have hstep : step s (.resume t) = goOn s1 k.place k.status := by
    rw [hs1]
    show Wake.resume s t = _
    unfold Wake.resume
    rw [hk]
  have hpcb : s1.pcb = s.pcb := by rw [hs1]; rfl
  have hudp : s1.udp = s.udp := by rw [hs1]; rfl
  have haw := h t k hk hready
  have hbad : Sat (fun e => e = Fault.early ∨ e = Fault.empty) (goOn s1 k.place k.status) fun _ => True := by
    have hderef : ∀ {α : Type} {i : Nat} {g : Pcb → Except Fault α} {Q : α → Prop}, (∀ n, s.pcb i = some n → Sat (fun e => e = Fault.early ∨ e = Fault.empty) (g n) Q) →
        Sat (fun e => e = Fault.early ∨ e = Fault.empty) (s1.deref i >>= g) Q := by
      intro α i g Q hg
      unfold State.deref
      rw [hpcb]
      split
      · rename_i n hn
        exact hg n hn
      · exact Sat.error nofun
    unfold goOn
    split
    · rename_i i hx
      refine hderef fun n hi => sat_ite (fun _ => Sat.ok trivial) fun hok => ?_
      rw [hx] at haw
      obtain ⟨n', hn', j, hj, m, hm, hest⟩ := haw (not_not.1 hok)
      cases hi.symm.trans hn'
      split
      · unfold Wake.accepted State.deref
        split
        · exact Sat.ok trivial
        · exact Sat.error nofun
      · -- what it waited for is found
        rename_i hnone
        rw [find_congr hpcb hi (by rw [← hpcb]; rfl)] at hnone
        have hno := List.find?_eq_none.1 hnone j hj
        rw [hpcb, hm] at hno
        exact absurd (decide_eq_true (congrArg some hest)) hno
    · exact hderef fun n _ => Sat.ok trivial
    · refine hderef fun n hi => sat_ite (fun _ => Sat.ok trivial) fun _ => ?_
      unfold recvQueued conn
      split
      · exact Sat.ok trivial
      · exact Sat.error nofun
    · exact hderef fun n _ => Sat.ok trivial
    · rename_i v hx
      unfold State.derefUdp
      rw [hudp]
      split
      · rename_i q hv
        refine sat_ite (fun _ => Sat.ok trivial) fun hok => ?_
        rw [hx] at haw
        obtain ⟨q', hq', hne⟩ := haw (not_not.1 hok)
        cases hv.symm.trans hq'
        unfold Wake.popback
        rw [if_neg hne]
        exact Sat.ok trivial
      · exact Sat.error nofun
    all_goals exact Sat.ok trivial
  rw [hstep]
  exact ⟨fun e => hbad.not_bad e (.inl rfl), fun e => hbad.not_bad e (.inr rfl)⟩

/-! ## Runs -/

theorem step_holds (h : Holds D s.task s.pcb s.udp) (hs : Sound s a) (hd : D → Undisturbed s a) (hst : wake.Steps s a u) :
    Holds D u.task u.pcb u.udp := by
  obtain ⟨he, hu⟩ := hst
  cases a with
  | fork t c =>
    obtain ⟨ts, hts, hu⟩ := bind_ok hu
    cases hu
    obtain ⟨⟨k, hk, -, hplace⟩, hc⟩ := he
    unfold taskFork at hts
    rw [hk] at hts
    cases hts
    exact h.user (fun k' hk' => nomatch hc.symm.trans hk') fun k' hk' => by cases hk'; exact hplace
  | exit t =>
    obtain ⟨ts, hts, hu⟩ := bind_ok hu
    cases hu
    exact h.exit he hs hd hts
  | waitpid t pid =>
    obtain ⟨ts, hts, hu⟩ := bind_ok hu
    obtain ⟨ts', hts', hu⟩ := bind_ok hu
    cases hu
    obtain ⟨k, hk, -, hplace⟩ := he
    unfold modify at hts
    rw [hk] at hts
    cases hts
    have h1 := h.user (t := t) (o := some { k with waitpid := pid }) (fun k' hk' => by cases hk.symm.trans hk'; exact hplace) fun k' hk' => by
      cases hk'
      exact hplace
    refine h1.block (fun k' hk' => ?_) hts' rfl ⟨nofun, nofun⟩
    rw [update_self] at hk'
    cases hk'
    exact hplace
  | reap t c =>
    cases hu
    obtain ⟨-, k, hk, hdied, -⟩ := he
    exact h.user (fun k' hk' => by cases hk.symm.trans hk'; exact h.calls.died c k hk hdied) nofun
  | kill t =>
    obtain ⟨ts, hts, hu⟩ := bind_ok hu
    cases hu
    unfold sysKill at hts
    split at hts
    · cases hts
      exact h
    rename_i k hk
    split at hts
    · rename_i hw
      refine h.unblock hts (fun d k' hk' => (hd d).wakes t k' ⟨rfl, k, hk, hw⟩ hk') nofun
    · cases hts
      exact h
  | expire t =>
    obtain ⟨ts, hts, hu⟩ := bind_ok hu
    cases hu
    exact h.unblock hts (fun d k' hk' => (hd d).wakes t k' rfl hk') nofun
  | sleep t =>
    obtain ⟨ts, hts, hu⟩ := bind_ok hu
    cases hu
    exact h.block he.user hts rfl ⟨nofun, nofun⟩
  | block t d more state =>
    obtain ⟨ts, hts, hu⟩ := bind_ok hu
    cases hu
    refine h.block he.1.user hts rfl ?_
    rcases he.2 with e | e
    · subst e
      exact ⟨nofun, nofun⟩
    · subst e
      exact ⟨nofun, nofun⟩
  | interrupt d t =>
    obtain ⟨ts, hts, hu⟩ := bind_ok hu
    cases hu
    exact h.unblock hts (fun d k' hk' => (hd d).wakes t k' rfl hk') fun _ k' hk' => hs.interrupts d t k' rfl hk'
  | resume t => exact h.resume hs hu
  | socket i isn =>
    cases hu
    exact h.socket he
  | close i => exact h.close he.1 he.2 hu
  | listen i backlog => exact h.listen he.1 hu
  | accept t i => exact h.accept he.1 he.2 hs hu
  | connect t i => exact h.connect he.1 he.2 hu
  | send t i iov flags => exact h.send he.1 he.2 hu
  | recv t i sizes => exact h.recv he.1 he.2 hs hu
  | setsockopt i opt val =>
    refine h.onConn (g := fun c => .ok (Tcp.tcpSetsockopt c opt val)) (fun c d e => ?_) hu
    cases e
    cases opt <;> exact ⟨rfl, rfl, rfl, rfl⟩
  | input i g new isn => exact h.input he.2 hs hd hu
  | sent i place =>
    refine h.onConn (g := fun c => .ok (Tcp.deviceSent c place)) (fun c d e => ?_) hu
    cases e
    exact ⟨rfl, rfl, rfl, rfl⟩
  | slowtimo i =>
    refine h.onConn (g := fun c => .ok (Tcp.tcpSlowtimo c)) (fun c d e => ?_) hu
    cases e
    exact ⟨rfl, rfl, rfl, rfl⟩
  | fastimo i => exact h.onConn (fun c d e => Tcp.tcpFastimo_recv e) hu
  | timeout i type => exact h.timeout he hs hu
  | udpSocket v =>
    cases hu
    exact h.udpSocket he
  | udpClose v =>
    cases hu
    exact h.udpClose he
  | udpInput v payload => exact h.udpInput hu
  | udpRecv t v => exact h.udpRecv he.1 hs hu

theorem start_holds (h : wake.start s) : Holds D s.task s.pcb s.udp := by
  obtain ⟨h1, h2, h3, -⟩ := h
  have hp : ∀ i n, s.pcb i ≠ some n := fun i n hi => nomatch (h2 i).symm.trans hi
  have hu : ∀ v q, s.udp v ≠ some q := fun v q hv => nomatch (h3 v).symm.trans hv
  have hnamed : Named s.task s.pcb s.udp :=
    ⟨fun i n _ hi => absurd hi (hp i n), fun i n _ hi => absurd hi (hp i n), fun i n _ hi => absurd hi (hp i n), fun v q _ hv => absurd hv (hu v q)⟩
  have hcalls : Calls s.task s.pcb s.udp := by
    refine ⟨fun t k hk _ => (h1 t k hk).2, fun t k i hk hx => ?_, fun t k i hk hx => ?_, fun t k v hk hx => ?_, hnamed⟩
    · rw [(h1 t k hk).2] at hx
      cases hx
    · cases (h1 t k hk).2.symm.trans hx
    · cases (h1 t k hk).2.symm.trans hx
  refine ⟨⟨fun i n _ hi => absurd hi (hp i n), fun i n hi => absurd hi (hp i n), fun i n hi => absurd hi (hp i n), fun i n hi => absurd hi (hp i n)⟩,
    hcalls, fun t k hk _ _ => ?_, fun _ => ⟨fun i n _ _ hi => absurd hi (hp i n), fun v q _ _ hv => absurd hv (hu v q)⟩⟩
  rw [(h1 t k hk).2]
  trivial

theorem reach_holds (h : wake.Reach (fun s a => Sound s a ∧ (D → Undisturbed s a)) s) : Holds D s.task s.pcb s.udp :=
  h.inv (I := fun s => Holds D s.task s.pcb s.udp) (fun _ => start_holds) fun _ _ _ h hP hst => step_holds h hP.1 hP.2 hst

/-- In a run without the wake-ups and the reads of `Sound`, who is woken with `EOK` finds the queue it waited for and goes on, and a
waiter is a task in that call on that pcb; when nothing else wakes such a task either, it is blocked. -/
theorem wakeups_justified :
    (wake.Reach Sound s → Queue s.task s.pcb s.udp ∧ GoesOn s ∧ Named s.task s.pcb s.udp) ∧
    (wake.Reach (fun s a => Sound s a ∧ Undisturbed s a) s →
      Queue s.task s.pcb s.udp ∧ GoesOn s ∧ Named s.task s.pcb s.udp ∧ Asleep s.task s.pcb s.udp) := by
  constructor
  · intro h
    have hh := reach_holds (D := False) (h.mono fun s a hs => ⟨hs, False.elim⟩)
    exact ⟨hh.queue, hh.queue.goesOn, hh.calls.named⟩
  · intro h
    have hh := reach_holds (D := True) (h.mono fun s a hs => ⟨hs.1, fun _ => hs.2⟩)
    exact ⟨hh.queue, hh.queue.goesOn, hh.calls.named, hh.asleep trivial⟩

def boot : State := ⟨Function.update (fun _ => none) 2 (some ⟨0, .ready, .ok, 0, .user⟩), fun _ => none, fun _ => none, fun _ => []⟩

theorem boot_start : wake.start boot := by
  refine ⟨fun t k hk => ?_, fun _ => rfl, fun _ => rfl, fun _ => rfl⟩
  have hk : update (fun _ => none) 2 (some _) t = some k := hk
  rcases update_cases hk with ⟨-, rfl⟩ | ⟨-, hk⟩
  · exact ⟨rfl, rfl⟩
  · cases hk

theorem boot_reach {P : State → Act → Prop} : wake.Reach P boot := ⟨boot, boot_start, .refl _⟩

/-- A task waits for a packet, which comes. -/
theorem wakeups_justified_packet : ∃ s, wake.Reach (fun s a => Sound s a ∧ Undisturbed s a) s ∧
    s.task 2 = some ⟨0, .ready, .ok, 0, .udp 5⟩ ∧ Queue s.task s.pcb s.udp ∧ GoesOn s ∧ Named s.task s.pcb s.udp ∧ Asleep s.task s.pcb s.udp := by
  -- a step that neither unblocks nor takes, while nobody has been woken
  have hcalm : ∀ s a, (∀ t k, s.task t = some k → k.state = .ready → k.place = .user) → (∀ t, ¬ Unblocks s t a) → (∀ t, a ≠ .exit t) →
      (∀ d t, a ≠ .interrupt d t) → (∀ i g new isn, a ≠ .input i g new isn) → Sound s a ∧ Undisturbed s a := fun s a h h1 h2 h3 h4 =>
    ⟨⟨fun t k hk hr _ _ => by rw [h t k hk hr]; trivial, fun t _ _ e => absurd e (h2 t), fun d t _ e => absurd e (h3 d t)⟩,
      ⟨fun t _ hu => absurd hu (h1 t), fun i g new isn _ _ _ _ e => absurd e (h4 i g new isn)⟩⟩
  have r1 := (boot_reach (P := fun s a => Sound s a ∧ Undisturbed s a)).next (.udpSocket 5)
    (hcalm _ _ (fun t k hk _ => (boot_start.1 t k hk).2) (fun _ => id) nofun nofun nofun) rfl rfl
  have r2 := r1.next (.udpRecv 2 5) (hcalm _ _ (fun t k hk _ => (boot_start.1 t k hk).2) (fun _ => id) nofun nofun nofun)
    ⟨⟨_, rfl, rfl, rfl⟩, nofun⟩ rfl
  have r3 := r2.next (.udpInput 5 [1]) (hcalm _ _ (fun t k hk hr => ?_) (fun _ => id) nofun nofun nofun) nofun rfl
  · exact ⟨_, r3, rfl, wakeups_justified.2 r3⟩
  · rcases update_cases hk with ⟨-, rfl⟩ | ⟨-, hk⟩
    · cases hr
    · exact (boot_start.1 t k hk).2

/-- A task that once waited for any child is woken by the exit of another while it waits for a packet. -/
theorem child_exit_wakes : ∃ s, wake.Reach Machine.Any s ∧ ¬ Queue s.task s.pcb s.udp ∧ ¬ GoesOn s ∧ step s (.resume 2) = .error .empty := by
  have r1 := (boot_reach (P := Machine.Any)).next (.fork 2 3) trivial ⟨⟨_, rfl, rfl, rfl⟩, rfl⟩ rfl
  have r2 := r1.next (.fork 2 4) trivial ⟨⟨_, rfl, rfl, rfl⟩, rfl⟩ rfl
  have r3 := r2.next (.waitpid 2 (-1)) trivial ⟨_, rfl, rfl, rfl⟩ rfl
  have r4 := r3.next (.exit 3) trivial ⟨_, rfl, rfl, rfl⟩ rfl
  have r5 := r4.next (.resume 2) trivial ⟨_, rfl, rfl, nofun⟩ rfl
  have r6 := r5.next (.reap 2 3) trivial ⟨⟨_, rfl, rfl, rfl⟩, ⟨_, rfl, rfl, rfl⟩⟩ rfl
  have r7 := r6.next (.udpSocket 5) trivial rfl rfl
  have r8 := r7.next (.udpRecv 2 5) trivial ⟨⟨_, rfl, rfl, rfl⟩, nofun⟩ rfl
  have r9 := r8.next (.exit 4) trivial ⟨_, rfl, rfl, rfl⟩ rfl
  refine ⟨_, r9, fun h => ?_, fun h => ?_, rfl⟩
  · obtain ⟨q, hq, hne⟩ := h 2 _ rfl rfl rfl
    cases hq
    exact hne rfl
  · exact (h 2 ⟨_, rfl, rfl, nofun⟩).2 rfl

end Onix.Wake
