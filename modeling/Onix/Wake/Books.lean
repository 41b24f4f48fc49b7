/-
Which pcbs are on an `acclist` and which have a socket, and what each function of the model does to the table of pcbs: one pcb
changes and stays where it is, one leaves its listener for a socket, or one is freed with all it has queued.
-/
import Onix.Own.Steps
import Onix.Wake.Model

namespace Onix.Wake

open Function Onix.Lib
open Onix.Tcp (Segment Seq Flags TcpState TcpTimer SockOpt TimeoutEnds SameRecv)
open Onix.Own (ofSock ofAcc Follows)

abbrev Pcbs := Nat → Option Pcb

/-- A pcb on an `acclist` is in use, knows its listener and has no socket; only a listener has an `acclist`; a pcb in
`SYN_RCVD` is on one. -/
structure Books (f : Pcbs) : Prop where
  child : ∀ l n j, f l = some n → j ∈ n.acclist → ∃ m, f j = some m ∧ m.listener = some l ∧ m.sock = false ∧ ofAcc m.conn.state
  leaf : ∀ l n, f l = some n → n.conn.state ≠ .listen → n.acclist = []
  syn : ∀ j m, f j = some m → m.conn.state = .synRcvd → ∃ l n, m.listener = some l ∧ f l = some n ∧ j ∈ n.acclist
  sock : ∀ i n, f i = some n → n.sock = true → ofSock n.conn.state

variable {f : Pcbs} {i j l : Nat} {n m p : Pcb}

theorem update_cases {α : Type} {f : Nat → Option α} {a b : α} (h : update f i (some a) l = some b) :
    (l = i ∧ b = a) ∨ (l ≠ i ∧ f l = some b) := by
  by_cases hl : l = i
  · subst hl
    rw [update_self] at h
    exact .inl ⟨rfl, (Option.some.inj h).symm⟩
  · rw [update_of_ne hl] at h
    exact .inr ⟨hl, h⟩

theorem update_ne {α : Type} {f : Nat → Option α} {a b : α} (hl : l ≠ i) (h : f l = some b) : update f i (some a) l = some b := by
  rw [update_of_ne hl]
  exact h

theorem Follows.syn {st st' : TcpState} (h : Follows st st') (hs : st' = .synRcvd) : st = .synRcvd := by
  rcases h with h | h | ⟨fin, h⟩
  · exact h.symm.trans hs
  · exact absurd (h.1.symm.trans hs) (by decide)
  · subst hs
    revert h
    cases st <;> cases fin <;> decide

theorem Books.not_queued (h : Books f) (hi : f i = some n) (hs : n.sock = true) (hl : f l = some m) : i ∉ m.acclist := fun hm => by
  obtain ⟨p, hp, -, hps, -⟩ := h.child l m i hl hm
  cases hi.symm.trans hp
  exact absurd (hs.symm.trans hps) (by decide)

theorem Books.child_leaf (h : Books f) (hl : f l = some n) (hj : j ∈ n.acclist) (hm : f j = some m) : m.acclist = [] := by
  obtain ⟨p, hp, -, -, hst⟩ := h.child l n j hl hj
  cases hm.symm.trans hp
  refine h.leaf j m hm fun e => ?_
  rw [e] at hst
  exact absurd hst (by decide)

structure Local (n p : Pcb) : Prop where
  acclist : p.acclist = n.acclist
  listener : p.listener = n.listener
  sock : p.sock = n.sock
  follows : Follows n.conn.state p.conn.state

theorem Books.local (h : Books f) (hi : f i = some n) (hl : Local n p) : Books (update f i (some p)) := by
  -- a pcb of the new table and the one it was
  have hold : ∀ j m, update f i (some p) j = some m → ∃ m', f j = some m' ∧ m.acclist = m'.acclist ∧ m.listener = m'.listener ∧
      m.sock = m'.sock ∧ Follows m'.conn.state m.conn.state := fun j m hj => by
    rcases update_cases hj with ⟨rfl, rfl⟩ | ⟨-, hj⟩
    · exact ⟨n, hi, hl.acclist, hl.listener, hl.sock, hl.follows⟩
    · exact ⟨m, hj, rfl, rfl, rfl, .inl rfl⟩
  have hnew : ∀ j m', f j = some m' → ∃ m, update f i (some p) j = some m ∧ m.acclist = m'.acclist ∧ m.listener = m'.listener ∧
      m.sock = m'.sock ∧ Follows m'.conn.state m.conn.state := fun j m' hj => by
    by_cases hji : j = i
    · subst hji
      cases hi.symm.trans hj
      exact ⟨p, update_self .., hl.acclist, hl.listener, hl.sock, hl.follows⟩
    · exact ⟨m', update_ne hji hj, rfl, rfl, rfl, .inl rfl⟩
  constructor
  · intro l q j hq hj
    obtain ⟨q', hq', ha, -⟩ := hold l q hq
    obtain ⟨m', hm', e1, e2, e3⟩ := h.child l q' j hq' (ha ▸ hj)
    obtain ⟨m, hm, -, f1, f2, f3⟩ := hnew j m' hm'
    exact ⟨m, hm, f1.trans e1, f2.trans e2, f3.facts.2.1 e3⟩
  · intro l q hq hst
    obtain ⟨q', hq', ha, -, -, hf⟩ := hold l q hq
    rw [ha]
    exact h.leaf l q' hq' fun e => hst (hf.facts.2.2.2.2 e)
  · intro j m hm hst
    obtain ⟨m', hm', -, e1, -, hf⟩ := hold j m hm
    obtain ⟨l, q, e2, hq, hj⟩ := h.syn j m' hm' (Follows.syn hf hst)
    obtain ⟨q', hq', ha, -⟩ := hnew l q hq
    exact ⟨l, q', e1.trans e2, hq', ha ▸ hj⟩
  · intro j m hm hs
    obtain ⟨m', hm', -, -, e, hf⟩ := hold j m hm
    exact hf.facts.1 (h.sock j m' hm' (e ▸ hs))

theorem Books.own (h : Books f) (hi : f i = some n) (hs : n.sock = true) (ha : p.acclist = n.acclist)
    (hleaf : p.conn.state ≠ .listen → n.acclist = []) (hsyn : p.conn.state ≠ .synRcvd) (hsock : p.sock = true → ofSock p.conn.state) :
    Books (update f i (some p)) := by
  have hchild : ∀ l q j, f l = some q → j ∈ q.acclist → ∃ m, update f i (some p) j = some m ∧ m.listener = some l ∧
      m.sock = false ∧ ofAcc m.conn.state := fun l q j hq hj => by
    obtain ⟨m, hm, h1⟩ := h.child l q j hq hj
    exact ⟨m, update_ne (fun e => h.not_queued hi hs hq (e ▸ hj)) hm, h1⟩
  constructor
  · intro l q j hq hj
    rcases update_cases hq with ⟨rfl, rfl⟩ | ⟨-, hq⟩
    · exact hchild l n j hi (ha ▸ hj)
    · exact hchild l q j hq hj
  · intro l q hq hst
    rcases update_cases hq with ⟨rfl, rfl⟩ | ⟨-, hq⟩
    · exact ha.trans (hleaf hst)
    · exact h.leaf l q hq hst
  · intro j m hm hst
    rcases update_cases hm with ⟨rfl, rfl⟩ | ⟨-, hm⟩
    · exact absurd hst hsyn
    · obtain ⟨l, q, h1, hq, hj⟩ := h.syn j m hm hst
      by_cases hli : l = i
      · subst hli
        cases hi.symm.trans hq
        exact ⟨l, p, h1, update_self .., ha ▸ hj⟩
      · exact ⟨l, q, h1, update_ne hli hq, hj⟩
  · intro j m hm hsj
    rcases update_cases hm with ⟨rfl, rfl⟩ | ⟨-, hm⟩
    · exact hsock hsj
    · exact h.sock j m hm hsj

theorem Books.alloc (h : Books f) (hi : f i = none) (ha : p.acclist = []) (hst : p.conn.state = .closed) :
    Books (update f i (some p)) := by
  have hold : ∀ l q, f l = some q → l ≠ i := fun l q hq e => by
    rw [e, hi] at hq
    cases hq
  constructor
  · intro l q j hq hj
    rcases update_cases hq with ⟨rfl, rfl⟩ | ⟨-, hq⟩
    · rw [ha] at hj
      cases hj
    · obtain ⟨m, hm, h1⟩ := h.child l q j hq hj
      exact ⟨m, update_ne (hold j m hm) hm, h1⟩
  · intro l q hq hl
    rcases update_cases hq with ⟨rfl, rfl⟩ | ⟨-, hq⟩
    · exact ha
    · exact h.leaf l q hq hl
  · intro j m hm hs
    rcases update_cases hm with ⟨rfl, rfl⟩ | ⟨-, hm⟩
    · exact absurd (hst.symm.trans hs) (by decide)
    · obtain ⟨l, q, h1, hq, hj⟩ := h.syn j m hm hs
      exact ⟨l, q, h1, update_ne (hold l q hq) hq, hj⟩
  · intro j m hm hs
    rcases update_cases hm with ⟨rfl, rfl⟩ | ⟨-, hm⟩
    · exact .inl hst
    · exact h.sock j m hm hs

theorem Books.spawn {new : Nat} (h : Books f) (hi : f i = some n) (hst : n.conn.state = .listen) (hnew : f new = none)
    (hp : p.conn.state = .listen ∧ p.acclist = new :: n.acclist ∧ p.sock = n.sock ∧ p.listener = n.listener)
    (hm : m.conn.state = .synRcvd ∧ m.acclist = [] ∧ m.sock = false ∧ m.listener = some i) :
    Books (update (update f i (some p)) new (some m)) := by
  obtain ⟨hp1, hp2, hp3, hp4⟩ := hp
  obtain ⟨hm1, hm2, hm3, hm4⟩ := hm
  have hni : new ≠ i := fun e => by
    rw [e, hi] at hnew
    cases hnew
  have hold : ∀ l q, f l = some q → l ≠ new := fun l q hq e => by
    rw [e, hnew] at hq
    cases hq
  have hget : ∀ l q, f l = some q → l ≠ i → update (update f i (some p)) new (some m) l = some q := fun l q hq hli =>
    update_ne (hold l q hq) (update_ne hli hq)
  have hgeti : update (update f i (some p)) new (some m) i = some p := by
    rw [update_of_ne hni.symm, update_self]
  -- a child is not the listener
  have hci : ∀ l q, f l = some q → ∀ j, j ∈ q.acclist → j ≠ i := fun l q hq j hj e => by
    obtain ⟨c, hc, -, -, hacc⟩ := h.child l q j hq hj
    rw [e, hi] at hc
    cases hc
    rw [hst] at hacc
    exact absurd hacc (by decide)
  have hcases : ∀ l q, update (update f i (some p)) new (some m) l = some q →
      (l = new ∧ q = m) ∨ (l = i ∧ q = p) ∨ (l ≠ i ∧ f l = some q) := fun l q hq =>
    (update_cases hq).imp_right fun ⟨_, hq⟩ => update_cases hq
  constructor
  · intro l q j hq hj
    rcases hcases l q hq with ⟨rfl, rfl⟩ | ⟨rfl, rfl⟩ | ⟨hli, hq⟩
    · rw [hm2] at hj
      cases hj
    · rw [hp2] at hj
      rcases List.mem_cons.1 hj with rfl | hj
      · exact ⟨m, update_self .., hm4, hm3, .inr (.inl hm1)⟩
      · obtain ⟨c, hc, h1⟩ := h.child l n j hi hj
        exact ⟨c, hget j c hc (hci l n hi j hj), h1⟩
    · obtain ⟨c, hc, h1⟩ := h.child l q j hq hj
      exact ⟨c, hget j c hc (hci l q hq j hj), h1⟩
  · intro l q hq hl
    rcases hcases l q hq with ⟨rfl, rfl⟩ | ⟨rfl, rfl⟩ | ⟨hli, hq⟩
    · exact hm2
    · exact absurd hp1 hl
    · exact h.leaf l q hq hl
  · intro j c hc hs
    rcases hcases j c hc with ⟨rfl, rfl⟩ | ⟨rfl, rfl⟩ | ⟨hji, hc⟩
    · exact ⟨i, p, hm4, hgeti, hp2 ▸ .head _⟩
    · exact absurd (hp1.symm.trans hs) (by decide)
    · obtain ⟨l, q, h1, hq, hj⟩ := h.syn j c hc hs
      by_cases hli : l = i
      · subst hli
        cases hi.symm.trans hq
        exact ⟨l, p, h1, hgeti, hp2 ▸ .tail _ hj⟩
      · exact ⟨l, q, h1, hget l q hq hli, hj⟩
  · intro j c hc hs
    rcases hcases j c hc with ⟨rfl, rfl⟩ | ⟨rfl, rfl⟩ | ⟨hji, hc⟩
    · exact absurd (hm3.symm.trans hs) (by decide)
    · exact .inr (.inl hp1)
    · exact h.sock j c hc hs

theorem Books.accept (h : Books f) (hi : f i = some n) (hj : j ∈ n.acclist) (hm : f j = some m) (hst : m.conn.state = .established)
    (hp : p.conn.state = n.conn.state ∧ p.acclist = n.acclist.filter (fun c => decide (c ≠ j)) ∧ p.sock = n.sock ∧ p.listener = n.listener) :
    Books (update (update f i (some p)) j (some { m with sock := true })) := by
  obtain ⟨hp1, hp2, hp3, hp4⟩ := hp
  have hlist : n.conn.state = .listen := by
    by_contra hne
    rw [h.leaf i n hi hne] at hj
    cases hj
  obtain ⟨m', hm', hml, hms, hacc⟩ := h.child i n j hi hj
  cases hm.symm.trans hm'
  have hji : j ≠ i := fun e => by
    rw [e, hi] at hm
    cases hm
    exact absurd (hlist.symm.trans hst) (by decide)
  have hcases : ∀ l q, update (update f i (some p)) j (some { m with sock := true }) l = some q →
      (l = j ∧ q = { m with sock := true }) ∨ (l = i ∧ q = p) ∨ (l ≠ i ∧ l ≠ j ∧ f l = some q) := fun l q hq =>
    (update_cases hq).imp_right fun ⟨hlj, hq⟩ => (update_cases hq).imp_right fun ⟨hli, hq⟩ => ⟨hli, hlj, hq⟩
  have hget : ∀ l q, f l = some q → l ≠ i → l ≠ j →
      update (update f i (some p)) j (some { m with sock := true }) l = some q := fun l q hq hli hlj =>
    update_ne hlj (update_ne hli hq)
  have hgeti : update (update f i (some p)) j (some { m with sock := true }) i = some p := by
    rw [update_of_ne hji.symm, update_self]
  have hchild : ∀ l q c, f l = some q → c ∈ q.acclist → c ≠ j ∨ l ≠ i → ∃ r,
      update (update f i (some p)) j (some { m with sock := true }) c = some r ∧ r.listener = some l ∧ r.sock = false ∧
        ofAcc r.conn.state := fun l q c hq hc hne => by
    obtain ⟨r, hr, h1, h2, h3⟩ := h.child l q c hq hc
    have hcj : c ≠ j := by
      rintro rfl
      cases hm.symm.trans hr
      have : l = i := Option.some.inj (h1.symm.trans hml)
      exact hne.elim (fun e => e rfl) fun e => e this
    have hci : c ≠ i := by
      rintro rfl
      cases hi.symm.trans hr
      rw [hlist] at h3
      exact absurd h3 (by decide)
    exact ⟨r, hget c r hr hci hcj, h1, h2, h3⟩
  constructor
  · intro l q c hq hc
    rcases hcases l q hq with ⟨rfl, rfl⟩ | ⟨rfl, rfl⟩ | ⟨hli, -, hq⟩
    · have hc : c ∈ m.acclist := hc
      rw [h.child_leaf hi hj hm] at hc
      cases hc
    · rw [hp2, List.mem_filter] at hc
      exact hchild l n c hi hc.1 (.inl (of_decide_eq_true hc.2))
    · exact hchild l q c hq hc (.inr hli)
  · intro l q hq hl
    rcases hcases l q hq with ⟨rfl, rfl⟩ | ⟨rfl, rfl⟩ | ⟨-, -, hq⟩
    · show m.acclist = []
      exact h.child_leaf hi hj hm
    · exact absurd (hp1.trans hlist) hl
    · exact h.leaf l q hq hl
  · intro c r hr hs
    rcases hcases c r hr with ⟨rfl, rfl⟩ | ⟨rfl, rfl⟩ | ⟨hci, hcj, hr⟩
    · exact absurd (hst.symm.trans hs) (by decide)
    · exact absurd ((hp1.trans hlist).symm.trans hs) (by decide)
    · obtain ⟨l, q, h1, hq, hc⟩ := h.syn c r hr hs
      by_cases hli : l = i
      · subst hli
        cases hi.symm.trans hq
        exact ⟨l, p, h1, hgeti, by rw [hp2, List.mem_filter]; exact ⟨hc, decide_eq_true hcj⟩⟩
      · by_cases hlj : l = j
        · subst hlj
          cases hm.symm.trans hq
          rw [h.child_leaf hi hj hm] at hc
          cases hc
        · exact ⟨l, q, h1, hget l q hq hli hlj, hc⟩
  · intro c r hr hs
    rcases hcases c r hr with ⟨rfl, rfl⟩ | ⟨rfl, rfl⟩ | ⟨-, -, hr⟩
    · exact .inr (.inr (.inr (.inl hst)))
    · rw [hp1]
      exact h.sock c n hi (hp3 ▸ hs)
    · exact h.sock c r hr hs

def dropped (f : Pcbs) (i : Nat) (l : List Nat) : Pcbs := fun j => if j = i ∨ j ∈ l then none else f j

theorem Books.drop (h : Books f) (hi : f i = some n) (hq : ∀ l m, f l = some m → i ∉ m.acclist) : Books (dropped f i n.acclist) := by
  have hold : ∀ l q, dropped f i n.acclist l = some q → l ≠ i ∧ l ∉ n.acclist ∧ f l = some q := fun l q hl => by
    unfold dropped at hl
    split at hl
    · cases hl
    · rename_i hne
      exact ⟨fun e => hne (.inl e), fun e => hne (.inr e), hl⟩
  have hnew : ∀ l q, l ≠ i → l ∉ n.acclist → f l = some q → dropped f i n.acclist l = some q := fun l q h1 h2 h3 => by
    unfold dropped
    rw [if_neg fun e => e.elim h1 h2]
    exact h3
  constructor
  · intro l q j hl hj
    obtain ⟨hli, hln, hl⟩ := hold l q hl
    obtain ⟨m, hm, h1, h2⟩ := h.child l q j hl hj
    refine ⟨m, hnew j m (fun e => hq l q hl (e ▸ hj)) (fun e => ?_) hm, h1, h2⟩
    obtain ⟨m', hm', h3, -⟩ := h.child i n j hi e
    cases hm.symm.trans hm'
    exact hli (Option.some.inj (h1.symm.trans h3))
  · intro l q hl hst
    exact h.leaf l q (hold l q hl).2.2 hst
  · intro j m hm hs
    obtain ⟨hji, hjn, hm⟩ := hold j m hm
    obtain ⟨l, q, h1, hl, hj⟩ := h.syn j m hm hs
    refine ⟨l, q, h1, hnew l q (fun e => ?_) (fun e => ?_) hl, hj⟩
    · subst e
      cases hi.symm.trans hl
      exact hjn hj
    · rw [h.child_leaf hi e hl] at hj
      cases hj
  · intro j m hm hs
    exact h.sock j m (hold j m hm).2.2 hs

end Onix.Wake
