/-
What a delivery brings back: after the last instruction of the restorer the task has the registers it had before, however deliveries are
nested, and it has the mask if the frame holds it or the handler has put it back.
-/
import Onix.Lib.Loop
import Onix.Signal.Frame

namespace Onix.Signal

open Onix.Lib

variable {s t : State} {d : Delivery} {ds : List Delivery} {r : Regs} {m : ByteMem} {u : User}

/-! ## One step of a delivery -/

def State.moved (s : State) (d : Delivery) (ds : List Delivery) (st : Stage) : State :=
  { s with
    user := { s.user with
      regs := (instruction s.entry s.user.regs s.user.mem d.stage).1
      mem := (instruction s.entry s.user.regs s.user.mem d.stage).2 }
    stack := { d with stage := st } :: ds }

def State.masked (s : State) (d : Delivery) (ds : List Delivery) : State :=
  { s with
    user := ({ s.user with task := (sysSsetmask s.user.task (s.user.mem.load (d.slot 2))).1 } : User).returns
      (sysSsetmask s.user.task (s.user.mem.load (d.slot 2))).2
    stack := { d with stage := .called } :: ds }

def State.over (s : State) (ds : List Delivery) : State :=
  { s with user := { s.user with regs := ret s.user.regs s.user.mem }, stack := ds }

theorem nextStep_ok (hs : s.stack = d :: ds) (h : nextStep s = .ok t) :
    (d.stage = .calling ∧ t = s.masked d ds) ∨ (d.stage = .ret ∧ t = s.over ds) ∨
      ∃ st, d.stage ≠ .calling ∧ d.stage.next = some st ∧ t = s.moved d ds st := by
  unfold nextStep at h
  rw [hs] at h
  dsimp only at h
  split at h
  · cases h
  · split at h
    · rename_i hst
      cases h
      exact .inl ⟨hst, rfl⟩
    · rename_i hst
      right
      cases h
      cases hn : d.stage.next with
      | some st =>
        right
        exact ⟨st, hst, rfl, rfl⟩
      | none =>
        left
        have hret : d.stage = .ret := by
          revert hn
          cases d.stage <;> simp [Stage.next]
        refine ⟨hret, ?_⟩
        rw [hret]
        rfl

theorem sysSsetmask_same (t : Task) (b : Word) : (sysSsetmask t b).1.uid = t.uid ∧ (sysSsetmask t b).1.signal = t.signal := by
  unfold sysSsetmask
  split <;> exact ⟨rfl, rfl⟩

theorem sysSignal_same (t : Task) (sig : Int) (h r : Word) : (sysSignal t sig h r).1.uid = t.uid ∧ (sysSignal t sig h r).1.signal = t.signal := by
  unfold sysSignal
  split <;> exact ⟨rfl, rfl⟩

theorem sysSigaction_same (u : User) (sig : Int) (a o : Word) :
    (sysSigaction u sig a o).1.task.uid = u.task.uid ∧ (sysSigaction u sig a o).1.task.signal = u.task.signal ∧
      (sysSigaction u sig a o).1.task.blocked = u.task.blocked ∧ (sysSigaction u sig a o).1.regs = u.regs := by
  unfold sysSigaction
  split <;> exact ⟨rfl, rfl, rfl, rfl⟩

theorem Stands.calling {v : Word} (h : Stands m r d) (hst : d.stage = .calling) : Stands m { r with eax := v } { d with stage := .called } := by
  refine ⟨h.room, ?_, ?_, ?_, ?_, h.flags, ?_, ?_, ?_, ?_⟩
  · intro i hi hk
    apply h.words i hi
    rw [hst]
    simp [Stage.keeps] at hk ⊢
    omega
  · have := h.low
    rw [hst] at this
    exact this
  · rintro k ⟨⟩
  · rintro k ⟨⟩
  all_goals
    intro h4
    simp [Stage.low] at h4

theorem instruction_mem (entry : Word) (r : Regs) (m : ByteMem) {st : Stage} (h : st ≠ .call) : (instruction entry r m st).2 = m := by
  cases st
  case call => exact absurd rfl h
  all_goals rfl

theorem instruction_kept {entry : Word} (h : Stands m r d) (hc : Chain m d.regs ds) : Kept m (instruction entry r m d.stage).2 ds := by
  by_cases hcall : d.stage = .call
  · rw [hcall]
    have hesp : r.esp - 4 = d.slot 1 := by rw [h.exact 2 (by rw [hcall]; rfl), slot_pred]
    have hframe := h.frame
    have hslot := h.slot (show 1 < 8 by decide)
    apply hc.storeWords [r.eip + 5]
    rw [hesp, List.length_singleton]
    omega
  · rw [instruction_mem entry r m hcall]
    intro _ _ _ _ _
    rfl

structure Inv (s : State) : Prop where
  user : s.user.task.uid ≠ 0
  signal : s.user.task.signal.getLsbD 31 = false
  chain : Chain s.user.mem s.user.regs s.stack

theorem Inv.next (h : Inv s) (he : Enabled s .next) (hn : nextStep s = .ok t) : Inv t := by
  obtain ⟨d, hd, hhandler, hcalled⟩ := he
  obtain ⟨ds, hs⟩ := List.head?_eq_some_iff.1 hd
  obtain ⟨hu, hsig, hc⟩ := h
  rw [hs] at hc
  obtain ⟨hc1, hc2⟩ := hc
  rcases nextStep_ok hs hn with ⟨hst, rfl⟩ | ⟨hst, rfl⟩ | ⟨st, hst, hnext, rfl⟩
  · obtain ⟨h1, h2⟩ := sysSsetmask_same s.user.task (s.user.mem.load (d.slot 2))
    exact ⟨by rw [State.masked, User.returns, h1]; exact hu, by rw [State.masked, User.returns, h2]; exact hsig, hc1.calling hst, hc2⟩
  · refine ⟨hu, hsig, ?_⟩
    change Chain s.user.mem (ret s.user.regs s.user.mem) ds
    rw [hc1.last hst]
    exact hc2
  · refine ⟨hu, hsig, hc1.next hnext hst hhandler hcalled, ?_⟩
    exact hc2.kept (instruction_kept hc1 hc2)

/-! ## Steps and runs -/

theorem Inv.deliver (h : Inv s) (he : 32 ≤ s.user.regs.esp.toNat) (hs : step s .deliver = .ok t) : Inv t := by
  obtain ⟨⟨v, o⟩, hv, ht⟩ := bind_ok hs
  obtain ⟨hu, hsig, hc⟩ := h
  have htaken : ∀ sig, (s.user.taken sig).task.signal.getLsbD 31 = false := by
    intro sig
    change (s.user.task.signal &&& ~~~SIGMASK sig).getLsbD 31 = false
    rw [BitVec.getLsbD_and, hsig, Bool.false_and]
  rcases taskSignal_ok hv with ⟨rfl, rfl | ⟨sig, rfl⟩⟩ | ⟨sig, x, rfl, rfl⟩
  · cases ht
    exact ⟨hu, hsig, hc⟩
  · cases ht
    exact ⟨hu, htaken sig, hc⟩
  · cases ht
    refine ⟨?_, ?_, ?_, ?_⟩
    · rw [putFrame_uid]
      exact hu
    · rw [putFrame_signal]
      exact htaken sig
    · exact putFrame_stands (u := s.user.taken sig) he
    · exact hc.kept (putFrame_kept (u := s.user.taken sig) hc he)

theorem Inv.returns {v : Word} (h : Inv s) (huid : u.task.uid = s.user.task.uid) (hsig : u.task.signal = s.user.task.signal)
    (hregs : u.regs = s.user.regs) (hk : Kept s.user.mem u.mem s.stack) (hd : ∀ d ∈ s.stack.head?, d.stage = .handler)
    (ht : Except.ok (ε := Stop) { s with user := u.returns v } = .ok t) : Inv t := by
  cases ht
  refine ⟨?_, ?_, ?_⟩
  · exact huid ▸ h.user
  · exact hsig ▸ h.signal
  · apply Chain.eax _ hd
    rw [hregs]
    exact h.chain.kept hk

theorem step_inv {a : Act} (h : Inv s) (hs : machine.Steps s a t) : Inv t := by
  obtain ⟨he, hs⟩ := hs
  cases a with
  | run regs mem =>
    obtain ⟨hk, hf, hfree⟩ := he
    cases hs
    exact ⟨h.user, h.signal, (h.chain.kept hk).free hfree hf⟩
  | raise sig =>
    cases hs
    refine ⟨h.user, ?_, h.chain⟩
    have hbit : (SIGMASK sig).getLsbD 31 = false := by
      obtain ⟨h1, h2⟩ := he
      rw [SIGMASK_bit]
      simp only [MAXSIG] at h2
      simp
      omega
    rw [BitVec.getLsbD_or, h.signal, hbit]
    rfl
  | deliver => exact h.deliver he hs
  | ssetmask newmask =>
    obtain ⟨h1, h2⟩ := sysSsetmask_same s.user.task newmask
    exact h.returns (u := { s.user with task := (sysSsetmask s.user.task newmask).1 }) h1 h2 rfl (fun _ _ _ _ _ => rfl) he hs
  | signal sig handler restorer =>
    obtain ⟨h1, h2⟩ := sysSignal_same s.user.task sig handler restorer
    exact h.returns (u := { s.user with task := (sysSignal s.user.task sig handler restorer).1 }) h1 h2 rfl (fun _ _ _ _ _ => rfl) he hs
  | sigaction sig action oldaction =>
    obtain ⟨h1, h2, -, h4⟩ := sysSigaction_same s.user sig action oldaction
    exact h.returns h1 h2 h4 he.2 he.1 hs
  | next => exact h.next he hs

theorem start_inv (h : Start s) : Inv s := by
  obtain ⟨h1, h2, h3⟩ := h
  refine ⟨h2, h3, ?_⟩
  rw [h1]
  trivial

theorem reach_inv {P : State → Act → Prop} (h : machine.Reach P s) : Inv s :=
  h.inv (fun _ => start_inv) fun _ _ _ hi _ hs => step_inv hi hs

/-! ## The mask -/

def Stage.late : Stage → Bool
  | .handler | .skipSig | .call | .calling => false
  | _ => true

def Masked : Word → List Delivery → Prop
  | _, [] => True
  | b, d :: ds => (d.stage.late = true → b = d.blocked) ∧ Masked d.blocked ds

/-- When the restorer puts the mask back: it is in the frame and may be set, or the handler has already put it back. -/
def Puts (s : State) (d : Delivery) : Prop :=
  if d.nomask = true ∧ d.blocked ≠ EOF then d.blocked &&& SIGMASK SIGKILL = 0 else s.user.task.blocked = d.blocked

def Restores (s : State) : Act → Prop
  | .next => ∀ d ∈ s.stack.head?, d.stage = .calling → Puts s d
  | _ => True

theorem and_not_iff (x y : Word) : x &&& ~~~y = x ↔ x &&& y = 0 := by
  constructor
  · intro h
    rw [← h, BitVec.and_assoc, BitVec.and_comm (~~~y), BitVec.and_not_self]
    exact BitVec.and_zero
  · intro h
    have hx : x &&& (y ||| ~~~y) = x := by rw [BitVec.or_not_self, BitVec.and_allOnes]
    rw [BitVec.and_or_distrib_left, h] at hx
    simpa using hx

theorem puts_iff (h : Stands s.user.mem s.user.regs d) (hst : d.stage = .calling) :
    (sysSsetmask s.user.task (s.user.mem.load (d.slot 2))).1.blocked = d.blocked ↔ Puts s d := by
  have hload : s.user.mem.load (d.slot 2) = savedMask d.nomask d.blocked := h.words 2 (by decide) (by rw [hst]; rfl)
  rw [hload]
  unfold sysSsetmask Puts savedMask
  cases d.nomask with
  | false => simp
  | true =>
    by_cases hb : d.blocked = EOF
    · simp [hb]
    · simp only [hb, if_true, if_false, true_and, ne_eq, not_false_eq_true]
      exact and_not_iff _ _

theorem late_next {st st' : Stage} (h : st.next = some st') (hcalling : st ≠ .calling) (hl : st'.late = true) : st.late = true := by
  cases st <;> cases h
  case calling => exact absurd rfl hcalling
  all_goals first | rfl | cases hl

theorem Masked.change {b b' : Word} (h : Masked b ds) (hd : ∀ d ∈ ds.head?, d.stage = .handler) : Masked b' ds := by
  cases ds with
  | nil => trivial
  | cons d ds =>
    refine ⟨fun hl => ?_, h.2⟩
    rw [hd d rfl] at hl
    cases hl

theorem Masked.next (hi : Inv s) (h : Masked s.user.task.blocked s.stack) (hr : Restores s .next) (he : Enabled s .next)
    (hn : nextStep s = .ok t) : Masked t.user.task.blocked t.stack := by
  obtain ⟨d, hd, -, -⟩ := he
  obtain ⟨ds, hs⟩ := List.head?_eq_some_iff.1 hd
  have hc := hi.chain
  rw [hs] at h hc
  obtain ⟨h1, h2⟩ := h
  rcases nextStep_ok hs hn with ⟨hst, rfl⟩ | ⟨hst, rfl⟩ | ⟨st, hst, hnext, rfl⟩
  · refine ⟨fun _ => ?_, h2⟩
    exact (puts_iff hc.1 hst).2 (hr d hd hst)
  · have hb : s.user.task.blocked = d.blocked := h1 (by rw [hst]; rfl)
    change Masked s.user.task.blocked ds
    rw [hb]
    exact h2
  · refine ⟨fun hl => ?_, h2⟩
    exact h1 (late_next hnext hst hl)

theorem Masked.deliver (h : Masked s.user.task.blocked s.stack) (hs : step s .deliver = .ok t) : Masked t.user.task.blocked t.stack := by
  obtain ⟨⟨v, o⟩, hv, ht⟩ := bind_ok hs
  rcases taskSignal_ok hv with ⟨rfl, rfl | ⟨sig, rfl⟩⟩ | ⟨sig, x, rfl, rfl⟩
  · cases ht
    exact h
  · cases ht
    exact h
  · cases ht
    refine ⟨fun hl => ?_, h⟩
    cases hl

theorem step_masked {a : Act} (hi : Inv s) (h : Masked s.user.task.blocked s.stack) (hr : Restores s a) (hs : machine.Steps s a t) :
    Masked t.user.task.blocked t.stack := by
  obtain ⟨he, hs⟩ := hs
  cases a with
  | run regs mem =>
    cases hs
    exact h
  | raise sig =>
    cases hs
    exact h
  | deliver => exact h.deliver hs
  | ssetmask newmask =>
    obtain rfl := Except.ok.inj hs
    exact h.change he
  | signal sig handler restorer =>
    obtain rfl := Except.ok.inj hs
    exact h.change he
  | sigaction sig action oldaction =>
    obtain rfl := Except.ok.inj hs
    exact h.change he.1
  | next => exact h.next hi hr he hs

theorem reach_masked (h : machine.Reach Restores s) : Masked s.user.task.blocked s.stack := by
  have := h.inv (I := fun s => Inv s ∧ Masked s.user.task.blocked s.stack) ?_ ?_
  · exact this.2
  · intro s hs
    refine ⟨start_inv hs, ?_⟩
    rw [hs.1]
    trivial
  · rintro s a t ⟨hi, hm⟩ hr hs
    exact ⟨step_inv hi hs, step_masked hi hm hr hs⟩

/-! ## The way back without an interruption -/

def Undisturbed (_ : State) (a : Act) : Prop := a = .next

theorem not_lost (h : Inv s) (hs : s.stack = d :: ds) : ¬ ∃ k, d.stage.code = some k ∧ s.user.regs.eip ≠ d.restorer + k := by
  have hc := h.chain
  rw [hs] at hc
  rintro ⟨k, hk, hne⟩
  exact hne (hc.1.code k hk)

theorem nextStep_masked (h : Inv s) (hs : s.stack = d :: ds) (hst : d.stage = .calling) : nextStep s = .ok (s.masked d ds) := by
  have hlost := not_lost h hs
  unfold nextStep
  rw [hs]
  dsimp only
  rw [if_neg hlost, if_pos hst]
  rfl

theorem nextStep_moved {st : Stage} (h : Inv s) (hs : s.stack = d :: ds) (hst : d.stage ≠ .calling) (hnext : d.stage.next = some st) :
    nextStep s = .ok (s.moved d ds st) := by
  have hlost := not_lost h hs
  unfold nextStep
  rw [hs]
  dsimp only
  rw [if_neg hlost, if_neg hst, hnext]
  rfl

theorem nextStep_over (h : Inv s) (hs : s.stack = d :: ds) (hst : d.stage = .ret) : nextStep s = .ok (s.over ds) := by
  have hlost := not_lost h hs
  unfold nextStep State.over
  rw [hs]
  dsimp only
  rw [if_neg hlost, hst]
  rfl

theorem enabled_next (hs : s.stack = d :: ds) (hhandler : d.stage = .handler → s.user.regs.esp = d.slot 0)
    (hcalled : d.stage = .called → s.user.regs.esp = d.slot 1) : machine.enabled s .next := by
  refine ⟨d, ?_, hhandler, hcalled⟩
  rw [hs]
  rfl

theorem to_calling (h : Inv s) (hs : s.stack = d :: ds) (hst : d.stage = .handler) (hesp : s.user.regs.esp = d.slot 0) :
    ∃ t, machine.Run Undisturbed s t ∧ Inv t ∧ t.stack = { d with stage := .calling } :: ds ∧ t.user.regs.esp = d.slot 1 ∧
      t.user.task = s.user.task := by
  have s1 : machine.Steps s .next (s.moved d ds .skipSig) :=
    ⟨enabled_next hs (fun _ => hesp) (by simp [hst]), nextStep_moved h hs (by simp [hst]) (by rw [hst]; rfl)⟩
  have h1 := step_inv h s1
  generalize hu1 : s.moved d ds .skipSig = u1 at s1 h1
  have hs1 : u1.stack = { d with stage := .skipSig } :: ds := by rw [← hu1]; rfl
  have s2 : machine.Steps u1 .next (u1.moved { d with stage := .skipSig } ds .call) :=
    ⟨enabled_next hs1 (by simp) (by simp), nextStep_moved h1 hs1 (by simp) rfl⟩
  have h2 := step_inv h1 s2
  generalize hu2 : u1.moved { d with stage := .skipSig } ds .call = u2 at s2 h2
  have hs2 : u2.stack = { d with stage := .call } :: ds := by rw [← hu2]; rfl
  have s3 : machine.Steps u2 .next (u2.moved { d with stage := .call } ds .calling) :=
    ⟨enabled_next hs2 (by simp) (by simp), nextStep_moved h2 hs2 (by simp) rfl⟩
  refine ⟨_, .tail (.tail (.single rfl s1) rfl s2) rfl s3, step_inv h2 s3, rfl, ?_, ?_⟩
  · have hc := h2.chain
    rw [hs2] at hc
    change u2.user.regs.esp - 4 = d.slot 1
    rw [hc.1.exact 2 rfl]
    exact slot_pred d 1
  · change u2.user.task = s.user.task
    rw [← hu2, ← hu1]
    rfl

def Stage.left : Stage → Nat
  | .handler => 10
  | .skipSig => 9
  | .call => 8
  | .calling => 7
  | .called => 6
  | .skipMask => 5
  | .popEax => 4
  | .popEcx => 3
  | .popEdx => 2
  | .popf => 1
  | .ret => 0

theorem left_next {st st' : Stage} (h : st.next = some st') : st.left = st'.left + 1 := by
  cases st <;> cases h <;> rfl

theorem to_end (n : Nat) (h : Inv s) (hs : s.stack = d :: ds) (hn : d.stage.left = n) (hl : d.stage.late = true)
    (hcalled : d.stage = .called → s.user.regs.esp = d.slot 1) :
    ∃ t, machine.Run Undisturbed s t ∧ t.stack = ds ∧ t.user.regs = d.regs ∧ t.user.task = s.user.task := by
  have hearly : d.stage ≠ .handler ∧ d.stage ≠ .calling := by
    constructor <;> intro hst <;> rw [hst] at hl <;> cases hl
  have hen := enabled_next hs (fun hst => absurd hst hearly.1) hcalled
  induction n generalizing s d with
  | zero =>
    have hst : d.stage = .ret := by
      revert hn
      cases d.stage <;> simp [Stage.left]
    have hc := h.chain
    rw [hs] at hc
    exact ⟨_, .single rfl ⟨hen, nextStep_over h hs hst⟩, rfl, hc.1.last hst, rfl⟩
  | succ n ih =>
    obtain ⟨st, hst, hlate, hne⟩ : ∃ st, d.stage.next = some st ∧ st.late = true ∧ st ≠ .called := by
      revert hn hl hearly
      cases d.stage <;> simp [Stage.left, Stage.late, Stage.next]
    have s1 : machine.Steps s .next (s.moved d ds st) := ⟨hen, nextStep_moved h hs hearly.2 hst⟩
    have h1 := step_inv h s1
    have hleft : st.left = n := by
      have := left_next hst
      omega
    have hearly1 : st ≠ .handler ∧ st ≠ .calling := by
      constructor <;> rintro rfl <;> cases hlate
    obtain ⟨t, hrun, ht, hregs, htask⟩ := ih (d := { d with stage := st }) h1 rfl hleft hlate (fun hst => absurd hst hne) hearly1
      (enabled_next rfl (fun hst => absurd hst hearly1.1) fun hst => absurd hst hne)
    exact ⟨t, .trans (.single rfl s1) hrun, ht, hregs, htask⟩

theorem goes_back (h : Inv s) (hs : s.stack = d :: ds) (hst : d.stage = .handler) (hesp : s.user.regs.esp = d.slot 0) :
    ∃ t, machine.Run Undisturbed s t ∧ t.stack = ds ∧ t.user.regs = d.regs ∧ (t.user.task.blocked = d.blocked ↔ Puts s d) := by
  obtain ⟨u, hrun, hu, hsu, hespu, htask⟩ := to_calling h hs hst hesp
  have s1 : machine.Steps u .next (u.masked { d with stage := .calling } ds) :=
    ⟨enabled_next hsu (by simp) (by simp), nextStep_masked hu hsu rfl⟩
  have hc := hu.chain
  rw [hsu] at hc
  obtain ⟨t, hrun1, ht, hregs, htask1⟩ := to_end (d := { d with stage := .called }) 6 (step_inv hu s1) rfl rfl rfl fun _ => hespu
  refine ⟨t, .trans (.tail hrun rfl s1) hrun1, ht, hregs, ?_⟩
  rw [htask1]
  refine (puts_iff hc.1 rfl).trans ?_
  unfold Puts
  rw [htask]

/-! ## The results -/

theorem step_error {a : Act} {e : Stop} (h : Inv s) (he : Enabled s a) (hs : step s a = .error e) : ∃ status, e = .exit status := by
  cases a with
  | deliver =>
    unfold step at hs
    cases hv : taskSignal s.user with
    | error e' =>
      rw [hv] at hs
      cases hs
      exact taskSignal_error h.user h.signal hv
    | ok r =>
      rw [hv] at hs
      obtain ⟨v, o⟩ := r
      cases o <;> cases hs
  | next =>
    exfalso
    obtain ⟨d, hd, -, -⟩ := he
    obtain ⟨ds, hst⟩ := List.head?_eq_some_iff.1 hd
    have hc := h.chain
    rw [hst] at hc
    have hlost : ¬ ∃ k, d.stage.code = some k ∧ s.user.regs.eip ≠ d.restorer + k := by
      rintro ⟨k, hk, hne⟩
      exact hne (hc.1.code k hk)
    change nextStep s = .error e at hs
    unfold nextStep at hs
    rw [hst] at hs
    dsimp only at hs
    rw [if_neg hlost] at hs
    split at hs <;> cases hs
  | _ => cases hs

/-- A delivery that is over has given back the registers, the last first. In runs whose every restorer sets the mask from before, it has
given back the mask too. When a handler returns and nothing comes between, the restorer ends with the registers from before, and with the
mask exactly on that condition. And no run stops but for a signal that ends the task. -/
theorem delivery_restores (s : State) :
    (∀ d ds t, machine.Reach Machine.Any s → s.stack = d :: ds → d.stage = .ret → machine.Steps s .next t →
      t.user.regs = d.regs ∧ t.stack = ds) ∧
    (∀ d ds t, machine.Reach Restores s → s.stack = d :: ds → d.stage = .ret → machine.Steps s .next t →
      t.user.task.blocked = d.blocked) ∧
    (∀ d ds, machine.Reach Machine.Any s → s.stack = d :: ds → d.stage = .handler → s.user.regs.esp = d.slot 0 →
      ∃ t, machine.Run Undisturbed s t ∧ t.stack = ds ∧ t.user.regs = d.regs ∧ (t.user.task.blocked = d.blocked ↔ Puts s d)) ∧
    (∀ a e, machine.Reach Machine.Any s → Enabled s a → step s a = .error e → ∃ status, e = .exit status) := by
  refine ⟨?_, ?_, ?_, ?_⟩
  · rintro d ds t h hs hst ⟨-, hn⟩
    have hi := reach_inv h
    have hc := hi.chain
    rw [hs] at hc
    cases (nextStep_over hi hs hst).symm.trans hn
    exact ⟨hc.1.last hst, rfl⟩
  · rintro d ds t h hs hst ⟨-, hn⟩
    have hm := reach_masked h
    rw [hs] at hm
    cases (nextStep_over (reach_inv h) hs hst).symm.trans hn
    exact hm.1 (by rw [hst]; rfl)
  · intro d ds h hs hst hesp
    exact goes_back (reach_inv h) hs hst hesp
  · intro a e h he hs
    exact step_error (reach_inv h) he hs

/-! ## Two runs -/

instance (m m' : ByteMem) (stack : List Delivery) : Decidable (Kept m m' stack) :=
  inferInstanceAs (Decidable (∀ d ∈ stack, ∀ i < 8, d.stage.keeps i = true → m'.load (d.slot i) = m.load (d.slot i)))

instance (s : State) (a : Act) : Decidable (machine.enabled s a) :=
  match a with
  | .run .. => inferInstanceAs (Decidable (_ ∧ _ ∧ ∀ d ∈ s.stack.head?, _))
  | .raise _ => inferInstanceAs (Decidable (_ ∧ _))
  | .deliver => inferInstanceAs (Decidable (_ ≤ _))
  | .ssetmask .. | .signal .. => inferInstanceAs (Decidable (∀ d ∈ s.stack.head?, d.stage = .handler))
  | .sigaction .. => inferInstanceAs (Decidable ((∀ d ∈ s.stack.head?, d.stage = .handler) ∧ _))
  | .next => inferInstanceAs (Decidable (∃ d ∈ s.stack.head?, (d.stage = .handler → _) ∧ (d.stage = .called → _)))


/-- A program with an action for `sys_sigaction` in its memory, with the given flags and no mask. -/
def program (flags : Word) : State where
  user :=
    { task := ⟨1, 0, 0, fun _ => ⟨SIG_DFL, 0, 0, 0⟩⟩
      regs := ⟨3, 4, 5, 0x202, 0x3000, 0x8000⟩
      mem := ByteMem.storeWords (fun _ => 0) 0x4000 [0x1000, 0, flags, 0x2000] }
  stack := []
  entry := 0x5000

def handled : List Act := [.sigaction 10 0x4000 0, .raise 10, .deliver]

def State.looks (s : State) : List (Stage × Bool × Word × Bool) × Word :=
  (s.stack.map fun d => (d.stage, d.nomask, d.blocked, s.user.regs.esp == d.slot 0), s.user.task.blocked)

theorem entered (flags b c : Word) (nomask : Bool)
    (h : (machine.trace Machine.Any (program flags) handled).map State.looks = some ([(.handler, nomask, b, true)], c)) :
    ∃ s d, machine.Reach Machine.Any s ∧ s.stack = [d] ∧ d.stage = .handler ∧ d.nomask = nomask ∧ d.blocked = b ∧
      s.user.regs.esp = d.slot 0 ∧ s.user.task.blocked = c := by
  obtain ⟨s, hs, hl⟩ := Option.map_eq_some_iff.1 h
  obtain ⟨hd, hc⟩ := Prod.mk.inj hl
  obtain ⟨d, hstack, hd⟩ := List.map_eq_singleton_iff.1 hd
  simp only [Prod.mk.injEq, beq_iff_eq] at hd
  obtain ⟨h1, h2, h3, h4⟩ := hd
  exact ⟨s, d, Machine.trace_reach ⟨rfl, Nat.one_ne_zero, BitVec.getLsbD_zero⟩ hs, hstack, h1, h2, h3, h4, hc⟩

/-- With `SIG_NOMASK` everything is as it was. -/
theorem delivery_restores_nomask :
    ∃ s d t, machine.Reach Machine.Any s ∧ s.stack = [d] ∧ machine.Run Undisturbed s t ∧ t.stack = [] ∧ t.user.regs = d.regs ∧
      t.user.task.blocked = d.blocked := by
  obtain ⟨s, d, hreach, hs, hst, hn, hb, hesp, -⟩ := entered SIG_NOMASK 0 0 true
    (by decide +kernel)
  obtain ⟨-, -, hback, -⟩ := delivery_restores s
  obtain ⟨t, hrun, ht, hregs, hmask⟩ := hback d [] hreach hs hst hesp
  refine ⟨s, d, t, hreach, hs, hrun, ht, hregs, hmask.2 ?_⟩
  unfold Puts
  rw [hn, hb, if_pos ⟨rfl, by decide⟩]
  exact BitVec.zero_and

/-- Without it the signal stays masked when the handler is over. -/
theorem mask_not_restored :
    ∃ s d t, machine.Reach Machine.Any s ∧ s.stack = [d] ∧ d.nomask = false ∧ d.blocked = 0 ∧ machine.Run Undisturbed s t ∧ t.stack = [] ∧
      t.user.regs = d.regs ∧ t.user.task.blocked ≠ d.blocked := by
  obtain ⟨s, d, hreach, hs, hst, hn, hb, hesp, hc⟩ := entered 0 0 (SIGMASK 10) false
    (by decide +kernel)
  obtain ⟨t, hrun, ht, hregs, hmask⟩ := goes_back (reach_inv hreach) hs hst hesp
  refine ⟨s, d, t, hreach, hs, hn, hb, hrun, ht, hregs, fun h => ?_⟩
  have hputs := hmask.1 h
  unfold Puts at hputs
  rw [hn, hb, hc] at hputs
  revert hputs
  decide

end Onix.Signal
