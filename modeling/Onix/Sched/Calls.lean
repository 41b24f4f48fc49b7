/-
Every call of the running task keeps the invariant: one that makes others of its own kind, one that blocks
with the calls left that say for what, and those that change the tasks themselves.
-/
import Onix.Sched.Invariant

namespace Onix.Sched

open Option Except List Function Onix.Lib

variable {s t : State} {D : List Nat} {p : Nat}
variable {ms : Nat}
variable {k : List Op} {q : Queue} {st : TaskState}

/-! ## The calls of the running task -/

def State.withKont (s : State) (k : List Op) : State := s.setTask s.running { s.task s.running with kont := k }

theorem withKont_same (k : List Op) : (s.withKont k).task s.running = { s.task s.running with kont := k } := setTask_same _

theorem withKont_ne {q : Nat} (h : q ≠ s.running) : (s.withKont k).task q = s.task q := setTask_ne _ h

theorem withKont_field {β : Type} (f : Task → β) (hf : ∀ (x : Task) k, f { x with kont := k } = f x) (q : Nat) :
    f ((s.withKont k).task q) = f (s.task q) := by
  by_cases h : q = s.running
  · subst h
    rw [withKont_same, hf]
  · rw [withKont_ne h]

theorem pop_push {op : Op} (hk : (s.task s.running).kont = op :: k) (ops : List Op) :
    s.pop.push ops = s.withKont (ops ++ k) := by
  unfold State.push State.pop State.withKont State.setTask
  dsimp only
  rw [update_self, update_idem, hk]
  rfl

theorem pop_eq {op : Op} (hk : (s.task s.running).kont = op :: k) : s.pop = s.withKont k := by
  unfold State.pop State.withKont
  rw [hk]
  rfl

/-- The calls `k` show what the pointers and the requests say of the running task. -/
structure Fits (s : State) (D : List Nat) (k : List Op) : Prop where
  dead : s.running ∈ D → Rest k
  socket : ∀ n, s.waiter (.socket n) = some s.running → k.head? = some (.woken (.socket n))
  pipe : ∀ n, s.waiter (.pipe n) = some s.running → (s.task s.running).uid = 0
  request : ∀ d r, r ∈ s.requests d → r.task = some s.running → s.running ∉ D ∧ Within d r.id k

/-- What is said of the other tasks. -/
structure Others (s : State) (D : List Nat) : Prop where
  idle : s.Page s.idle ∧ (s.task s.idle).uid = 0
  slot : ∀ i j p, i < taskNr → j < taskNr → s.table i = some p → s.table j = some p → i = j
  dead : ∀ p ∈ D, s.Page p ∧ (s.task p).uid ≠ 0 ∧ (s.task p).state = .died ∧ (s.task p).node = none ∧
    (p ≠ s.running → Rest (s.task p).kont)
  died : ∀ p, s.Page p → (s.task p).state = .died → p ∈ D
  timer : ∀ p, s.Page p → (s.task p).timer ≠ none → (s.task p).node ≠ none
  queue : ∀ q p, p ∈ s.queue q → s.Page p ∧ (s.task p).node = some q
  socket : ∀ n p, p ≠ s.running → s.waiter (.socket n) = some p → s.Page p ∧ (s.task p).kont.head? = some (.woken (.socket n))
  pipe : ∀ n p, p ≠ s.running → s.waiter (.pipe n) = some p → s.Page p ∧ ((s.task p).uid = 0 ∨ AtPipe s n p)
  request : ∀ d r p, p ≠ s.running → r ∈ s.requests d → r.task = some p → s.Page p ∧ p ∉ D ∧ Within d r.id (s.task p).kont

theorem Core.others (h : Core s D) : Others s D :=
  ⟨h.idle, h.slot, fun p hp => (h.dead p hp).imp_right fun h1 => ⟨h1.1, h1.2.1, h1.2.2.1, fun _ => h1.2.2.2⟩, h.died, h.timer, h.queue,
    fun n p _ => h.socket n p, fun n p _ => h.pipe n p, fun d r p _ => h.request d r p⟩

theorem Others.resume (h : Others s D) (hrun : s.Page s.running) (hf : Fits s D k) : Core (s.withKont k) D := by
  have hfield : ∀ {β : Type} (f : Task → β) (_ : ∀ (x : Task) k, f { x with kont := k } = f x) q,
      f ((s.withKont k).task q) = f (s.task q) := fun f hf q => withKont_field f hf q
  have huid := hfield Task.uid fun _ _ => rfl
  have hstate := hfield Task.state fun _ _ => rfl
  have hnode := hfield Task.node fun _ _ => rfl
  have htimer := hfield Task.timer fun _ _ => rfl
  refine ⟨⟨h.idle.1, (huid _).trans h.idle.2⟩, h.slot, ?_, ?_, ?_, ?_, ?_, ?_, ?_⟩
  · intro p hp
    obtain ⟨h1, h2, h3, h4, h5⟩ := h.dead p hp
    rw [huid, hstate, hnode]
    refine ⟨h1, h2, h3, h4, ?_⟩
    by_cases hpr : p = s.running
    · subst hpr
      rw [withKont_same]
      exact hf.dead hp
    · rw [withKont_ne hpr]
      exact h5 hpr
  · intro p hp
    rw [hstate]
    exact h.died p hp
  · intro p hp
    rw [htimer, hnode]
    exact h.timer p hp
  · intro q p hp
    rw [hnode]
    exact h.queue q p hp
  · intro n p hp
    by_cases hpr : p = s.running
    · subst hpr
      rw [withKont_same]
      exact ⟨hrun, hf.socket n hp⟩
    · rw [withKont_ne hpr]
      exact h.socket n p hpr hp
  · intro n p hp
    by_cases hpr : p = s.running
    · subst hpr
      exact ⟨hrun, .inl ((huid _).trans (hf.pipe n hp))⟩
    · refine (h.pipe n p hpr hp).imp_right (Or.imp (huid p).trans fun ha => ?_)
      have hp' : (s.withKont k).task p = s.task p := withKont_ne hpr
      exact ⟨hp' ▸ ha.head, hp' ▸ ha.node, hp' ▸ ha.state, hp' ▸ ha.timer⟩
  · intro d r p hr hp
    by_cases hpr : p = s.running
    · subst hpr
      rw [withKont_same]
      exact ⟨hrun, hf.request d r hr hp⟩
    · rw [withKont_ne hpr]
      exact h.request d r p hpr hr hp

def State.park (s : State) (q : Queue) (st : TaskState) (ms : Nat) (k : List Op) : State :=
  { s.setTask s.running { s.task s.running with
      node := some q
      timer := if 0 < ms then some (timerExpireJiffies s ms) else (s.task s.running).timer
      state := st
      kont := k } with queue := Function.update s.queue q (s.running :: s.queue q) }

theorem withKont_blocked :
    (s.withKont k).blocked q st ms = s.park q st ms k := by
  unfold State.withKont State.blocked State.park State.setTask
  dsimp only
  rw [update_self, update_idem]
  rfl

/-- The calls `k` of a task that blocks show the same; it may also wait without a timeout. -/
structure FitsBlocked (s : State) (D : List Nat) (q : Queue) (st : TaskState) (ms : Nat) (k : List Op) : Prop where
  alive : s.running ∉ D
  node : (s.task s.running).node = none
  state : st ≠ .died
  socket : ∀ n, s.waiter (.socket n) = some s.running → k.head? = some (.woken (.socket n))
  pipe : ∀ n, s.waiter (.pipe n) = some s.running →
    (s.task s.running).uid = 0 ∨ (k.head? = some (.woken (.pipe n)) ∧ q = .block ∧ st = .blocked ∧ ms = 0)
  request : ∀ d r, r ∈ s.requests d → r.task = some s.running → Within d r.id k

theorem park_same : (s.park q st ms k).task s.running =
    { s.task s.running with
    node := some q
    timer := if 0 < ms then some (timerExpireJiffies s ms) else (s.task s.running).timer
    state := st
    kont := k } := setTask_same _

theorem park_ne {ms p : Nat} (h : p ≠ s.running) :
    (s.park q st ms k).task p = s.task p :=
  setTask_ne _ h

theorem Others.park (h : Others s D) (hrun : s.Page s.running)
    (hf : FitsBlocked s D q st ms k) : Core (s.park q st ms k) D := by
  have huid : ∀ p, ((s.park q st ms k).task p).uid = (s.task p).uid := by
    intro p
    by_cases hpr : p = s.running
    · subst hpr
      rw [park_same]
    · rw [park_ne hpr]
  refine ⟨⟨h.idle.1, (huid _).trans h.idle.2⟩, h.slot, ?_, ?_, ?_, ?_, ?_, ?_, ?_⟩
  · intro p hp
    have hpr : p ≠ s.running := fun e => hf.alive (e ▸ hp)
    obtain ⟨h1, h2, h3, h4, h5⟩ := h.dead p hp
    rw [park_ne hpr]
    exact ⟨h1, h2, h3, h4, h5 hpr⟩
  · intro p hp hd
    by_cases hpr : p = s.running
    · subst hpr
      rw [park_same] at hd
      exact absurd hd hf.state
    · rw [park_ne hpr] at hd
      exact h.died p hp hd
  · intro p hp
    by_cases hpr : p = s.running
    · subst hpr
      rw [park_same]
      exact fun _ => nofun
    · rw [park_ne hpr]
      exact h.timer p hp
  · intro l p hp
    have hold : p ∈ s.queue l → s.Page p ∧ ((s.park q st ms k).task p).node = some l := by
      intro hp
      obtain ⟨h1, h2⟩ := h.queue l p hp
      have hpr : p ≠ s.running := by
        rintro rfl
        rw [hf.node] at h2
        cases h2
      rw [park_ne hpr]
      exact ⟨h1, h2⟩
    by_cases hl : l = q
    · subst hl
      have hp : p ∈ s.running :: s.queue l := by
        rw [show (s.park l st ms k).queue l = _ from update_self ..] at hp
        exact hp
      rcases mem_cons.1 hp with rfl | hp
      · rw [park_same]
        exact ⟨hrun, rfl⟩
      · exact hold hp
    · rw [show (s.park q st ms k).queue l = _ from update_of_ne hl ..] at hp
      exact hold hp
  · intro n p hp
    by_cases hpr : p = s.running
    · subst hpr
      rw [park_same]
      exact ⟨hrun, hf.socket n hp⟩
    · rw [park_ne hpr]
      exact h.socket n p hpr hp
  · intro n p hp
    by_cases hpr : p = s.running
    · subst hpr
      refine ⟨hrun, (hf.pipe n hp).imp (huid _).trans fun ⟨h1, h2, h3, h4⟩ => ?_⟩
      refine ⟨by rw [park_same]; exact h1, by rw [park_same, h2], by rw [park_same, h3], ?_⟩
      rw [park_same, h4]
      by_contra ht
      exact h.timer _ hrun ht hf.node
    · refine (h.pipe n p hpr hp).imp_right (Or.imp (huid p).trans fun ha => ?_)
      have hp' : (s.park q st ms k).task p = s.task p := park_ne hpr
      exact ⟨hp' ▸ ha.head, hp' ▸ ha.node, hp' ▸ ha.state, hp' ▸ ha.timer⟩
  · intro d r p hr hp
    by_cases hpr : p = s.running
    · subst hpr
      rw [park_same]
      exact ⟨hrun, hf.alive, hf.request d r hr hp⟩
    · rw [park_ne hpr]
      exact h.request d r p hpr hr hp

theorem taskBlock_ok (h : taskBlock s q st ms = .ok t) :
    (s.task s.running).node = none ∧ t = schedule (s.blocked q st ms) := by
  unfold taskBlock at h
  dsimp only at h
  split at h
  · cases h
  rename_i hn
  split at h
  · cases h
  split at h
  · cases h
  exact ⟨not_not.1 hn, (ok.inj h).symm⟩

theorem Others.block {op : Op} (ops : List Op) (h : Others s D)
    (hrun : s.Page s.running)
    (hk : (s.task s.running).kont = op :: k)
    (hf : (s.task s.running).node = none → FitsBlocked s D q st ms (ops ++ k))
    (ht : taskBlock (s.pop.push ops) q st ms = .ok t) : Inv t D := by
  rw [pop_push hk] at ht
  obtain ⟨hn, rfl⟩ := taskBlock_ok ht
  rw [withKont_blocked]
  have hn : (s.task s.running).node = none := by
    rw [show (s.withKont (ops ++ k)).running = s.running from rfl, withKont_same] at hn
    exact hn
  exact (h.park hrun (hf hn)).switch

section calls

variable {op : Op} {ms : Nat}

def Op.plain : Op → Bool
  | .woken (.socket _) | .finish _ _ | .leave => false
  | _ => true

theorem plain_socket (h : op.plain = true) (n : Nat) : op ≠ .woken (.socket n) := by
  rintro rfl
  cases h

theorem plain_finish (h : op.plain = true) (d i : Nat) : op ≠ .finish d i := by
  rintro rfl
  cases h

theorem plain_leave (h : op.plain = true) : op ≠ .leave := by
  rintro rfl
  cases h

theorem Inv.cleans (h : Inv s D) (hk : (s.task s.running).kont = op :: k) (hd : s.running ∈ D) :
    (op = .leave ∧ k = []) ∨ (op.cleanup = true ∧ k ≠ [] ∧ Rest k) := by
  have := (h.dead _ hd).2.2.2.2
  rw [hk] at this
  exact this.cleanup

theorem Inv.lives (h : Inv s D) (hk : (s.task s.running).kont = op :: k) (hc : op.cleanup = false) (hl : op ≠ .leave) :
    s.running ∉ D := by
  intro hd
  rcases h.cleans hk hd with h1 | h1
  · exact hl h1.1
  · rw [hc] at h1
    cases h1.1

theorem Inv.noSocket (h : Inv s D) (hk : (s.task s.running).kont = op :: k) (hw : ∀ n, op ≠ .woken (.socket n)) (n : Nat) :
    s.waiter (.socket n) ≠ some s.running := by
  intro hn
  have := (h.socket n _ hn).2
  rw [hk] at this
  exact hw n (some.inj this)

theorem Inv.noPipe (h : Inv s D) (n : Nat) (hn : s.waiter (.pipe n) = some s.running) : (s.task s.running).uid = 0 := by
  rcases (h.pipe n _ hn).2 with h1 | ha
  · exact h1
  · rcases h.current with h2 | h2
    · rw [ha.state] at h2
      cases h2
    · exact absurd h2 (h.waits (.inr hn))

theorem Inv.within (ops : List Op) (h : Inv s D) (hk : (s.task s.running).kont = op :: k) (hf : ∀ d i, op ≠ .finish d i)
    (ht : op.transfer = true → ∀ o ∈ ops, o.transfer = true) {d : Nat} {r : Request} (hr : r ∈ s.requests d) (hp : r.task = some s.running) :
    s.running ∉ D ∧ Within d r.id (ops ++ k) := by
  obtain ⟨-, h1, h2⟩ := h.request d r _ hr hp
  rw [hk] at h2
  obtain ⟨h3, h4⟩ := h2.resolve_left (hf d r.id)
  exact ⟨h1, h4.append (ht h3)⟩

theorem Inv.go (ops : List Op) (h : Inv s D) (hk : (s.task s.running).kont = op :: k) (hp : op.plain = true)
    (hc : op.cleanup = true → ∀ o ∈ ops, o.cleanup = true)
    (ht : op.transfer = true → ∀ o ∈ ops, o.transfer = true) : Inv (s.pop.push ops) D := by
  rw [pop_push hk]
  have hrest : s.running ∈ D → ops ++ k ≠ [] ∧ Rest (ops ++ k) := by
    intro hd
    obtain ⟨h1, h2, h3⟩ := (h.cleans hk hd).resolve_left fun h1 => plain_leave hp h1.1
    exact ⟨fun e => h2 (append_eq_nil_iff.1 e).2, h3.append h2 (hc h1)⟩
  refine ⟨h.toCore.others.resume h.running ⟨fun hd => (hrest hd).2, fun n hn => absurd hn (h.noSocket hk (plain_socket hp) n), h.noPipe,
    fun _ _ hr hr' => h.within ops hk (plain_finish hp) ht hr hr'⟩, h.running, ?_, fun hd => ?_⟩
  · rw [show (s.withKont (ops ++ k)).running = s.running from rfl, withKont_same]
    exact h.current
  · rw [show (s.withKont (ops ++ k)).running = s.running from rfl, withKont_same]
    exact (hrest hd).1

theorem Inv.pop (h : Inv s D) (hk : (s.task s.running).kont = op :: k) (hp : op.plain = true) : Inv s.pop D := by
  have := h.go [] hk hp (fun _ => forall_mem_nil _) fun _ => forall_mem_nil _
  rw [pop_push hk] at this
  rw [pop_eq hk]
  exact this

theorem Inv.block (ops : List Op) (h : Inv s D) (hk : (s.task s.running).kont = op :: k) (halive : s.running ∉ D)
    (hst : st ≠ .died)
    (hp : op.plain = true) (ht : op.transfer = true → ∀ o ∈ ops, o.transfer = true) (hb : taskBlock (s.pop.push ops) q st ms = .ok t) : Inv t D :=
  h.toCore.others.block ops h.running hk (fun hn => ⟨halive, hn, hst, fun n hn => absurd hn (h.noSocket hk (plain_socket hp) n),
    fun n hn => .inl (h.noPipe n hn), fun _ _ hr hr' => (h.within ops hk (plain_finish hp) ht hr hr').2⟩) hb

theorem push_nil (s : State) : s.push [] = s := by
  unfold State.push State.setTask
  simp

theorem Inv.blockNow (h : Inv s D) (hk : (s.task s.running).kont = op :: k) (halive : s.running ∉ D) (hst : st ≠ .died)
    (hp : op.plain = true) (hb : taskBlock s.pop q st ms = .ok t) : Inv t D := by
  rw [← push_nil s.pop] at hb
  exact h.block [] hk halive hst hp (fun _ => forall_mem_nil _) hb

theorem Same.push {ops : List Op} (h : Same s t) : Same (s.push ops) (t.push ops) := by
  have hfield : ∀ {β : Type} (f : Task → β) (_ : ∀ (x : Task) k, f { x with kont := k } = f x) (_ : ∀ p, f (t.task p) = f (s.task p)) p,
      f ((t.push ops).task p) = f ((s.push ops).task p) := by
    intro β f hf hst p
    have h1 : f ((t.push ops).task p) = f (t.task p) := withKont_field (s := t) f hf p
    have h2 : f ((s.push ops).task p) = f (s.task p) := withKont_field (s := s) f hf p
    rw [h1, h2, hst]
  refine ⟨h.running, h.idle, h.table, hfield _ (fun _ _ => rfl) h.uid, hfield _ (fun _ _ => rfl) h.state,
    hfield _ (fun _ _ => rfl) h.node, hfield _ (fun _ _ => rfl) h.timer, ?_, h.queue, h.waiter, h.requests⟩
  intro p
  unfold State.push
  rw [h.running, h.kont]
  by_cases hp : p = s.running
  · subst hp
    rw [setTask_same, setTask_same]
  · rw [setTask_ne _ hp, setTask_ne _ hp]
    exact h.kont p

theorem Same.ret (r : Int) : Same s (s.setRet r) := Same.task rfl rfl rfl rfl rfl

theorem Same.fs (f : Fs) : Same s { s with fs := f } :=
  ⟨rfl, rfl, rfl, fun _ => rfl, fun _ => rfl, fun _ => rfl, fun _ => rfl, fun _ => rfl, rfl, rfl, fun _ _ h _ => h⟩

theorem Same.lock (f : LockId → Lock) : Same s { s with lock := f } :=
  ⟨rfl, rfl, rfl, fun _ => rfl, fun _ => rfl, fun _ => rfl, fun _ => rfl, fun _ => rfl, rfl, rfl, fun _ _ h _ => h⟩

/-! ## The calls one by one -/

theorem Inv.waitCall {w : Waiter} (h : Inv s D) (hk : (s.task s.running).kont = .wait w ms :: k) (halive : s.running ∉ D)
    (ht : wait s.pop w ms = .ok t) : Inv t D := by
  -- the pointer of the running task is the only one that changes
  let u : State := { s with waiter := update s.waiter w (some s.running) }
  have hu : ∀ v p, u.waiter v = some p → (v = w ∧ p = s.running) ∨ s.waiter v = some p := by
    intro v p hv
    by_cases hvw : v = w
    · subst hvw
      rw [show u.waiter v = _ from update_self ..] at hv
      exact .inl ⟨rfl, (some.inj hv).symm⟩
    · rw [show u.waiter v = _ from update_of_ne hvw ..] at hv
      exact .inr hv
  have ho := h.toCore.others
  have hothers : Others u D := by
    refine ⟨ho.idle, ho.slot, ho.dead, ho.died, ho.timer, ho.queue, ?_, ?_, ho.request⟩
    · intro n p hp hn
      exact ho.socket n p hp ((hu _ p hn).resolve_left fun e => hp e.2)
    · intro n p hp hn
      refine (ho.pipe n p hp ((hu _ p hn).resolve_left fun e => hp e.2)).imp_right (Or.imp_right fun ha => ?_)
      exact ⟨ha.head, ha.node, ha.state, ha.timer⟩
  refine hothers.block [.woken w] h.running hk (fun hn => ⟨halive, hn, by cases w <;> exact nofun, ?_, ?_, ?_⟩) ht
  · intro n hn
    rcases hu _ _ hn with ⟨rfl, -⟩ | h1
    · rfl
    · exact absurd h1 (h.noSocket hk (fun _ => nofun) n)
  · intro n hn
    rcases hu _ _ hn with ⟨rfl, -⟩ | h1
    · exact .inr ⟨rfl, rfl, rfl, rfl⟩
    · exact .inl (h.noPipe n h1)
  · intro d r hr hp
    refine (h.within [.woken w] hk (fun _ _ => nofun) (fun h1 => ?_) hr hp).2
    cases w with
    | disk => exact forall_mem_singleton.2 rfl
    | socket => cases h1
    | pipe => cases h1

theorem Inv.wokenCall {w : Waiter} (h : Inv s D) (hk : (s.task s.running).kont = .woken w :: k) : Inv (woken s.pop w) D := by
  cases w with
  | disk d => exact h.pop hk rfl
  | pipe n => exact h.pop hk rfl
  | socket n =>
    -- the pointer is reset with the call that says so
    let u : State := { s with waiter := update s.waiter (.socket n) none }
    have hu : Inv u D := h.reset
    have hpop : woken s.pop (.socket n) = u.withKont k := by
      rw [pop_eq hk]
      rfl
    rw [hpop]
    have halive : s.running ∉ D := h.lives hk rfl nofun
    refine ⟨hu.toCore.others.resume hu.running ⟨fun hd => absurd hd halive, ?_, hu.noPipe, ?_⟩, h.running, ?_, fun hd => absurd hd halive⟩
    · intro m hm
      have hmn : m ≠ n := by
        rintro rfl
        rw [show u.waiter (.socket m) = none from update_self ..] at hm
        cases hm
      have h1 := (hu.socket m _ hm).2
      rw [show (u.task u.running).kont = _ from hk] at h1
      cases h1
      exact absurd rfl hmn
    · intro d r hr hp
      exact hu.within [] hk (fun _ _ => nofun) (fun _ => forall_mem_nil _) hr hp
    · rw [show (u.withKont k).running = u.running from rfl, withKont_same]
      exact h.current

theorem Inv.lockCall {l : LockId} (h : Inv s D) (hk : (s.task s.running).kont = .lock l :: k)
    (halive : Blocks s (.lock l) → s.running ∉ D) (ht : lockAcquire s.pop l = .ok t) : Inv t D := by
  have hpop := h.pop hk rfl
  unfold lockAcquire at ht
  split at ht
  · cases ht
    exact hpop.same (Same.lock _)
  rename_i p hp
  split at ht
  · cases ht
    exact hpop.same (Same.lock _)
  rename_i hne
  have hp : (s.lock l).holder = some p := hp
  have hblocks : Blocks s (.lock l) := ⟨by rw [hp]; exact some_ne_none p, by rw [hp]; exact fun e => hne (some.inj e)⟩
  exact h.block [.lock l] hk (halive hblocks) (by decide) rfl (fun _ => forall_mem_singleton.2 rfl) ht

theorem Inv.unlockCall {l : LockId} (h : Inv s D) (ht : lockRelease s l = .ok t) : Inv t D := by
  unfold lockRelease at ht
  split at ht
  · cases ht
  split at ht
  · cases ht
    exact h.same (Same.lock _)
  dsimp only at ht
  split at ht
  · cases ht
    exact h.same (Same.lock _)
  · rename_i p hp
    obtain ⟨u, hu, ht⟩ := bind_ok ht
    cases ht
    exact Core.switch (Inv.wakeLast (q := .mutex l) (h.same (Same.lock (update s.lock l ⟨none, 0⟩))) (fun he => by cases he) hp hu).toCore

theorem Inv.requestCall {d n : Nat} {idx : BitVec 32} (h : Inv s D) (hk : (s.task s.running).kont = .request d idx n :: k)
    (halive : Blocks s (.request d idx n) → s.running ∉ D) (ht : deviceRequest s.pop d idx n = .ok t) : Inv t D := by
  unfold deviceRequest at ht
  dsimp only at ht
  split at ht
  · rename_i he
    -- nobody waits for the new request
    let u : State := { s with
      requests := update s.requests d
        (listInsertSort Request.idx ⟨s.nextRequest, idx, none⟩ (s.requests d))
      nextRequest := s.nextRequest + 1 }
    have hsame : Same s u := by
      refine ⟨rfl, rfl, rfl, fun _ => rfl, fun _ => rfl, fun _ => rfl, fun _ => rfl, fun _ => rfl, rfl, rfl, ?_⟩
      intro e r hr hn
      by_cases hed : e = d
      · subst hed
        rw [show u.requests e = _ from update_self ..] at hr
        rcases mem_listInsertSort.1 hr with rfl | hr
        · exact absurd rfl hn
        · exact hr
      · rwa [show u.requests e = _ from update_of_ne hed ..] at hr
    have hu : Inv u D := h.same hsame
    have hgo : Inv (u.pop.push [.disk d n, .finish d s.nextRequest]) D :=
      hu.go [.disk d n, .finish d s.nextRequest] hk rfl (fun _ => by simp [Op.cleanup]) nofun
    cases ht
    exact hgo
  · rename_i he
    let u : State := { s with
      requests := update s.requests d
        (listInsertSort Request.idx ⟨s.nextRequest, idx, some s.running⟩ (s.requests d))
      nextRequest := s.nextRequest + 1 }
    have hu : ∀ e r, r ∈ u.requests e → (e = d ∧ r = ⟨s.nextRequest, idx, some s.running⟩) ∨ r ∈ s.requests e := by
      intro e r hr
      by_cases hed : e = d
      · subst hed
        rw [show u.requests e = _ from update_self ..] at hr
        exact (mem_listInsertSort.1 hr).imp_left fun h1 => ⟨rfl, h1⟩
      · rw [show u.requests e = _ from update_of_ne hed ..] at hr
        exact .inr hr
    have ho := h.toCore.others
    have hothers : Others u D := by
      refine ⟨ho.idle, ho.slot, ho.dead, ho.died, ho.timer, ho.queue, ho.socket, ?_, ?_⟩
      · intro m p hp hm
        refine (ho.pipe m p hp hm).imp_right (Or.imp_right fun ha => ?_)
        exact ⟨ha.head, ha.node, ha.state, ha.timer⟩
      · intro e r p hp hr ht
        rcases hu e r hr with ⟨-, rfl⟩ | h1
        · exact absurd (some.inj ht).symm hp
        · exact ho.request e r p hp h1 ht
    have he : (s.requests d).isEmpty = false := (Bool.not_eq_true _).mp he
    refine hothers.block _ h.running hk (fun hn => ?_) ht
    refine ⟨halive he, hn, by decide, fun m hm => absurd hm (h.noSocket hk (fun _ => nofun) m), fun m hm => .inl (h.noPipe m hm), ?_⟩
    intro e r hr hp
    rcases hu e r hr with ⟨rfl, rfl⟩ | h1
    · exact .inr ⟨rfl, .inr ⟨rfl, .inl rfl⟩⟩
    · exact (h.within [.granted, .disk d n, .finish d s.nextRequest] hk (fun _ _ => nofun) nofun h1 hp).2

theorem nextRequest_mem {up : Bool} {l r : List Request} {x : Request} (h : (requestNextreq up l r).2 = some x) :
    x ∈ l ∨ x ∈ r := by
  unfold requestNextreq at h
  generalize (if up = true ∧ r = [] then false else if up = false ∧ l = [] then true else up) = b at h
  cases b with
  | true => exact .inr (mem_of_head? h)
  | false => exact .inl (mem_of_getLast? h)

theorem Inv.finishCall {d i : Nat} (h : Inv s D) (hk : (s.task s.running).kont = .finish d i :: k)
    (ht : finish s.pop d i = .ok t) : Inv t D := by
  unfold finish at ht
  dsimp only at ht
  let u : State := { s with
    requests := update s.requests d ((s.requests d).filter fun x => decide (x.id ≠ i))
    up := update s.up d (requestNextreq (s.up d) ((s.requests d).takeWhile fun x => decide (x.id ≠ i))
      ((s.requests d).dropWhile fun x => decide (x.id ≠ i)).tail).1 }
  have hu : ∀ e r, r ∈ u.requests e → r ∈ s.requests e ∧ (e = d → r.id ≠ i) := by
    intro e r hr
    by_cases hed : e = d
    · subst hed
      rw [show u.requests e = _ from update_self ..] at hr
      obtain ⟨h1, h2⟩ := mem_filter.1 hr
      exact ⟨h1, fun _ => of_decide_eq_true h2⟩
    · rw [show u.requests e = _ from update_of_ne hed ..] at hr
      exact ⟨hr, fun e => absurd e hed⟩
  have huinv : Inv u D := h.same ⟨rfl, rfl, rfl, fun _ => rfl, fun _ => rfl, fun _ => rfl, fun _ => rfl, fun _ => rfl, rfl, rfl,
    fun e r hr _ => (hu e r hr).1⟩
  have hinv : Inv (u.withKont k) D := by
    have hrest : s.running ∈ D → k ≠ [] ∧ Rest k := fun hd => ((h.cleans hk hd).resolve_left fun h1 => nomatch h1.1).2
    refine ⟨huinv.toCore.others.resume h.running ⟨fun hd => (hrest hd).2, fun n hn => absurd hn (h.noSocket hk (fun _ => nofun) n),
      huinv.noPipe, ?_⟩, h.running, ?_, fun hd => ?_⟩
    · intro e r hr hp
      obtain ⟨h1, h2⟩ := hu e r hr
      obtain ⟨-, h3, h4⟩ := h.request e r _ h1 hp
      rw [hk] at h4
      refine ⟨h3, (h4.resolve_left fun he => ?_).2⟩
      cases he
      exact h2 rfl rfl
    · rw [show (u.withKont k).running = u.running from rfl, withKont_same]
      exact h.current
    · rw [show (u.withKont k).running = u.running from rfl, withKont_same]
      exact (hrest hd).1
  rw [pop_eq hk] at ht
  split at ht
  · cases ht
    exact hinv
  rename_i x hx
  split at ht
  · cases ht
  rename_i p hp
  -- the next request is still in the list
  have hmem : x ∈ s.requests d := by
    rcases nextRequest_mem hx with h1 | h1
    · exact (List.takeWhile_prefix _).subset h1
    · exact (dropWhile_suffix _).subset (mem_of_mem_tail h1)
  obtain ⟨-, hpD, hwithin⟩ := h.request d x p hmem hp
  refine hinv.unblock hpD ?_ ht
  intro n hn
  rw [withKont_field (s := u) Task.uid fun _ _ => rfl]
  refine (h.pipe n p hn).2.resolve_right fun ha => ?_
  rcases hwithin.head ha.head with h1 | h1 <;> cases h1

theorem Inv.unblockWaiting {e : Int} (h : Inv s D) (hst : (s.task p).state = .waiting ∨ (s.task p).state = .sleeping)
    (ht : taskUnblock s p e = .ok t) : Inv t D := by
  refine h.unblock (h.alive ?_) (fun n hn => (h.pipe n p hn).2.resolve_right fun ha => ?_) ht
  · rcases hst with h1 | h1 <;> rw [h1] <;> exact nofun
  · rw [ha.state] at hst
    rcases hst with h1 | h1 <;> cases h1

theorem Inv.kill {pid : Nat} (h : Inv s D) (ht : sysKill s pid = .ok t) : Inv t D := by
  unfold sysKill at ht
  split at ht
  · cases ht
    exact h
  dsimp only at ht
  split at ht
  · cases ht
    exact h
  split at ht
  · exact h.unblockWaiting ‹_› ht
  · cases ht
    exact h

theorem Inv.tell (h : Inv s D) (ht : tellParent s = .ok t) : Inv t D := by
  unfold tellParent at ht
  dsimp only at ht
  split at ht
  · cases ht
  split at ht
  · rename_i hc
    exact h.unblockWaiting (.inl hc.1) ht
  · cases ht
    exact h

theorem Inv.thread {g : Bool} (h : Inv s D) (hp : (s.task p).uid = 0) (ht : wakeThread s p g = .ok t) : Inv t D := by
  unfold wakeThread at ht
  split at ht
  · cases ht
    exact h
  · exact h.unblock (h.kernel hp) (fun _ _ => hp) ht

theorem Inv.releaseCall {b : Nat} (h : Inv s D) (ht : release s b = .ok t) : Inv t D := by
  unfold release at ht
  dsimp only at ht
  split at ht
  · cases ht
    exact h.same (Same.fs _)
  split at ht
  · cases ht
    exact h.same (Same.fs _)
  · rename_i p hp
    exact Inv.wakeLast (q := .buffer _) (h.same (Same.fs _)) (fun he => by cases he) hp ht

theorem Inv.reparentCall (h : Inv s D) : Inv (reparent s) D := by
  refine foldlRecOn (motive := fun u => Inv u D) _ _ h fun u hu i _ => ?_
  unfold reparentSlot
  dsimp only
  split
  · exact hu
  split
  · exact hu.same (Same.task rfl rfl rfl rfl rfl)
  · exact hu

theorem Inv.spawn {x : Task} {i : Nat} {fs : Fs} (h : Inv s D) (hp : ¬ s.Page p) (hi : i < taskNr) (hfree : s.table i = none)
    (hst : x.state = .ready) (ht : x.timer = none) :
    Inv { s.setTask p x with table := update s.table i (some p), fs := fs } D := by
  have hne : ∀ q, s.Page q → q ≠ p := by
    rintro q hq rfl
    exact hp hq
  have htask : ∀ q, s.Page q → (s.setTask p x).task q = s.task q := fun q hq => setTask_ne _ (hne q hq)
  have hpage : ∀ q, s.Page q → State.Page { s.setTask p x with table := update s.table i (some p), fs := fs } q := by
    rintro q ⟨j, hj, hq⟩
    refine ⟨j, hj, (update_of_ne ?_ ..).trans hq⟩
    rintro rfl
    rw [hfree] at hq
    cases hq
  have hback : ∀ q, State.Page { s.setTask p x with table := update s.table i (some p), fs := fs } q → q = p ∨ s.Page q := by
    rintro q ⟨j, hj, hq⟩
    dsimp only at hq
    by_cases hji : j = i
    · subst hji
      rw [update_self] at hq
      exact .inl (some.inj hq).symm
    · rw [update_of_ne hji] at hq
      exact .inr ⟨j, hj, hq⟩
  refine ⟨⟨⟨hpage _ h.idle.1, ?_⟩, ?_, ?_, ?_, ?_, ?_, ?_, ?_, ?_⟩, hpage _ h.running, ?_, ?_⟩
  · exact (congrArg Task.uid (htask _ h.idle.1)).trans h.idle.2
  · intro j l q hj hl h1 h2
    dsimp only at h1 h2
    by_cases hji : j = i <;> by_cases hli : l = i
    · rw [hji, hli]
    · subst hji
      rw [update_self] at h1
      rw [update_of_ne hli] at h2
      cases h1
      exact absurd ⟨l, hl, h2⟩ hp
    · subst hli
      rw [update_self] at h2
      rw [update_of_ne hji] at h1
      cases h2
      exact absurd ⟨j, hj, h1⟩ hp
    · rw [update_of_ne hji] at h1
      rw [update_of_ne hli] at h2
      exact h.slot j l q hj hl h1 h2
  · intro q hq
    obtain ⟨h1, h2⟩ := h.dead q hq
    refine ⟨hpage q h1, ?_⟩
    rw [show _ = s.task q from htask q h1]
    exact h2
  · intro q hq hd
    rcases hback q hq with rfl | h1
    · rw [show _ = x from setTask_same x, hst] at hd
      cases hd
    · rw [show _ = s.task q from htask q h1] at hd
      exact h.died q h1 hd
  · intro q hq hd
    rcases hback q hq with rfl | h1
    · rw [show _ = x from setTask_same x] at hd
      exact absurd ht hd
    · rw [show _ = s.task q from htask q h1] at hd ⊢
      exact h.timer q h1 hd
  · intro l q hq
    obtain ⟨h1, h2⟩ := h.queue l q hq
    exact ⟨hpage q h1, (congrArg Task.node (htask q h1)).trans h2⟩
  · intro n q hq
    obtain ⟨h1, h2⟩ := h.socket n q hq
    exact ⟨hpage q h1, (congrArg (fun y => y.kont.head?) (htask q h1)).trans h2⟩
  · intro n q hq
    obtain ⟨h1, h2⟩ := h.pipe n q hq
    refine ⟨hpage q h1, h2.imp (congrArg Task.uid (htask q h1)).trans fun ha => ?_⟩
    have hq' := htask q h1
    exact ⟨hq' ▸ ha.head, hq' ▸ ha.node, hq' ▸ ha.state, hq' ▸ ha.timer⟩
  · intro d r q hr hq
    obtain ⟨h1, h2, h3⟩ := h.request d r q hr hq
    exact ⟨hpage q h1, h2, (htask q h1) ▸ h3⟩
  · have hr := htask _ h.running
    exact hr ▸ h.current
  · have hr := htask _ h.running
    exact hr ▸ h.leaves

theorem freeSlot_some {i : Nat} (h : freeSlot s = some i) : i < taskNr ∧ s.table i = none := by
  have hfree := find?_some h
  exact ⟨mem_range.1 (mem_of_find?_eq_some h), of_decide_eq_true hfree⟩

theorem Inv.forkCall (h : Inv s D) (hp : ¬ s.Page p) (ht : taskFork s p = .ok t) : Inv t D := by
  unfold taskFork at ht
  split at ht
  · cases ht
  rename_i i hi
  obtain ⟨h1, h2⟩ := freeSlot_some hi
  dsimp only at ht
  split at ht
  · cases ht
  rename_i hn
  split at ht
  · cases ht
  cases ht
  have hn : (s.task s.running).node = none := not_not.1 hn
  refine h.spawn hp h1 h2 rfl ?_
  by_contra htimer
  exact h.timer _ h.running htimer hn

theorem Inv.createCall {uid : Nat} {pr : Int} (h : Inv s D) (hp : ¬ s.Page p) (ht : taskCreate s p uid pr = .ok t) :
    Inv t D := by
  unfold taskCreate at ht
  split at ht
  · cases ht
  rename_i i hi
  obtain ⟨h1, h2⟩ := freeSlot_some hi
  cases ht
  exact h.spawn hp h1 h2 rfl rfl

theorem Inv.reap {i : Nat} (h : Inv s D) (hi : i < taskNr) (hp : s.table i = some p) (hd : (s.task p).state = .died)
    (hrun : s.running ∉ D) :
    Inv { s with table := update s.table i none }
    (D.filter fun q => decide (State.Page { s with table := update s.table i none } q)) := by
  have hpD : p ∈ D := h.died p ⟨i, hi, hp⟩ hd
  have hpage : ∀ q, s.Page q → q ≠ p → State.Page { s with table := update s.table i none } q := by
    rintro q ⟨j, hj, hq⟩ hqp
    refine ⟨j, hj, (update_of_ne ?_ ..).trans hq⟩
    rintro rfl
    rw [hp] at hq
    exact hqp (some.inj hq).symm
  have hback : ∀ q, State.Page { s with table := update s.table i none } q → s.Page q := by
    rintro q ⟨j, hj, hq⟩
    dsimp only at hq
    by_cases hji : j = i
    · subst hji
      rw [update_self] at hq
      cases hq
    · rw [update_of_ne hji] at hq
      exact ⟨j, hj, hq⟩
  have hsub : ∀ q, q ∈ D.filter (fun q => decide (State.Page { s with table := update s.table i none } q)) → q ∈ D :=
    fun q hq => (mem_filter.1 hq).1
  have halive : ∀ q, s.Page q → q ∉ D → State.Page { s with table := update s.table i none } q :=
    fun q hq hqD => hpage q hq fun e => hqD (e ▸ hpD)
  refine ⟨⟨⟨halive _ h.idle.1 (h.kernel h.idle.2), h.idle.2⟩, ?_, ?_, ?_, ?_, ?_, ?_, ?_, ?_⟩, halive _ h.running hrun, ?_, ?_⟩
  · intro j l q hj hl h1 h2
    have hold : ∀ j, update s.table i none j = some q → s.table j = some q := by
      intro j hj
      by_cases hji : j = i
      · subst hji
        rw [update_self] at hj
        cases hj
      · rwa [update_of_ne hji] at hj
    exact h.slot j l q hj hl (hold j h1) (hold l h2)
  · exact fun q hq => ⟨of_decide_eq_true (mem_filter.1 hq).2, (h.dead q (hsub q hq)).2⟩
  · exact fun q hq hd => mem_filter.2 ⟨h.died q (hback q hq) hd, decide_eq_true hq⟩
  · exact fun q hq => h.timer q (hback q hq)
  · intro l q hq
    obtain ⟨h1, h2⟩ := h.queue l q hq
    refine ⟨hpage q h1 ?_, h2⟩
    rintro rfl
    rw [(h.dead q hpD).2.2.2.1] at h2
    cases h2
  · intro n q hq
    obtain ⟨h1, h2⟩ := h.socket n q hq
    exact ⟨halive q h1 (h.waits (.inl hq)), h2⟩
  · intro n q hq
    obtain ⟨h1, h2⟩ := h.pipe n q hq
    exact ⟨halive q h1 (h.waits (.inr hq)), h2.imp_right fun ha => ⟨ha.head, ha.node, ha.state, ha.timer⟩⟩
  · intro d r q hr hq
    obtain ⟨h1, h2, h3⟩ := h.request d r q hr hq
    exact ⟨halive q h1 h2, fun hqD => h2 (hsub q hqD), h3⟩
  · exact h.current.imp_right fun hd => absurd hd hrun
  · exact fun hd => absurd (hsub _ hd) hrun

theorem deadChild_some {pid : Option Nat} {c : Nat × Nat} (h : deadChild s pid = some c) :
    c.1 < taskNr ∧ s.table c.1 = some c.2 ∧ (s.task c.2).state = .died := by
  have hd := find?_some h
  have hm := mem_of_find?_eq_some h
  obtain ⟨i, hi, hc⟩ := mem_filterMap.1 hm
  split at hc
  · cases hc
  rename_i p hp
  split at hc
  · cases hc
    exact ⟨mem_range.1 hi, hp, of_decide_eq_true hd⟩
  · cases hc

theorem Core.filter (h : Core s D) : (D.filter fun q => decide (s.Page q)) = D :=
  filter_eq_self.2 fun q hq => decide_eq_true (h.dead q hq).1

theorem Inv.filter (h : Inv s D) : Inv s (D.filter fun q => decide (s.Page q)) := by
  rw [h.toCore.filter]
  exact h

theorem Inv.waitpidCall {pid : Option Nat} (h : Inv s D) (hk : (s.task s.running).kont = .waitpid pid :: k)
    (ht : taskWaitpid s.pop pid = .ok t) : Inv t (D.filter fun q => decide (t.Page q)) := by
  have halive : s.running ∉ D := h.lives hk rfl nofun
  have hpop := h.pop hk rfl
  unfold taskWaitpid at ht
  split at ht
  · rename_i i c hc
    cases ht
    obtain ⟨h1, h2, h3⟩ := deadChild_some hc
    exact hpop.reap h1 h2 h3 halive
  split at ht
  · cases ht
    exact hpop.filter
  -- `waitpid` of the task is written before it blocks
  let u : State := s.setTask s.running { s.task s.running with waitpid := pid }
  have hu : Inv u D := h.same (Same.task rfl rfl rfl rfl rfl)
  have hku : (u.task u.running).kont = .waitpid pid :: k := by
    rw [show u.running = s.running from rfl, show u.task s.running = _ from setTask_same _]
    exact hk
  have hpu : s.pop.setTask s.pop.running { s.pop.task s.pop.running with waitpid := pid } = u.pop := by
    rw [pop_eq hk, pop_eq hku, show (s.withKont k).running = s.running from rfl, withKont_same]
    unfold State.withKont
    rw [show u.running = s.running from rfl, show u.task s.running = _ from setTask_same _]
    unfold u State.setTask
    rw [update_idem, update_idem]
  rw [hpu] at ht
  exact (hu.block [.waitpid pid] hku halive (by decide) rfl nofun ht).filter

theorem Op.cleanup_of_net {o : Op} (h : o.net = true) : o.cleanup = true := by
  unfold Op.net at h
  split at h
  · rfl
  · rfl
  · rfl
  · rfl
  · cases h

theorem diskOps_kind {type : DiskType} {d n : Nat} : ∀ o ∈ diskOps type d n, o.cleanup = true ∧ o.transfer = true := by
  cases type <;> simp [diskOps, Op.cleanup, Op.transfer]

theorem Inv.exec {c : Choice} (h : Inv s D) (hk : (s.task s.running).kont = op :: k) (hq : op.Quiet s) (ha : op.admits s)
    (hc : ∀ o ∈ c.net, o.net = true) (ht : exec s.pop c op = .ok t) : Inv t (D.filter fun q => decide (t.Page q)) := by
  have halive : Blocks s op → s.running ∉ D := fun hb hd => hq.1 (h.dead _ hd).2.2.1 hb
  have hgo := fun ops => h.go ops hk
  have hpop := h.pop hk
  cases op with
  | wait w n => exact (h.waitCall hk (halive trivial) ht).filter
  | woken w => exact ok.inj ht ▸ (h.wokenCall hk).filter
  | wake w =>
    refine ((hpop rfl).wake ?_ ht).filter
    have hexp : w.Expected s := hq.2
    cases w with
    | socket => trivial
    | pipe => trivial
    | disk d =>
      have hexp : Expected s d := hexp
      show Expected s.pop d
      unfold Expected at hexp ⊢
      rw [show s.pop.waiter = s.waiter from rfl]
      split
      · trivial
      rename_i p hp
      rw [hp] at hexp
      have hexp : (s.task p).node.isSome = true ∧ atDisk d (s.task p).kont = true := hexp
      have hpr : p ≠ s.running := by
        rintro rfl
        rw [hk] at hexp
        cases hexp.2
      rw [pop_eq hk, withKont_ne hpr]
      exact hexp
  | block st n =>
    have hst : st ≠ .died := by
      rcases (ha : st = .waiting ∨ st = .blocked) with rfl | rfl <;> decide
    exact (h.blockNow hk (halive trivial) hst rfl ht).filter
  | wakeThread p g =>
    refine ((hpop rfl).thread ?_ ht).filter
    rw [pop_eq hk, withKont_field Task.uid fun _ _ => rfl]
    exact ha.1
  | sleep n => exact (h.blockNow hk (halive trivial) (by decide) rfl ht).filter
  | yield => exact ok.inj ht ▸ (hpop rfl).toCore.switch.filter
  | lock l => exact (h.lockCall hk halive ht).filter
  | unlock l => exact ((hpop rfl).unlockCall ht).filter
  | waitBuffer d => exact (h.blockNow hk (halive trivial) (by decide) rfl ht).filter
  | request d idx n => exact (h.requestCall hk halive ht).filter
  | granted =>
    unfold Sched.exec at ht
    dsimp only at ht
    split at ht
    · exact ok.inj ht ▸ (hpop rfl).filter
    · cases ht
  | disk d n =>
    rw [← ok.inj ht]
    split
    · exact ((hpop rfl).same (Same.ret _)).filter
    · exact (hgo _ rfl (fun _ o ho => (diskOps_kind o ho).1)
        fun _ o ho => (diskOps_kind o ho).2).filter
  | busyWait d n =>
    unfold Sched.exec busyWait at ht
    rw [← ok.inj ht]
    split
    · exact (hgo _ rfl (fun _ => by simp [Op.cleanup]) fun _ => by simp [Op.transfer]).filter
    · exact (hgo _ rfl (fun _ => by simp [Op.cleanup]) fun _ => by simp [Op.transfer]).filter
    · exact ((hgo [.sleep ideDelay, .reset] rfl (fun _ => by simp [Op.cleanup])
        fun _ => by simp [Op.transfer]).same (Same.ret _).push).filter
    · exact ((hpop rfl).same (Same.ret _)).filter
  | sectors d n =>
    unfold Sched.exec sectors at ht
    rw [← ok.inj ht]
    split
    · exact ((hpop rfl).same (Same.ret _)).filter
    · exact (hgo _ rfl (fun _ => by simp [Op.cleanup]) fun _ => by simp [Op.transfer]).filter
  | check d n =>
    unfold Sched.exec check at ht
    rw [← ok.inj ht]
    split
    · exact ((hpop rfl).same (Same.ret _)).filter
    · exact (hgo _ rfl (fun _ => by simp [Op.cleanup]) fun _ => by simp [Op.transfer]).filter
  | reset =>
    unfold Sched.exec Sched.reset at ht
    rw [← ok.inj ht]
    split
    · exact (hgo _ rfl (fun _ => by simp [Op.cleanup]) fun _ => by simp [Op.transfer]).filter
    · exact (hgo _ rfl (fun _ => by simp [Op.cleanup]) fun _ => by simp [Op.transfer]).filter
    · exact (hpop rfl).filter
    · exact (hpop rfl).filter
  | result => exact ok.inj ht ▸ ((hpop rfl).same (Same.ret _)).filter
  | finish d i => exact (h.finishCall hk ht).filter
  | bwrite b =>
    unfold Sched.exec bwrite at ht
    rw [← ok.inj ht]
    dsimp only
    split
    · exact (hgo _ rfl (fun _ => by simp [Op.cleanup]) fun ht => by cases ht).filter
    · exact (hpop rfl).filter
  | cleaned b =>
    unfold Sched.exec cleaned at ht
    rw [← ok.inj ht]
    split
    · exact (hpop rfl).filter
    · exact ((hpop rfl).same (Same.fs _)).filter
  | brelse b =>
    exact ok.inj ht ▸ (hgo _ rfl (fun _ => by simp [Op.cleanup]) fun ht => by cases ht).filter
  | release b => exact ((hpop rfl).releaseCall ht).filter
  | iput i =>
    unfold Sched.exec iput at ht
    dsimp only at ht
    have hnet : ∀ ops : List Op, (∀ o ∈ ops, o.net = true) →
        Inv ((s.pop.setInode i { s.pop.fs.inode i with type := .none, count := 0 }).push ops) D := fun ops hops =>
      (hgo ops rfl (fun _ o ho => Op.cleanup_of_net (hops o ho)) fun ht => by cases ht).same (Same.fs _).push
    split at ht
    · cases ht
    · rw [← ok.inj ht]
      exact (hgo _ rfl (fun _ => by simp [Op.cleanup]) fun ht => by cases ht).filter
    · rw [← ok.inj ht]
      exact (hgo _ rfl (fun _ => by simp [Op.cleanup]) fun ht => by cases ht).filter
    · rw [← ok.inj ht]
      split
      · exact ((hpop rfl).same (Same.fs _)).filter
      · refine (hnet _ ?_).filter
        split
        · exact hc
        · exact forall_mem_nil _
    · rw [← ok.inj ht]
      split
      · exact ((hpop rfl).same (Same.fs _)).filter
      · exact (hnet _ hc).filter
  | closeInode i =>
    refine ok.inj ht ▸ ((hgo _ rfl (fun _ => ?_) fun ht => by cases ht).same (Same.fs _).push).filter
    split
    · exact forall_mem_nil _
    · simp [Op.cleanup]
  | putInode i => exact ok.inj ht ▸ ((hpop rfl).same (Same.fs _)).filter
  | close f =>
    unfold Sched.exec close at ht
    dsimp only at ht
    split at ht
    · cases ht
    rw [← ok.inj ht]
    split
    · exact ((hgo _ rfl (fun _ => by simp [Op.cleanup]) fun ht => by cases ht).same (Same.fs _).push).filter
    · exact ((hpop rfl).same (Same.fs _)).filter
  | reparent => exact ok.inj ht ▸ (hpop rfl).reparentCall.filter
  | tellParent => exact ((hpop rfl).tell ht).filter
  | leave =>
    have hfits : Fits s D k := by
      refine ⟨fun hd => ?_, fun n hn => absurd hn (h.noSocket hk (fun _ he => by cases he) n), h.noPipe, fun d r hr hp =>
        h.within [] hk (fun _ _ he => by cases he) (fun ht => by cases ht) hr hp⟩
      rcases h.cleans hk hd with ⟨-, rfl⟩ | h1
      · exact .inl rfl
      · exact h1.2.2
    rw [← ok.inj ht, pop_eq hk]
    exact (h.toCore.others.resume h.running hfits).switch.filter
  | kill pid => exact ((hpop rfl).kill ht).filter
  | waitpid pid => exact h.waitpidCall hk ht
  | fork p => exact ((hpop rfl).forkCall ha ht).filter
  | create p uid pr => exact ((hpop rfl).createCall ha ht).filter
  | modify f => exact ok.inj ht ▸ ((hpop rfl).same (Same.fs _)).filter

end calls

end Onix.Sched
