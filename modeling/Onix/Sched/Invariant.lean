/-
When the life of a task may be trusted, and the invariant that shows it: whoever is on a list, in a pointer
or in a request is a task whose next call says that it waits there, and a task that has died has only calls
of the cleanup left. Waking a task and switching to another keep it.
-/
import Onix.Sched.Model

namespace Onix.Sched

open List Function Onix.Lib

/-! ## The condition -/

def Blocks (s : State) : Op → Prop
  | .wait _ _ | .block _ _ | .sleep _ | .waitBuffer _ => True
  | .lock l => (s.lock l).holder ≠ none ∧ (s.lock l).holder ≠ some s.running
  | .request d _ _ => (s.requests d).isEmpty = false
  | .waitpid pid => deadChild s pid = none ∧ children s pid ≠ []
  | _ => False

instance (s : State) : (op : Op) → Decidable (Blocks s op)
  | .wait _ _ | .block _ _ | .sleep _ | .waitBuffer _ => inferInstanceAs (Decidable True)
  | .lock _ | .waitpid _ => inferInstanceAs (Decidable (_ ∧ _))
  | .request _ _ _ => inferInstanceAs (Decidable (_ = false))
  | .woken _ | .wake _ | .wakeThread _ _ | .yield | .unlock _ | .granted | .disk _ _ | .busyWait _ _ | .sectors _ _
  | .check _ _ | .reset | .result | .finish _ _ | .bwrite _ | .cleaned _ | .brelse _ | .release _ | .iput _ | .closeInode _ | .putInode _
  | .close _ | .reparent | .tellParent | .leave | .kill _ | .fork _ | .create _ _ _ | .modify _ => inferInstanceAs (Decidable False)

/-- The next thing the task does is to return from `task_block` for the disk. -/
def atDisk (d : Nat) : List Op → Bool
  | .woken (.disk e) :: _ => decide (e = d)
  | _ => false

def Expected (s : State) (d : Nat) : Prop :=
  match s.waiter (.disk d) with
  | none => True
  | some t => (s.task t).node.isSome = true ∧ atDisk d (s.task t).kont = true

instance (s : State) (d : Nat) : Decidable (Expected s d) := by
  unfold Expected
  split <;> infer_instance

def Waiter.Expected (s : State) : Waiter → Prop
  | .disk d => Sched.Expected s d
  | _ => True

instance (s : State) : (w : Waiter) → Decidable (w.Expected s)
  | .disk d => inferInstanceAs (Decidable (Sched.Expected s d))
  | .socket _ | .pipe _ => inferInstanceAs (Decidable True)

def Op.Quiet (s : State) (op : Op) : Prop :=
  ((s.task s.running).state = .died → ¬ Blocks s op) ∧
    match op with
    | .wake w => w.Expected s
    | _ => True

instance (s : State) (op : Op) : Decidable (op.Quiet s) :=
  @instDecidableAnd _ _ inferInstance (by split <;> infer_instance)

def Quiet (s : State) : Act → Prop
  | .exec _ => ∀ op ∈ (s.task s.running).kont.head?, op.Quiet s
  | .interrupt w => w.Expected s
  | _ => True

instance (s : State) : (a : Act) → Decidable (Quiet s a)
  | .exec _ => inferInstanceAs (Decidable (∀ op ∈ _, _))
  | .interrupt w => inferInstanceAs (Decidable (w.Expected s))
  | .enter _ | .exit _ | .clock | .alarm _ => inferInstanceAs (Decidable True)

/-! ## The invariant -/

def Op.cleanup : Op → Bool
  | .wait (.disk _) _ | .wake (.socket _) | .wakeThread _ _ | .sleep _ | .lock _ | .unlock _ | .request _ _ _
  | .granted | .disk _ _ | .busyWait _ _ | .sectors _ _ | .check _ _ | .reset | .result | .finish _ _ | .bwrite _ | .cleaned _
  | .brelse _ | .release _ | .iput _ | .closeInode _ | .putInode _ | .close _ | .reparent | .tellParent => true
  | _ => false

def Op.transfer : Op → Bool
  | .wait (.disk _) _ | .woken (.disk _) | .sleep _ | .lock _ | .unlock _ | .granted | .disk _ _ | .busyWait _ _ | .sectors _ _
  | .check _ _ | .reset | .result => true
  | _ => false

def Rest (k : List Op) : Prop := k = [] ∨ ∃ ops, k = ops ++ [Op.leave] ∧ ∀ op ∈ ops, op.cleanup = true

def Within (d id : Nat) : List Op → Prop
  | [] => False
  | op :: k => op = .finish d id ∨ op.transfer = true ∧ Within d id k

/-- The task waits without a timeout, and its next call is the return from `task_block`. -/
structure AtPipe (s : State) (n p : Nat) : Prop where
  head : (s.task p).kont.head? = some (.woken (.pipe n))
  node : (s.task p).node = some .block
  state : (s.task p).state = .blocked
  timer : (s.task p).timer = none

/-- All but what is said of the running task. -/
structure Core (s : State) (D : List Nat) : Prop where
  idle : s.Page s.idle ∧ (s.task s.idle).uid = 0
  slot : ∀ i j p, i < taskNr → j < taskNr → s.table i = some p → s.table j = some p → i = j
  dead : ∀ p ∈ D, s.Page p ∧ (s.task p).uid ≠ 0 ∧ (s.task p).state = .died ∧ (s.task p).node = none ∧ Rest (s.task p).kont
  died : ∀ p, s.Page p → (s.task p).state = .died → p ∈ D
  timer : ∀ p, s.Page p → (s.task p).timer ≠ none → (s.task p).node ≠ none
  queue : ∀ q p, p ∈ s.queue q → s.Page p ∧ (s.task p).node = some q
  socket : ∀ n p, s.waiter (.socket n) = some p → s.Page p ∧ (s.task p).kont.head? = some (.woken (.socket n))
  pipe : ∀ n p, s.waiter (.pipe n) = some p → s.Page p ∧ ((s.task p).uid = 0 ∨ AtPipe s n p)
  request : ∀ d r p, r ∈ s.requests d → r.task = some p → s.Page p ∧ p ∉ D ∧ Within d r.id (s.task p).kont

/-- The running task is in its state, or has died and has cleanup left. -/
structure Inv (s : State) (D : List Nat) : Prop extends Core s D where
  running : s.Page s.running
  current : (s.task s.running).state = .running ∨ s.running ∈ D
  leaves : s.running ∈ D → (s.task s.running).kont ≠ []

variable {s t : State} {D : List Nat} {p : Nat}

@[simp] theorem setTask_same (x : Task) : (s.setTask p x).task p = x := update_self ..
theorem setTask_ne {q : Nat} (x : Task) (h : q ≠ p) : (s.setTask p x).task q = s.task q := update_of_ne h ..

theorem Core.alive (h : Core s D) (hp : (s.task p).state ≠ .died) : p ∉ D := fun hd => hp (h.dead p hd).2.2.1

theorem Core.kernel (h : Core s D) (hp : (s.task p).uid = 0) : p ∉ D := fun hd => (h.dead p hd).2.1 hp

theorem Rest.cleanup {op : Op} {k : List Op} (h : Rest (op :: k)) : (op = .leave ∧ k = []) ∨
    (op.cleanup = true ∧ k ≠ [] ∧ Rest k) := by
  obtain h | ⟨ops, h, hops⟩ := h
  · cases h
  cases ops with
  | nil =>
    obtain ⟨h1, h2⟩ := cons.inj h
    exact .inl ⟨h1, h2⟩
  | cons o ops =>
    obtain ⟨rfl, rfl⟩ := cons.inj h
    refine .inr ⟨hops _ (.head _), by simp, .inr ⟨ops, rfl, fun x hx => hops x (.tail _ hx)⟩⟩

theorem Rest.append {ops k : List Op} (h : Rest k) (hk : k ≠ []) (hops : ∀ op ∈ ops, op.cleanup = true) : Rest (ops ++ k) := by
  obtain h | ⟨os, rfl, hos⟩ := h
  · exact absurd h hk
  refine .inr ⟨ops ++ os, (append_assoc ..).symm, ?_⟩
  intro op hop
  rcases mem_append.1 hop with h1 | h1
  · exact hops op h1
  · exact hos op h1

theorem Within.append {d id : Nat} {k : List Op} (h : Within d id k) : ∀ {ops : List Op},
    (∀ op ∈ ops, op.transfer = true) → Within d id (ops ++ k)
  | [], _ => h
  | op :: _, hops => .inr ⟨hops op (.head _),
      h.append fun x hx => hops x (.tail _ hx)⟩

theorem Within.head {d id : Nat} {k : List Op} {op : Op} (h : Within d id k) (hop : k.head? = some op) :
    op = .finish d id ∨ op.transfer = true := by
  cases k with
  | nil => cases hop
  | cons o k =>
    cases hop
    exact h.imp_right And.left

/-! ## Changes the invariant does not see -/

/-- The states agree on all that the invariant reads, and have no new task in a request. -/
structure Same (s t : State) : Prop where
  running : t.running = s.running
  idle : t.idle = s.idle
  table : t.table = s.table
  uid : ∀ p, (t.task p).uid = (s.task p).uid
  state : ∀ p, (t.task p).state = (s.task p).state
  node : ∀ p, (t.task p).node = (s.task p).node
  timer : ∀ p, (t.task p).timer = (s.task p).timer
  kont : ∀ p, (t.task p).kont = (s.task p).kont
  queue : t.queue = s.queue
  waiter : t.waiter = s.waiter
  requests : ∀ d r, r ∈ t.requests d → r.task ≠ none → r ∈ s.requests d

theorem Same.page (h : Same s t) : t.Page p ↔ s.Page p := by
  unfold State.Page
  rw [h.table]

theorem Same.task {x : Task} (hu : x.uid = (s.task p).uid) (hs : x.state = (s.task p).state) (hn : x.node = (s.task p).node)
    (ht : x.timer = (s.task p).timer) (hk : x.kont = (s.task p).kont) : Same s (s.setTask p x) := by
  have hq : ∀ {β : Type} (f : Task → β), f x = f (s.task p) → ∀ q, f ((s.setTask p x).task q) = f (s.task q) := by
    intro β f hf q
    by_cases h : q = p
    · subst h
      rw [setTask_same, hf]
    · rw [setTask_ne _ h]
  exact ⟨rfl, rfl, rfl, hq _ hu, hq _ hs, hq _ hn, hq _ ht, hq _ hk, rfl, rfl, fun _ _ h _ => h⟩

theorem Core.same (h : Core s D) (hs : Same s t) : Core t D := by
  constructor
  · rw [hs.page, hs.idle, hs.uid]
    exact h.idle
  · rw [hs.table]
    exact h.slot
  · intro p hp
    rw [hs.page, hs.uid, hs.state, hs.node, hs.kont]
    exact h.dead p hp
  · intro p hp hd
    rw [hs.page] at hp
    rw [hs.state] at hd
    exact h.died p hp hd
  · intro p hp
    rw [hs.page] at hp
    rw [hs.timer, hs.node]
    exact h.timer p hp
  · intro q p hp
    rw [hs.queue] at hp
    rw [hs.page, hs.node]
    exact h.queue q p hp
  · intro n p hp
    rw [hs.waiter] at hp
    rw [hs.page, hs.kont]
    exact h.socket n p hp
  · intro n p hp
    rw [hs.waiter] at hp
    rw [hs.page, hs.uid]
    refine (h.pipe n p hp).imp_right (Or.imp_right fun ha => ?_)
    exact ⟨by rw [hs.kont]; exact ha.head, by rw [hs.node]; exact ha.node, by rw [hs.state]; exact ha.state,
      by rw [hs.timer]; exact ha.timer⟩
  · intro d r p hr hp
    rw [hs.page, hs.kont]
    exact h.request d r p (hs.requests d r hr (by rw [hp]; exact nofun)) hp

theorem Inv.same (h : Inv s D) (hs : Same s t) : Inv t D := by
  refine ⟨h.toCore.same hs, ?_, ?_, ?_⟩
  · rw [hs.running, hs.page]
    exact h.running
  · rw [hs.running, hs.state]
    exact h.current
  · rw [hs.running, hs.kont]
    exact h.leaves

/-! ## Waking -/

@[simp] theorem unblocked_same (e : Int) : (s.unblocked p e).task p =
    { s.task p with node := none, timer := none, status := e, state := .ready } := setTask_same _

theorem unblocked_ne {q : Nat} (e : Int) (h : q ≠ p) : (s.unblocked p e).task q = s.task q := setTask_ne _ h

theorem unblocked_field {β : Type} {e : Int} (f : Task → β)
    (hf : f { s.task p with node := none, timer := none, status := e, state := .ready } = f (s.task p)) (q : Nat) :
    f ((s.unblocked p e).task q) = f (s.task q) := by
  by_cases h : q = p
  · subst h
    rw [unblocked_same, hf]
  · rw [unblocked_ne _ h]

theorem taskUnblock_ok {e : Int} (h : taskUnblock s p e = .ok t) : (s.task p).state ≠ .running ∧ t = s.unblocked p e := by
  unfold taskUnblock at h
  split at h
  · cases h
  · exact ⟨‹_›, (Except.ok.inj h).symm⟩

theorem Inv.unblock {e : Int} (h : Inv s D) (hp : p ∉ D) (hpipe : ∀ n, s.waiter (.pipe n) = some p → (s.task p).uid = 0)
    (ht : taskUnblock s p e = .ok t) : Inv t D := by
  obtain ⟨hrun, rfl⟩ := taskUnblock_ok ht
  have hne : s.running ≠ p := by
    rintro rfl
    exact h.current.elim hrun hp
  have hkont : ∀ q, ((s.unblocked p e).task q).kont = (s.task q).kont := unblocked_field Task.kont rfl
  have huid : ∀ q, ((s.unblocked p e).task q).uid = (s.task q).uid := unblocked_field Task.uid rfl
  have hcur : (s.unblocked p e).task s.running = s.task s.running := unblocked_ne e hne
  refine ⟨⟨⟨h.idle.1, (huid _).trans h.idle.2⟩, h.slot, ?_, ?_, ?_, ?_, ?_, ?_, ?_⟩, h.running, hcur ▸ h.current, hcur ▸ h.leaves⟩
  · intro q hq
    have hqp : q ≠ p := fun e => hp (e ▸ hq)
    rw [unblocked_ne _ hqp]
    exact h.dead q hq
  · intro q hpage hq
    have hqp : q ≠ p := by
      rintro rfl
      rw [unblocked_same] at hq
      cases hq
    rw [unblocked_ne _ hqp] at hq
    exact h.died q hpage hq
  · intro q hpage hq
    have hqp : q ≠ p := by
      rintro rfl
      rw [unblocked_same] at hq
      exact hq rfl
    rw [unblocked_ne _ hqp] at hq ⊢
    exact h.timer q hpage hq
  · intro q r hr
    obtain ⟨hr1, hr2⟩ := mem_filter.1 hr
    rw [unblocked_ne _ (of_decide_eq_true hr2)]
    exact h.queue q r hr1
  · intro n q hq
    obtain ⟨h1, h2⟩ := h.socket n q hq
    exact ⟨h1, (hkont q) ▸ h2⟩
  · intro n q hq
    obtain ⟨h1, h2⟩ := h.pipe n q hq
    refine ⟨h1, ?_⟩
    by_cases hqp : q = p
    · subst hqp
      exact .inl ((huid q).trans (hpipe n hq))
    · refine h2.imp (fun h3 => (huid q).trans h3) fun ha => ?_
      have hq' : (s.unblocked p e).task q = s.task q := unblocked_ne e hqp
      exact ⟨hq' ▸ ha.head, hq' ▸ ha.node, hq' ▸ ha.state, hq' ▸ ha.timer⟩
  · intro d r q hr hq
    obtain ⟨h1, h2, h3⟩ := h.request d r q hr hq
    exact ⟨h1, h2, (hkont q) ▸ h3⟩

theorem Core.queued {q : Queue} (h : Core s D) (hp : p ∈ s.queue q) (hq : q ≠ .block) :
    p ∉ D ∧ ∀ n, s.waiter (.pipe n) = some p → (s.task p).uid = 0 := by
  obtain ⟨-, h2⟩ := h.queue q p hp
  refine ⟨fun hd => ?_, fun n hn => ?_⟩
  · rw [(h.dead p hd).2.2.2.1] at h2
    cases h2
  · refine (h.pipe n p hn).2.resolve_right fun ha => hq ?_
    rw [ha.node] at h2
    exact (Option.some.inj h2).symm

theorem Inv.wakeLast {q : Queue} (h : Inv s D) (hq : q ≠ .block) (hp : (s.queue q).getLast? = some p)
    (ht : taskUnblock s p eok = .ok t) : Inv t D :=
  h.unblock (h.queued (mem_of_getLast? hp) hq).1 (h.queued (mem_of_getLast? hp) hq).2 ht

theorem Inv.reset {w : Waiter} (h : Inv s D) : Inv { s with waiter := update s.waiter w none } D := by
  have hw : ∀ v q, update s.waiter w none v = some q → s.waiter v = some q := by
    intro v q hq
    by_cases hv : v = w
    · subst hv
      rw [update_self] at hq
      cases hq
    · rwa [update_of_ne hv] at hq
  refine ⟨⟨h.idle, h.slot, h.dead, h.died, h.timer, h.queue, ?_, ?_, h.request⟩, h.running, h.current, h.leaves⟩
  · exact fun n q hq => h.socket n q (hw _ q hq)
  · intro n q hq
    refine (h.pipe n q (hw _ q hq)).imp_right (Or.imp_right fun ha => ?_)
    exact ⟨ha.head, ha.node, ha.state, ha.timer⟩

theorem Rest.head {k : List Op} {op : Op} (h : Rest k) (hop : k.head? = some op) : op = .leave ∨ op.cleanup = true := by
  cases k with
  | nil => cases hop
  | cons o k =>
    cases hop
    exact h.cleanup.imp And.left And.left

theorem Core.waits {n : Nat} (h : Core s D) (hp : s.waiter (.socket n) = some p ∨ s.waiter (.pipe n) = some p) : p ∉ D := by
  intro hd
  have hrest := (h.dead p hd).2.2.2.2
  rcases hp with hp | hp
  · rcases hrest.head (h.socket n p hp).2 with h1 | h1 <;> cases h1
  · rcases (h.pipe n p hp).2 with h1 | h1
    · exact h.kernel h1 hd
    · rcases hrest.head h1.head with h2 | h2 <;> cases h2

theorem Inv.wake {w : Waiter} (h : Inv s D) (hq : w.Expected s) (ht : wake s w = .ok t) : Inv t D := by
  unfold Sched.wake at ht
  split at ht
  · cases ht
    exact h
  rename_i p hp
  obtain ⟨u, hu, ht⟩ := bind_ok ht
  cases ht
  cases w with
  | socket n =>
    refine (h.unblock (h.waits (.inl hp)) ?_ hu).reset
    intro m hm
    refine (h.pipe m p hm).2.resolve_right fun ha => ?_
    cases ((h.socket n p hp).2.symm.trans ha.head)
  | disk d =>
    have hq : Sched.Expected s d := hq
    unfold Sched.Expected at hq
    rw [hp] at hq
    obtain ⟨h1, h2⟩ := hq
    refine (h.unblock ?_ ?_ hu).reset
    · intro hd
      rw [(h.dead p hd).2.2.2.1] at h1
      cases h1
    · intro m hm
      refine (h.pipe m p hm).2.resolve_right fun ha => ?_
      obtain ⟨k, hk⟩ := head?_eq_some_iff.1 ha.head
      rw [hk] at h2
      cases h2
  | pipe n =>
    -- the pointer may as well be reset first
    obtain ⟨hrun, rfl⟩ := taskUnblock_ok hu
    refine (h.reset (w := .pipe n)).unblock (h.waits (.inr hp)) ?_ (if_neg hrun)
    intro m hm
    have hmn : Waiter.pipe m ≠ .pipe n := by
      intro e
      dsimp only at hm
      rw [e, update_self] at hm
      cases hm
    dsimp only at hm
    rw [update_of_ne hmn] at hm
    rcases (h.pipe n p hp).2 with h0 | hb
    · exact h0
    · refine (h.pipe m p hm).2.resolve_right fun ha => hmn ?_
      cases ha.head.symm.trans hb.head
      rfl

/-! ## Switching -/

theorem taskSearch_some {st : TaskState} (h : taskSearch s st = some p) : s.Page p ∧ (s.task p).state = st ∧ p ≠ s.running := by
  have hall : ∀ q, taskSearch s st = some q → s.Page q ∧ (s.task q).state = st ∧ q ≠ s.running := by
    refine foldlRecOn (motive := fun found => ∀ q, found = some q → s.Page q ∧ (s.task q).state = st ∧ q ≠ s.running)
      _ _ nofun fun found hf i hi q hq => ?_
    unfold searchSlot at hq
    split at hq
    · exact hf q hq
    rename_i x hx
    split at hq
    · exact hf q hq
    rename_i hc
    obtain ⟨h1, h2⟩ := not_or.1 hc
    have hgood : s.Page x ∧ (s.task x).state = st ∧ x ≠ s.running := ⟨⟨i, mem_range.1 hi, hx⟩, not_not.1 h1, h2⟩
    split at hq
    · cases hq
      exact hgood
    · split at hq
      · cases hq
        exact hgood
      · exact hf q hq
  exact hall p h

def preempted (x : Task) : Task :=
  let x := if x.state = .running then { x with state := .ready } else x
  if x.ticks = 0 then { x with ticks := x.priority } else x

theorem preempted_field {β : Type} {x : Task} (f : Task → β) (hs : f { x with state := .ready } = f x)
    (ht : ∀ y : Task, ∀ n, f { y with ticks := n } = f y) : f (preempted x) = f x := by
  unfold preempted
  dsimp only
  split <;> split
  · exact (ht { x with state := .ready } x.priority).trans hs
  · exact hs
  · exact ht x x.priority
  · rfl

theorem preempted_state {x : Task} : (preempted x).state = if x.state = .running then .ready else x.state := by
  unfold preempted
  dsimp only
  split <;> split <;> rfl

def State.next (s : State) : Nat := (taskSearch s .ready).getD s.idle

theorem schedule_eq (s : State) : schedule s =
    { (s.setTask s.running (preempted (s.task s.running))).setTask s.next
        { (s.setTask s.running (preempted (s.task s.running))).task s.next with state := .running } with running := s.next } := rfl

theorem schedule_task {q : Nat} (hq : q ≠ s.next) : (schedule s).task q =
    if q = s.running then preempted (s.task q) else s.task q := by
  rw [schedule_eq]
  refine (setTask_ne _ hq).trans ?_
  split
  · rename_i h
    subst h
    exact setTask_same _
  · exact setTask_ne _ ‹_›

theorem schedule_next : ∃ x, (x = s.task s.next ∨ x = preempted (s.task s.next)) ∧
    (schedule s).task s.next = { x with state := .running } := by
  rw [schedule_eq]
  by_cases h : s.next = s.running
  · refine ⟨preempted (s.task s.next), .inr rfl, (setTask_same _).trans ?_⟩
    rw [h, setTask_same]
  · refine ⟨s.task s.next, .inl rfl, (setTask_same _).trans ?_⟩
    rw [setTask_ne _ h]

theorem schedule_field {β : Type} (f : Task → β) (hs : ∀ (x : Task) st, f { x with state := st } = f x)
    (ht : ∀ (x : Task) n, f { x with ticks := n } = f x) (q : Nat) : f ((schedule s).task q) = f (s.task q) := by
  have hp : ∀ x, f (preempted x) = f x := fun x => preempted_field f (hs x _) ht
  by_cases hq : q = s.next
  · subst hq
    obtain ⟨x, hx, he⟩ := schedule_next (s := s)
    rw [he, hs]
    rcases hx with rfl | rfl
    · rfl
    · exact hp _
  · rw [schedule_task hq]
    split
    · exact hp _
    · rfl

theorem next_ready (s : State) : (s.Page s.next ∧ (s.task s.next).state = .ready ∧ s.next ≠ s.running) ∨ s.next = s.idle := by
  unfold State.next
  cases h : taskSearch s .ready with
  | none => exact .inr rfl
  | some p => exact .inl (taskSearch_some h)

theorem Core.next (h : Core s D) : s.Page s.next ∧ s.next ∉ D ∧ ((s.task s.next).state = .ready ∨ (s.task s.next).uid = 0) := by
  rcases next_ready s with ⟨h1, h2, -⟩ | h1
  · exact ⟨h1, h.alive (by rw [h2]; exact nofun), .inl h2⟩
  · rw [h1]
    exact ⟨h.idle.1, h.kernel h.idle.2, .inr h.idle.2⟩

theorem Core.switch (h : Core s D) : Inv (schedule s) D := by
  obtain ⟨hpage, hnot, hready⟩ := h.next
  have huid := schedule_field (s := s) Task.uid (fun _ _ => rfl) fun _ _ => rfl
  have hnode := schedule_field (s := s) Task.node (fun _ _ => rfl) fun _ _ => rfl
  have htimer := schedule_field (s := s) Task.timer (fun _ _ => rfl) fun _ _ => rfl
  have hkont := schedule_field (s := s) Task.kont (fun _ _ => rfl) fun _ _ => rfl
  -- only a running task and the next one change their state
  have hstate : ∀ q, q ≠ s.next → (s.task q).state ≠ .running → ((schedule s).task q).state = (s.task q).state := by
    intro q hq hr
    rw [schedule_task hq]
    split
    · rw [preempted_state, if_neg hr]
    · rfl
  have hnext : ((schedule s).task s.next).state = .running := by
    obtain ⟨x, -, he⟩ := schedule_next (s := s)
    rw [he]
  refine ⟨⟨⟨h.idle.1, (huid _).trans h.idle.2⟩, h.slot, ?_, ?_, ?_, ?_, ?_, ?_, ?_⟩, hpage, .inl hnext, fun hd => absurd hd hnot⟩
  · intro q hq
    obtain ⟨h1, h2, h3, h4, h5⟩ := h.dead q hq
    have hqn : q ≠ s.next := fun e => hnot (e ▸ hq)
    refine ⟨h1, (huid q).symm ▸ h2, ?_, (hnode q).trans h4, (hkont q).symm ▸ h5⟩
    rw [hstate q hqn (by rw [h3]; exact nofun), h3]
  · intro q hq hd
    by_cases hqn : q = s.next
    · rw [hqn, hnext] at hd
      cases hd
    · rw [schedule_task hqn] at hd
      split at hd
      · rw [preempted_state] at hd
        split at hd
        · cases hd
        · exact h.died q hq hd
      · exact h.died q hq hd
  · intro q hq
    rw [htimer, hnode]
    exact h.timer q hq
  · intro l q hq
    rw [hnode]
    exact h.queue l q hq
  · intro n q hq
    rw [hkont]
    exact h.socket n q hq
  · intro n q hq
    obtain ⟨h1, h2⟩ := h.pipe n q hq
    refine ⟨h1, ?_⟩
    rw [huid]
    rcases h2 with h2 | ha
    · exact .inl h2
    by_cases hqn : q = s.next
    · subst hqn
      refine .inl (hready.resolve_left ?_)
      rw [ha.state]
      exact nofun
    · refine .inr ⟨(hkont q).symm ▸ ha.head, (hnode q).trans ha.node, ?_, (htimer q).trans ha.timer⟩
      rw [hstate q hqn (by rw [ha.state]; exact nofun), ha.state]
  · intro d r q hr hq
    rw [hkont]
    exact h.request d r q hr hq

end Onix.Sched
