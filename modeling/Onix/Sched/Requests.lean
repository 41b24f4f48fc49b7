/-
The order of block requests in `kernel/device.c`: who is in service, who is woken, and which way the
sector numbers go, for any number of tasks and any interleaving at `task_block` and inside the driver. A queued
task may also be woken by code that has nothing to do with it: `ide_handler` unblocks a task that no longer waits
for the disk.
-/
import Onix.Sched.Model

namespace Onix.Sched.Requests

open List Function Onix.Lib

/-! ## Data -/

/-- The parent of a device and its answer to `DEV_CMD_SECTOR_START`. -/
structure Device where
  parent : Option Nat
  start : BitVec 32

/-- Where a task is in `device_request`. -/
inductive Stage
  /-- in `task_block` -/
  | blocked
  /-- `task_block` will return this status -/
  | woken (status : Int)
  /-- in `do_request` -/
  | driver
  deriving DecidableEq

/-- A call of `device_request`, with the device whose list the request is on. -/
structure Call where
  dev : Nat
  req : Request
  stage : Stage

structure State where
  requests : Nat → List Request
  /-- the block the next request gets -/
  nextRequest : Nat
  /-- `DIRECT_UP` -/
  up : Nat → Bool
  call : Nat → Option Call
  /-- what the last call of a task returned -/
  ret : Nat → Option Int

/-- The failed assertion: on the status after `task_block`, on the task of the next request. -/
inductive Fault
  | status
  | task
  deriving DecidableEq

def State.setCall (s : State) (t : Nat) (c : Option Call) : State := { s with call := Function.update s.call t c }

/-! ## The code -/

variable (dev : Nat → Device)

def deviceRequest (s : State) (t d : Nat) (idx : BitVec 32) : State :=
  let offset := idx + (dev d).start
  let d := (dev d).parent.getD d
  let empty := (s.requests d).isEmpty
  let req : Request := ⟨s.nextRequest, offset, if empty then none else some t⟩
  { s with
    requests := Function.update s.requests d (listInsertSort Request.idx req (s.requests d))
    nextRequest := s.nextRequest + 1 }.setCall t (some ⟨d, req, if empty then .driver else .blocked⟩)

/-- `task_unblock`. A task in the driver or elsewhere is not in the wait of `device_request`. -/
def State.unblock (s : State) (t : Nat) (reason : Int) : State :=
  match s.call t with
  | some c => if c.stage = .driver then s else s.setCall t (some { c with stage := .woken reason })
  | none => s

def finish (s : State) (t : Nat) (c : Call) (ret : Int) : Except Fault State :=
  let l := (s.requests c.dev).takeWhile fun x => decide (x.id ≠ c.req.id)
  let r := ((s.requests c.dev).dropWhile fun x => decide (x.id ≠ c.req.id)).tail
  let next := requestNextreq (s.up c.dev) l r
  let s := { s with
    requests := Function.update s.requests c.dev ((s.requests c.dev).filter fun x => decide (x.id ≠ c.req.id))
    up := Function.update s.up c.dev next.1
    ret := Function.update s.ret t (some ret) }.setCall t none
  match next.2 with
  | none => .ok s
  | some x =>
    match x.task with
    | none => .error .task
    | some u => .ok (s.unblock u eok)

def resume (s : State) (t : Nat) (c : Call) : Except Fault State :=
  if c.stage ≠ .woken eok then .error .status else .ok (s.setCall t (some { c with stage := .driver }))

/-! ## The machine -/

inductive Act
  | request (t d : Nat) (idx : BitVec 32)
  | resume (t : Nat)
  | finish (t : Nat) (ret : Int)
  | stray (t : Nat) (reason : Int)

def step (s : State) : Act → Except Fault State
  | .request t d idx => .ok (deviceRequest dev s t d idx)
  | .resume t =>
    match s.call t with
    | some c => resume s t c
    | none => .ok s
  | .finish t ret =>
    match s.call t with
    | some c => finish s t c ret
    | none => .ok s
  | .stray t reason => .ok (s.unblock t reason)

def enabled (s : State) : Act → Prop
  | .request t _ _ => s.call t = none
  | .resume t => ∃ c i, s.call t = some c ∧ c.stage = .woken i
  | .finish t _ => ∃ c, s.call t = some c ∧ c.stage = .driver
  | .stray t _ => ∃ c, s.call t = some c ∧ c.stage = .blocked

def device : Machine State Act Fault where
  start s := (∀ d, s.requests d = []) ∧ (∀ d, s.up d = true) ∧ (∀ t, s.call t = none) ∧ s.nextRequest = 0
  enabled := enabled
  step := step dev

/-- The requests the driver was called for, and the sectors served on a device since its direction last changed,
the latest first. -/
structure History where
  entered : List Nat
  trail : Nat → List (BitVec 32)

def History.enter (g : History) (c : Call) : History :=
  ⟨c.req.id :: g.entered, Function.update g.trail c.dev (c.req.idx :: g.trail c.dev)⟩

def History.turn (g : History) (d : Nat) : History := { g with trail := Function.update g.trail d [] }

def after (g : History) (s : State) (a : Act) (s' : State) : History :=
  match a with
  | .request t _ _ | .resume t =>
    match s'.call t with
    | some c => if c.stage = .driver then g.enter c else g
    | none => g
  | .finish t _ =>
    match s.call t with
    | some c => if s'.up c.dev = s.up c.dev then g else g.turn c.dev
    | none => g
  | .stray _ _ => g

def served : Machine (State × History) Act Fault := (device dev).record (fun _ g => g = ⟨[], fun _ => []⟩) after

/-- No task is woken but by the request before its own, and no two requests are in the list at once of which one
has a sector number below 2^31 and the other has not: `list_insert_sort` compares them as `int`. -/
def Regular (x : State × History) : Act → Prop
  | .request _ d idx => ∀ y ∈ x.1.requests ((dev d).parent.getD d), y.idx.msb = (idx + (dev d).start).msb
  | .stray _ _ => False
  | _ => True

instance (x : State × History) : ∀ a, Decidable (Regular dev x a)
  | .request _ d idx => inferInstanceAs (Decidable (∀ y ∈ x.1.requests ((dev d).parent.getD d), y.idx.msb = (idx + (dev d).start).msb))
  | .stray _ _ => inferInstanceAs (Decidable False)
  | .resume _ | .finish _ _ => inferInstanceAs (Decidable True)

/-! ## The next request -/

def Ahead (up : Bool) (x y : BitVec 32) : Prop := if up then x.toInt ≤ y.toInt else y.toInt ≤ x.toInt

theorem Ahead.refl (up : Bool) (x : BitVec 32) : Ahead up x x := by
  unfold Ahead
  split <;> exact Int.le_refl _

theorem Ahead.trans {up : Bool} {x y z : BitVec 32} (h1 : Ahead up x y) (h2 : Ahead up y z) : Ahead up x z := by
  cases up with
  | true => exact Int.le_trans h1 h2
  | false => exact Int.le_trans h2 h1

theorem requestNextreq_cases (up : Bool) (l r : List Request) :
    (l ++ r = [] ∧ requestNextreq up l r = (!up, none)) ∨
    ∃ y ∈ l ++ r, requestNextreq up l r = (!up, some y) ∨
      (requestNextreq up l r = (up, some y) ∧ (up = true → y ∈ r) ∧ (up = false → y ∈ l)) := by
  cases up with
  | true =>
    cases r with
    | nil =>
      rcases eq_nil_or_concat l with rfl | ⟨l, z, rfl⟩
      · exact .inl ⟨rfl, rfl⟩
      · exact .inr ⟨z, by simp, .inl (by simp [requestNextreq])⟩
    | cons z r => exact .inr ⟨z, by simp, .inr ⟨by simp [requestNextreq], by simp, nofun⟩⟩
  | false =>
    rcases eq_nil_or_concat l with rfl | ⟨l, z, rfl⟩
    · cases r with
      | nil => exact .inl ⟨rfl, rfl⟩
      | cons z r => exact .inr ⟨z, by simp, .inl (by simp [requestNextreq])⟩
    · exact .inr ⟨z, by simp, .inr ⟨by simp [requestNextreq], nofun, by simp⟩⟩

theorem split_at {l : List Request} {x : Request} (hx : x ∈ l) (hn : (l.map Request.id).Nodup) :
    ∃ a b, l = a ++ x :: b ∧ l.takeWhile (fun y => decide (y.id ≠ x.id)) = a ∧
      (l.dropWhile fun y => decide (y.id ≠ x.id)).tail = b ∧ l.filter (fun y => decide (y.id ≠ x.id)) = a ++ b := by
  obtain ⟨a, b, rfl⟩ := append_of_mem hx
  rw [map_append, map_cons, nodup_append] at hn
  obtain ⟨-, hb, hab⟩ := hn
  have ha : ∀ y ∈ a, decide (y.id ≠ x.id) = true := fun y hy =>
    decide_eq_true (hab y.id (mem_map_of_mem hy) x.id (.head _))
  have hb : ∀ y ∈ b, decide (y.id ≠ x.id) = true := fun y hy => decide_eq_true fun e =>
    (nodup_cons.1 hb).1 (e ▸ mem_map_of_mem hy)
  refine ⟨a, b, rfl, ?_, ?_, ?_⟩
  · rw [takeWhile_append_of_pos ha]
    simp
  · rw [dropWhile_append_of_pos ha]
    simp
  · rw [filter_append, filter_eq_self.2 ha, filter_cons, if_neg (by simp), filter_eq_self.2 hb]

/-! ## The invariant -/

/-- Each request is that of one call, and each call has its request on the list; one call of a list has been woken or
is in the driver. -/
structure Inv (s : State) : Prop where
  nodup : ∀ d, ((s.requests d).map Request.id).Nodup
  fresh : ∀ d, ∀ x ∈ s.requests d, x.id < s.nextRequest
  sorted : ∀ d, IntSorted Request.idx (s.requests d)
  listed : ∀ t c, s.call t = some c → c.req ∈ s.requests c.dev
  task : ∀ t c, s.call t = some c → c.stage = .blocked → c.req.task = some t
  caller : ∀ d, ∀ x ∈ s.requests d, ∃ t i, s.call t = some ⟨d, x, i⟩
  own : ∀ t u c c', s.call t = some c → s.call u = some c' → c.req.id = c'.req.id → t = u
  one : ∀ t u c c', s.call t = some c → s.call u = some c' → c.dev = c'.dev → c.stage ≠ .blocked → c'.stage ≠ .blocked → t = u
  active : ∀ d, s.requests d ≠ [] → ∃ t c, s.call t = some c ∧ c.dev = d ∧ c.stage ≠ .blocked
  status : ∀ t c i, s.call t = some c → c.stage = .woken i → i = eok

/-- The history fits the calls in progress: what was served since the last turn does not lie beyond the request in turn. -/
structure Fits (s : State) (g : History) : Prop where
  nodup : g.entered.Nodup
  old : ∀ i ∈ g.entered, i < s.nextRequest
  entered : ∀ t c, s.call t = some c → (c.req.id ∈ g.entered ↔ c.stage = .driver)
  all : ∀ i < s.nextRequest, i ∈ g.entered ∨ ∃ t c, s.call t = some c ∧ c.req.id = i
  empty : ∀ d, s.requests d = [] → g.trail d = []
  trail : ∀ d, (g.trail d).Pairwise fun y x => Ahead (s.up d) x y
  ahead : ∀ t c, s.call t = some c → c.stage ≠ .blocked → ∀ x ∈ g.trail c.dev, Ahead (s.up c.dev) x c.req.idx
  half : ∀ d, ∃ b : Bool, (∀ x ∈ g.trail d, x.msb = b) ∧ ∀ x ∈ s.requests d, x.idx.msb = b

variable {dev} {s s' : State} {g : History} {t u d : Nat} {c : Call}

@[simp] theorem setCall_call {o : Option Call} : (s.setCall t o).call t = o := update_self ..

theorem setCall_other {o : Option Call} (h : u ≠ t) : (s.setCall t o).call u = s.call u := update_of_ne h ..

theorem Inv.unique (h : Inv s) (ht : s.call t = some c) {x : Request} (hx : x ∈ s.requests d) (hid : x.id = c.req.id) :
    d = c.dev ∧ x = c.req := by
  obtain ⟨u, i, hu⟩ := h.caller d x hx
  have hut := h.own u t _ _ hu ht hid
  rw [hut, ht] at hu
  cases hu
  exact ⟨rfl, rfl⟩

/-! ## A new request -/

def newCall (dev : Nat → Device) (s : State) (t d : Nat) (idx : BitVec 32) : Call :=
  let e := (dev d).parent.getD d
  ⟨e, ⟨s.nextRequest, idx + (dev d).start, if (s.requests e).isEmpty then none else some t⟩,
    if (s.requests e).isEmpty then .driver else .blocked⟩

variable {idx : BitVec 32}

theorem deviceRequest_call : (deviceRequest dev s t d idx).call t = some (newCall dev s t d idx) := update_self ..

theorem deviceRequest_other (h : u ≠ t) : (deviceRequest dev s t d idx).call u = s.call u := update_of_ne h ..

theorem deviceRequest_requests : (deviceRequest dev s t d idx).requests = update s.requests (newCall dev s t d idx).dev
    (listInsertSort Request.idx (newCall dev s t d idx).req (s.requests (newCall dev s t d idx).dev)) := rfl

theorem mem_deviceRequest {e : Nat} {x : Request} : x ∈ (deviceRequest dev s t d idx).requests e ↔
    e = (newCall dev s t d idx).dev ∧ x = (newCall dev s t d idx).req ∨ x ∈ s.requests e := by
  rw [deviceRequest_requests]
  by_cases he : e = (newCall dev s t d idx).dev
  · subst he
    rw [update_self, mem_listInsertSort]
    simp
  · rw [update_of_ne he]
    simp [he]

theorem newCall_stage (i : Int) : (newCall dev s t d idx).stage ≠ .woken i := by
  unfold newCall
  dsimp only
  split <;> exact nofun

theorem newCall_active : (newCall dev s t d idx).stage ≠ .blocked ↔ s.requests (newCall dev s t d idx).dev = [] := by
  unfold newCall
  by_cases he : s.requests ((dev d).parent.getD d) = []
  · simp [he]
  · simp [he]

theorem newCall_task (h : (newCall dev s t d idx).stage = .blocked) : (newCall dev s t d idx).req.task = some t := by
  unfold newCall at *
  dsimp only at *
  split at h
  · cases h
  · rename_i he
    rw [if_neg he]

theorem Inv.request (h : Inv s) (ht : s.call t = none) : Inv (deviceRequest dev s t d idx) := by
  set c := newCall dev s t d idx with hc
  have hid : c.req.id = s.nextRequest := rfl
  have hfresh : ∀ u c', s.call u = some c' → c'.req.id < s.nextRequest := fun u c' hu => h.fresh _ _ (h.listed u c' hu)
  have hother : ∀ u c', (deviceRequest dev s t d idx).call u = some c' → (u = t ∧ c' = c) ∨ (u ≠ t ∧ s.call u = some c') := by
    intro u c' hu
    by_cases hut : u = t
    · subst hut
      rw [deviceRequest_call] at hu
      cases hu
      exact .inl ⟨rfl, rfl⟩
    · exact .inr ⟨hut, (deviceRequest_other hut).symm.trans hu⟩
  have hkeep : ∀ u c', s.call u = some c' → (deviceRequest dev s t d idx).call u = some c' := by
    intro u c' hu
    have hut : u ≠ t := fun e => by
      rw [e, ht] at hu
      cases hu
    rw [deviceRequest_other hut, hu]
  constructor
  case nodup =>
    intro e
    by_cases he : e = c.dev
    · subst he
      rw [deviceRequest_requests, update_self, ((listInsertSort_perm _ _).map Request.id).nodup_iff, map_cons,
        nodup_cons]
      refine ⟨fun hm => ?_, h.nodup _⟩
      obtain ⟨x, hx, hxi⟩ := mem_map.1 hm
      have h1 := h.fresh _ x hx
      exact absurd (hxi.trans hid) (by omega)
    · rw [deviceRequest_requests, update_of_ne he]
      exact h.nodup e
  case fresh =>
    intro e x hx
    show x.id < s.nextRequest + 1
    rcases mem_deviceRequest.1 hx with ⟨-, rfl⟩ | hx
    · exact Nat.lt_succ_self _
    · have h1 := h.fresh e x hx
      omega
  case sorted =>
    intro e
    rw [deviceRequest_requests]
    by_cases he : e = c.dev
    · subst he
      rw [update_self]
      exact listInsertSort_intSorted (h.sorted _)
    · rw [update_of_ne he]
      exact h.sorted e
  case listed =>
    intro u c' hu
    rcases hother u c' hu with ⟨rfl, rfl⟩ | ⟨-, hu⟩
    · exact mem_deviceRequest.2 (.inl ⟨rfl, rfl⟩)
    · exact mem_deviceRequest.2 (.inr (h.listed u c' hu))
  case task =>
    intro u c' hu hb
    rcases hother u c' hu with ⟨rfl, rfl⟩ | ⟨-, hu⟩
    · exact newCall_task hb
    · exact h.task u c' hu hb
  case caller =>
    intro e x hx
    rcases mem_deviceRequest.1 hx with ⟨rfl, rfl⟩ | hx
    · exact ⟨t, c.stage, deviceRequest_call⟩
    · obtain ⟨u, i, hu⟩ := h.caller e x hx
      exact ⟨u, i, hkeep u _ hu⟩
  case own =>
    intro u v c1 c2 hu hv he
    rcases hother u c1 hu with ⟨rfl, rfl⟩ | ⟨-, hu1⟩ <;> rcases hother v c2 hv with ⟨rfl, rfl⟩ | ⟨-, hv1⟩
    · rfl
    · have h1 := hfresh v c2 hv1
      omega
    · have h1 := hfresh u c1 hu1
      omega
    · exact h.own u v c1 c2 hu1 hv1 he
  case one =>
    -- a call of the same list and a new one in the driver exclude each other
    have hclash : ∀ u c', s.call u = some c' → c'.dev = c.dev → c.stage = .blocked := by
      intro u c' hu hd
      by_contra hb
      have h1 := h.listed u c' hu
      rw [hd, newCall_active.1 hb] at h1
      cases h1
    intro u v c1 c2 hu hv hd h1 h2
    rcases hother u c1 hu with ⟨rfl, rfl⟩ | ⟨-, hu1⟩ <;> rcases hother v c2 hv with ⟨rfl, rfl⟩ | ⟨-, hv1⟩
    · rfl
    · exact absurd (hclash v c2 hv1 hd.symm) h1
    · exact absurd (hclash u c1 hu1 hd) h2
    · exact h.one u v c1 c2 hu1 hv1 hd h1 h2
  case active =>
    intro e hne
    by_cases he : s.requests e = []
    · -- the list was empty: the new request is in the driver
      obtain ⟨x, hx⟩ := exists_mem_of_ne_nil _ hne
      rcases mem_deviceRequest.1 hx with ⟨hed, -⟩ | hx
      · exact ⟨t, c, deviceRequest_call, hed.symm, newCall_active.2 (hed ▸ he)⟩
      · rw [he] at hx
        cases hx
    · obtain ⟨u, c', hu, hd, hb⟩ := h.active e he
      exact ⟨u, c', hkeep u c' hu, hd, hb⟩
  case status =>
    intro u c' i hu hi
    rcases hother u c' hu with ⟨rfl, rfl⟩ | ⟨-, hu⟩
    · exact absurd hi (newCall_stage i)
    · exact h.status u c' i hu hi

/-! ## The turn of a request -/

theorem Inv.resume (h : Inv s) (ht : s.call t = some c) {i : Int} (hi : c.stage = .woken i) :
    resume s t c = .ok (s.setCall t (some { c with stage := .driver })) ∧ Inv (s.setCall t (some { c with stage := .driver })) := by
  have hne : c.stage ≠ .blocked := by
    rw [hi]
    exact nofun
  -- the call is still that of its request
  have hother : ∀ u c', (s.setCall t (some { c with stage := .driver })).call u = some c' →
      ∃ c0, s.call u = some c0 ∧ c'.dev = c0.dev ∧ c'.req = c0.req ∧ (c'.stage = .blocked ↔ c0.stage = .blocked) ∧
        ∀ j, c'.stage = .woken j → c0.stage = .woken j := by
    intro u c' hu
    by_cases hut : u = t
    · subst hut
      rw [setCall_call] at hu
      cases hu
      exact ⟨c, ht, rfl, rfl, ⟨nofun, fun e => absurd e hne⟩, nofun⟩
    · rw [setCall_other hut] at hu
      exact ⟨c', hu, rfl, rfl, .rfl, fun _ e => e⟩
  refine ⟨?_, h.nodup, h.fresh, h.sorted, fun u c' hu => ?_, fun u c' hu hb => ?_, fun d x hx => ?_, fun u v c1 c2 hu hv he => ?_,
    fun u v c1 c2 hu hv hd h1 h2 => ?_, fun d hd => ?_, fun u c' j hu hj => ?_⟩
  · unfold Requests.resume
    rw [if_neg (not_not.2 (by rw [hi, h.status t c i ht hi]))]
  · obtain ⟨c0, hu0, hd, hr, -⟩ := hother u c' hu
    rw [hr, hd]
    exact h.listed u c0 hu0
  · obtain ⟨c0, hu0, -, hr, hs, -⟩ := hother u c' hu
    rw [hr]
    exact h.task u c0 hu0 (hs.1 hb)
  · obtain ⟨u, i, hu⟩ := h.caller d x hx
    by_cases hut : u = t
    · subst hut
      cases ht.symm.trans hu
      exact ⟨u, .driver, setCall_call⟩
    · exact ⟨u, i, (setCall_other hut).trans hu⟩
  · obtain ⟨c3, hu3, -, hr3, -⟩ := hother u c1 hu
    obtain ⟨c4, hv4, -, hr4, -⟩ := hother v c2 hv
    exact h.own u v c3 c4 hu3 hv4 (by rw [← hr3, ← hr4, he])
  · obtain ⟨c3, hu3, hd3, -, hs3, -⟩ := hother u c1 hu
    obtain ⟨c4, hv4, hd4, -, hs4, -⟩ := hother v c2 hv
    exact h.one u v c3 c4 hu3 hv4 (by rw [← hd3, ← hd4, hd]) (mt hs3.2 h1) (mt hs4.2 h2)
  · obtain ⟨u, c0, hu, hd0, hb⟩ := h.active d hd
    by_cases hut : u = t
    · subst hut
      cases ht.symm.trans hu
      exact ⟨u, _, setCall_call, hd0, nofun⟩
    · exact ⟨u, c0, (setCall_other hut).trans hu, hd0, hb⟩
  · obtain ⟨c0, hu0, -, -, -, hw⟩ := hother u c' hu
    exact h.status u c0 j hu0 (hw j hj)

/-- What the end of a call does: its request leaves the list; nobody is left and the direction turns, or one call that
waited is woken, further on if the direction stays. -/
structure Finished (s s' : State) (t : Nat) (c : Call) (r : Int) : Prop where
  ret : s'.ret t = some r
  next : s'.nextRequest = s.nextRequest
  sublist : ∀ d, (s'.requests d).Sublist (s.requests d)
  requests : ∀ d x, x ∈ s'.requests d ↔ x ∈ s.requests d ∧ x.id ≠ c.req.id
  up : ∀ d, d ≠ c.dev → s'.up d = s.up d
  self : s'.call t = none
  woken : (s'.requests c.dev = [] ∧ s'.up c.dev ≠ s.up c.dev ∧ ∀ v, v ≠ t → s'.call v = s.call v) ∨
    ∃ u y, u ≠ t ∧ s.call u = some ⟨c.dev, y, .blocked⟩ ∧ s'.call u = some ⟨c.dev, y, .woken eok⟩ ∧
      (∀ v, v ≠ t → v ≠ u → s'.call v = s.call v) ∧ (s'.up c.dev = s.up c.dev → Ahead (s.up c.dev) c.req.idx y.idx)

theorem Inv.finish (h : Inv s) (ht : s.call t = some c) (hc : c.stage ≠ .blocked) (r : Int) :
    ∃ s', finish s t c r = .ok s' ∧ Finished s s' t c r := by
  obtain ⟨a, b, hab, ha, hb, hf⟩ := split_at (h.listed t c ht) (h.nodup c.dev)
  have hlist : ∀ d x, x ∈ update s.requests c.dev (a ++ b) d ↔ x ∈ s.requests d ∧ x.id ≠ c.req.id := by
    intro d x
    by_cases hd : d = c.dev
    · subst hd
      rw [update_self, ← hf, mem_filter]
      simp
    · rw [update_of_ne hd]
      exact ⟨fun hx => ⟨hx, fun e => hd (h.unique ht hx e).1⟩, fun hx => hx.1⟩
  have hsub : ∀ d, (update s.requests c.dev (a ++ b) d).Sublist (s.requests d) := by
    intro d
    by_cases hd : d = c.dev
    · subst hd
      rw [update_self, ← hf]
      exact filter_sublist
    · rw [update_of_ne hd]
  have hup : ∀ w d, d ≠ c.dev → update s.up c.dev w d = s.up d := fun w d hd => update_of_ne hd ..
  unfold Requests.finish
  rw [ha, hb, hf]
  dsimp only
  rcases requestNextreq_cases (s.up c.dev) a b with ⟨hnil, hn⟩ | ⟨y, hy, hn⟩
  · rw [hn, hnil]
    refine ⟨_, rfl, update_self .., rfl, hnil ▸ hsub, hnil ▸ hlist, hup _, setCall_call, .inl ⟨update_self .., ?_,
      fun v hv => setCall_other hv⟩⟩
    show update s.up c.dev (!s.up c.dev) c.dev ≠ s.up c.dev
    rw [update_self]
    cases s.up c.dev <;> exact nofun
  · -- the next request is that of another call, which waits
    have hym : y ∈ s.requests c.dev ∧ y.id ≠ c.req.id := (hlist c.dev y).1 (by rw [update_self]; exact hy)
    obtain ⟨u, i, hu⟩ := h.caller c.dev y hym.1
    have hut : u ≠ t := fun e => by
      rw [e, ht] at hu
      exact hym.2 (congrArg (fun x => x.req.id) (Option.some.inj hu).symm)
    have hi : i = .blocked := by
      by_contra hi
      exact hut (h.one u t _ _ hu ht rfl hi hc)
    subst hi
    have htask : y.task = some u := h.task u _ hu rfl
    have hahead : ∀ w, (w = !s.up c.dev ∨ w = s.up c.dev ∧ (s.up c.dev = true → y ∈ b) ∧ (s.up c.dev = false → y ∈ a)) →
        update s.up c.dev w c.dev = s.up c.dev → Ahead (s.up c.dev) c.req.idx y.idx := by
      rintro w hw he
      rw [update_self] at he
      have hs := h.sorted c.dev
      unfold IntSorted at hs
      rw [hab, pairwise_append, pairwise_cons] at hs
      obtain ⟨-, ⟨hs1, -⟩, hs2⟩ := hs
      rcases hw with hw | ⟨-, h1, h2⟩
      · exact absurd (hw.symm.trans he) (by cases s.up c.dev <;> exact nofun)
      · unfold Ahead
        cases hup : s.up c.dev with
        | true => exact hs1 y (h1 hup)
        | false => exact hs2 y (h2 hup) c.req (.head _)
    -- the same for both values of the direction
    have hdone : ∀ w, (w = !s.up c.dev ∨ w = s.up c.dev ∧ (s.up c.dev = true → y ∈ b) ∧ (s.up c.dev = false → y ∈ a)) →
        ∃ s', (match y.task with
          | none => Except.error Fault.task
          | some u => .ok (({ s with
              requests := update s.requests c.dev (a ++ b)
              up := update s.up c.dev w
              ret := update s.ret t (some r) }.setCall t none).unblock u eok)) = .ok s' ∧ Finished s s' t c r := by
      intro w hw
      rw [htask]
      dsimp only
      have hcall : ({ s with requests := update s.requests c.dev (a ++ b), up := update s.up c.dev w, ret := update s.ret t (some r) }.setCall t
          none).call u = some ⟨c.dev, y, .blocked⟩ := (setCall_other hut).trans hu
      unfold State.unblock
      rw [hcall]
      refine ⟨_, rfl, update_self .., rfl, hsub, hlist, hup w, (setCall_other hut.symm).trans setCall_call, .inr ⟨u, y, hut, hu,
        setCall_call, fun v h1 h2 => (setCall_other h2).trans (setCall_other h1), hahead w hw⟩⟩
    rcases hn with hn | ⟨hn, h1, h2⟩
    · rw [hn]
      exact hdone _ (.inl rfl)
    · rw [hn]
      exact hdone _ (.inr ⟨rfl, h1, h2⟩)

variable {r : Int}

theorem Finished.call (hf : Finished s s' t c r) {v : Nat} {c' : Call} (hv : s'.call v = some c') :
    v ≠ t ∧ ∃ c0, s.call v = some c0 ∧ c'.dev = c0.dev ∧ c'.req = c0.req ∧
      (c' = c0 ∨ c0.dev = c.dev ∧ c0.stage = .blocked ∧ c'.stage = .woken eok) := by
  have hvt : v ≠ t := fun e => by
    rw [e, hf.self] at hv
    cases hv
  refine ⟨hvt, ?_⟩
  rcases hf.woken with ⟨-, -, ho⟩ | ⟨u, y, -, hu, hu', ho, -⟩
  · exact ⟨c', (ho v hvt).symm.trans hv, rfl, rfl, .inl rfl⟩
  · by_cases hvu : v = u
    · subst hvu
      cases hu'.symm.trans hv
      exact ⟨_, hu, rfl, rfl, .inr ⟨rfl, rfl, rfl⟩⟩
    · exact ⟨c', (ho v hvt hvu).symm.trans hv, rfl, rfl, .inl rfl⟩

theorem Finished.kept (hf : Finished s s' t c r) {v : Nat} {c0 : Call} (hvt : v ≠ t) (hv : s.call v = some c0) :
    ∃ i, s'.call v = some ⟨c0.dev, c0.req, i⟩ ∧ (c0.stage ≠ .blocked → i = c0.stage) := by
  rcases hf.woken with ⟨-, -, ho⟩ | ⟨u, y, -, hu, hu', ho, -⟩
  · exact ⟨c0.stage, (ho v hvt).trans hv, fun _ => rfl⟩
  · by_cases hvu : v = u
    · subst hvu
      cases hu.symm.trans hv
      exact ⟨_, hu', fun e => absurd rfl e⟩
    · exact ⟨c0.stage, (ho v hvt hvu).trans hv, fun _ => rfl⟩

theorem Finished.inv (hf : Finished s s' t c r) (h : Inv s) (ht : s.call t = some c) (hc : c.stage ≠ .blocked) : Inv s' := by
  have hnone : ∀ v c', v ≠ t → s.call v = some c' → c'.dev = c.dev → c'.stage = .blocked := by
    intro v c' hvt hv hd
    by_contra hb
    exact hvt (h.one v t c' c hv ht hd hb hc)
  refine ⟨fun d => (h.nodup d).sublist ((hf.sublist d).map _), fun d x hx => ?_, fun d => (h.sorted d).sublist (hf.sublist d),
    fun v c' hv => ?_, fun v c' hv hb => ?_, fun d x hx => ?_, fun v w c1 c2 hv hw he => ?_, fun v w c1 c2 hv hw hd h1 h2 => ?_,
    fun d hd => ?_, fun v c' i hv hi => ?_⟩
  · rw [hf.next]
    exact h.fresh d x ((hf.requests d x).1 hx).1
  · obtain ⟨hvt, c0, h0, hd, hr, -⟩ := hf.call hv
    rw [hr, hd]
    exact (hf.requests _ _).2 ⟨h.listed v c0 h0, fun e => hvt (h.own v t c0 c h0 ht e)⟩
  · obtain ⟨-, c0, h0, -, -, hs⟩ := hf.call hv
    rcases hs with rfl | ⟨-, -, hs⟩
    · exact h.task v _ h0 hb
    · cases hb.symm.trans hs
  · obtain ⟨hx, hne⟩ := (hf.requests d x).1 hx
    obtain ⟨v, i, hv⟩ := h.caller d x hx
    have hvt : v ≠ t := fun e => by
      rw [e, ht] at hv
      exact hne (congrArg (fun y => y.req.id) (Option.some.inj hv).symm)
    obtain ⟨j, hj, -⟩ := hf.kept hvt hv
    exact ⟨v, j, hj⟩
  · obtain ⟨-, c3, h3, -, hr3, -⟩ := hf.call hv
    obtain ⟨-, c4, h4, -, hr4, -⟩ := hf.call hw
    exact h.own v w c3 c4 h3 h4 (by rw [← hr3, ← hr4, he])
  · -- on the list of the call only the task just woken is awake
    obtain ⟨hvt, c3, h3, hd3, -, hs3⟩ := hf.call hv
    obtain ⟨hwt, c4, h4, hd4, -, hs4⟩ := hf.call hw
    by_cases hdev : c1.dev = c.dev
    · rcases hf.woken with ⟨hnil, -, -⟩ | ⟨u, y, -, -, -, ho, -⟩
      · have hm := (hf.requests _ _).2 ⟨h.listed v c3 h3, fun e => hvt (h.own v t c3 c h3 ht e)⟩
        rw [← hd3, hdev, hnil] at hm
        cases hm
      · have honly : ∀ z c', z ≠ t → s'.call z = some c' → c'.dev = c.dev → c'.stage ≠ .blocked → z = u := by
          intro z c' hzt hz hzd hzs
          by_contra hzu
          exact hzs (hnone z c' hzt ((ho z hzt hzu).symm.trans hz) hzd)
        rw [honly v c1 hvt hv hdev h1, honly w c2 hwt hw (hd ▸ hdev) h2]
    · rcases hs3 with rfl | ⟨e, -, -⟩
      · rcases hs4 with rfl | ⟨e, -, -⟩
        · exact h.one v w _ _ h3 h4 hd h1 h2
        · exact absurd (hd.trans (hd4.trans e)) hdev
      · exact absurd (hd3.trans e) hdev
  · by_cases hdev : d = c.dev
    · subst hdev
      rcases hf.woken with ⟨hnil, -, -⟩ | ⟨u, y, -, -, hu', -, -⟩
      · exact absurd hnil hd
      · exact ⟨u, _, hu', rfl, nofun⟩
    · have hne : s.requests d ≠ [] := fun e => hd (sublist_nil.1 (e ▸ hf.sublist d))
      obtain ⟨v, c0, h0, h1, h2⟩ := h.active d hne
      have hvt : v ≠ t := fun e => by
        subst e
        cases ht.symm.trans h0
        exact hdev h1.symm
      obtain ⟨i, hi, hi'⟩ := hf.kept hvt h0
      exact ⟨v, _, hi, h1, by rw [hi' h2]; exact h2⟩
  · obtain ⟨-, c0, h0, -, -, hs⟩ := hf.call hv
    rcases hs with rfl | ⟨-, -, hs⟩
    · exact h.status v _ i h0 hi
    · cases hs.symm.trans hi
      rfl

/-! ## The history -/

theorem Fits.enter (h : Fits s g) (hi : Inv (s.setCall t (some { c with stage := .driver }))) (ht : s.call t = some c)
    (hd : c.stage ≠ .driver) (hb : c.stage ≠ .blocked) : Fits (s.setCall t (some { c with stage := .driver })) (g.enter c) := by
  have hlisted : c.req ∈ s.requests c.dev := hi.listed t { c with stage := .driver } setCall_call
  have hnew : c.req.id ∉ g.entered := fun hm => hd ((h.entered t c ht).1 hm)
  have htrail : ∀ e, (g.enter c).trail e = if e = c.dev then c.req.idx :: g.trail e else g.trail e := by
    intro e
    show update _ _ _ _ = _
    by_cases he : e = c.dev
    · subst he
      rw [update_self, if_pos rfl]
    · rw [update_of_ne he, if_neg he]
  constructor
  case nodup => exact nodup_cons.2 ⟨hnew, h.nodup⟩
  case old =>
    intro i hm
    rcases mem_cons.1 hm with rfl | hm
    · exact hi.fresh _ _ hlisted
    · exact h.old i hm
  case entered =>
    intro u c' hu
    by_cases hut : u = t
    · subst hut
      rw [setCall_call] at hu
      cases hu
      exact ⟨fun _ => rfl, fun _ => .head _⟩
    · have hu0 := (setCall_other hut).symm.trans hu
      rw [← h.entered u c' hu0]
      refine ⟨fun hm => ?_, fun hm => .tail _ hm⟩
      rcases mem_cons.1 hm with e | hm
      · exact absurd (hi.own u t c' _ hu setCall_call e) hut
      · exact hm
  case all =>
    intro i hlt
    rcases h.all i hlt with hm | ⟨u, c', hu, he⟩
    · exact .inl (.tail _ hm)
    · by_cases hut : u = t
      · subst hut
        cases ht.symm.trans hu
        exact .inl (he ▸ .head _)
      · exact .inr ⟨u, c', (setCall_other hut).trans hu, he⟩
  case empty =>
    intro e he
    rw [htrail]
    by_cases hed : e = c.dev
    · subst hed
      have hm := hlisted
      rw [show s.requests c.dev = [] from he] at hm
      cases hm
    · rw [if_neg hed]
      exact h.empty e he
  case trail =>
    intro e
    rw [htrail]
    by_cases hed : e = c.dev
    · subst hed
      rw [if_pos rfl]
      exact pairwise_cons.2 ⟨h.ahead t c ht hb, h.trail _⟩
    · rw [if_neg hed]
      exact h.trail e
  case ahead =>
    intro u c' hu hs
    have hut : c'.dev = c.dev → u = t := by
      intro hdev
      by_contra hne
      exact hne (hi.one u t c' _ hu setCall_call hdev hs nofun)
    rw [htrail]
    by_cases hdev : c'.dev = c.dev
    · have hu := hu
      rw [hut hdev, setCall_call] at hu
      cases hu
      rw [if_pos rfl]
      intro x hx
      rcases mem_cons.1 hx with rfl | hx
      · exact .refl _ _
      · exact h.ahead t c ht hb x hx
    · rw [if_neg hdev]
      have hne : u ≠ t := fun e => by
        rw [e, setCall_call] at hu
        cases hu
        exact hdev rfl
      exact h.ahead u c' ((setCall_other hne).symm.trans hu) hs
  case half =>
    intro e
    obtain ⟨b, h1, h2⟩ := h.half e
    refine ⟨b, ?_, h2⟩
    rw [htrail]
    by_cases hed : e = c.dev
    · subst hed
      rw [if_pos rfl]
      intro x hx
      rcases mem_cons.1 hx with rfl | hx
      · exact h2 _ hlisted
      · exact h1 x hx
    · rw [if_neg hed]
      exact h1

theorem Fits.listed (h : Fits s g) (ht : s.call t = none) (hd : c.stage ≠ .driver) (hid : c.req.id = s.nextRequest)
    (hb : c.stage ≠ .blocked → s.requests c.dev = []) (hhalf : ∀ y ∈ s.requests c.dev, y.idx.msb = c.req.idx.msb) :
    Fits ({ s with
      requests := update s.requests c.dev (listInsertSort Request.idx c.req (s.requests c.dev))
      nextRequest := s.nextRequest + 1 }.setCall t (some c)) g := by
  have hrest : ∀ u c', s.call u = some c' → u ≠ t := fun u c' hu e => by
    rw [e, ht] at hu
    cases hu
  have hback : ∀ e, update s.requests c.dev (listInsertSort Request.idx c.req (s.requests c.dev)) e = [] → s.requests e = [] := by
    intro e he
    by_cases hed : e = c.dev
    · subst hed
      rw [update_self] at he
      have hm : c.req ∈ listInsertSort Request.idx c.req (s.requests c.dev) := mem_listInsertSort.2 (.inl rfl)
      rw [he] at hm
      cases hm
    · rwa [update_of_ne hed] at he
  refine ⟨h.nodup, fun i hm => Nat.lt_succ_of_lt (h.old i hm), fun u c' hu => ?_, fun i hlt => ?_, fun e he => h.empty e (hback e he),
    h.trail, fun u c' hu hs => ?_, fun e => ?_⟩
  · by_cases hut : u = t
    · subst hut
      rw [setCall_call] at hu
      cases hu
      refine ⟨fun hm => ?_, fun e => absurd e hd⟩
      have h1 := h.old _ hm
      omega
    · exact h.entered u c' ((setCall_other hut).symm.trans hu)
  · rcases Nat.lt_succ_iff_lt_or_eq.1 hlt with hlt | rfl
    · rcases h.all i hlt with hm | ⟨u, c', hu, he⟩
      · exact .inl hm
      · exact .inr ⟨u, c', (setCall_other (hrest u c' hu)).trans hu, he⟩
    · exact .inr ⟨t, c, setCall_call, hid⟩
  · by_cases hut : u = t
    · subst hut
      rw [setCall_call] at hu
      cases hu
      rw [h.empty _ (hb hs)]
      exact fun _ hx => nomatch hx
    · exact h.ahead u c' ((setCall_other hut).symm.trans hu) hs
  · by_cases hed : e = c.dev
    · subst hed
      show ∃ b : Bool, _ ∧ ∀ x ∈ update s.requests c.dev _ c.dev, x.idx.msb = b
      rw [update_self]
      by_cases hnil : s.requests c.dev = []
      · refine ⟨c.req.idx.msb, fun x hx => ?_, fun x hx => ?_⟩
        · rw [h.empty _ hnil] at hx
          cases hx
        · rw [mem_listInsertSort, hnil] at hx
          rcases hx with rfl | hx
          · rfl
          · cases hx
      · obtain ⟨b, h1, h2⟩ := h.half c.dev
        obtain ⟨y, hy⟩ := exists_mem_of_ne_nil _ hnil
        have hcb : c.req.idx.msb = b := (hhalf y hy).symm.trans (h2 y hy)
        refine ⟨b, h1, fun x hx => ?_⟩
        rcases mem_listInsertSort.1 hx with rfl | hx
        · exact hcb
        · exact h2 x hx
    · obtain ⟨b, h1, h2⟩ := h.half e
      refine ⟨b, h1, ?_⟩
      show ∀ x ∈ update s.requests c.dev _ e, x.idx.msb = b
      rw [update_of_ne hed]
      exact h2

theorem Fits.request (h : Fits s g) (hi : Inv s) (ht : s.call t = none)
    (hhalf : ∀ y ∈ s.requests ((dev d).parent.getD d), y.idx.msb = (idx + (dev d).start).msb) :
    Fits (deviceRequest dev s t d idx) (after g s (.request t d idx) (deviceRequest dev s t d idx)) := by
  have hinv : Inv (deviceRequest dev s t d idx) := hi.request ht
  have hafter : after g s (.request t d idx) (deviceRequest dev s t d idx) =
      if (newCall dev s t d idx).stage = .driver then g.enter (newCall dev s t d idx) else g := by
    unfold after
    dsimp only
    rw [deviceRequest_call]
  rw [hafter]
  by_cases hd : (newCall dev s t d idx).stage = .driver
  · -- as if it were listed, woken and let in
    rw [if_pos hd]
    have hnil := newCall_active.1 (show (newCall dev s t d idx).stage ≠ .blocked by rw [hd]; exact nofun)
    have h1 := h.listed (c := { newCall dev s t d idx with stage := .woken eok }) ht nofun rfl (fun _ => hnil) hhalf
    have hsame : ∀ (s0 : State) (c0 : Call) (i : Stage), c0.stage = .driver →
        (s0.setCall t (some { c0 with stage := i })).setCall t (some { c0 with stage := .driver }) = s0.setCall t (some c0) := by
      intro s0 c0 i hc0
      unfold State.setCall
      rw [update_idem, ← hc0]
    have h2 := h1.enter (t := t) (c := { newCall dev s t d idx with stage := .woken eok })
      (by dsimp only; rw [hsame _ _ _ hd]; exact hinv) setCall_call nofun nofun
    rw [hsame _ _ _ hd] at h2
    exact h2
  · rw [if_neg hd]
    exact h.listed ht hd rfl newCall_active.1 hhalf

theorem Fits.finish (h : Fits s g) (hi : Inv s) (ht : s.call t = some c) (hc : c.stage = .driver) (hf : Finished s s' t c r) :
    Fits s' (after g s (.finish t r) s') := by
  have hafter : after g s (.finish t r) s' = if s'.up c.dev = s.up c.dev then g else g.turn c.dev := by
    unfold after
    dsimp only
    rw [ht]
  have hentered : (after g s (.finish t r) s').entered = g.entered := by
    rw [hafter]
    split <;> rfl
  have htrail : ∀ e, (after g s (.finish t r) s').trail e = [] ∨ ((after g s (.finish t r) s').trail e = g.trail e ∧ s'.up e = s.up e) := by
    intro e
    rw [hafter]
    by_cases hup : s'.up c.dev = s.up c.dev
    · rw [if_pos hup]
      by_cases he : e = c.dev
      · exact .inr ⟨rfl, he ▸ hup⟩
      · exact .inr ⟨rfl, hf.up e he⟩
    · rw [if_neg hup]
      by_cases he : e = c.dev
      · subst he
        exact .inl (update_self ..)
      · exact .inr ⟨update_of_ne he .., hf.up e he⟩
  constructor
  case nodup =>
    rw [hentered]
    exact h.nodup
  case old =>
    rw [hentered, hf.next]
    exact h.old
  case entered =>
    intro v c' hv
    obtain ⟨-, c0, h0, -, hr, hs⟩ := hf.call hv
    rw [hentered, hr, h.entered v c0 h0]
    rcases hs with rfl | ⟨-, h1, h2⟩
    · exact .rfl
    · rw [h1, h2]
      exact ⟨nofun, nofun⟩
  case all =>
    intro i hlt
    rw [hentered]
    rw [hf.next] at hlt
    rcases h.all i hlt with hm | ⟨v, c0, hv, he⟩
    · exact .inl hm
    · by_cases hvt : v = t
      · subst hvt
        cases ht.symm.trans hv
        exact .inl (he ▸ (h.entered v _ hv).2 hc)
      · obtain ⟨j, hj, -⟩ := hf.kept hvt hv
        exact .inr ⟨v, _, hj, he⟩
  case empty =>
    intro e he
    rcases htrail e with h0 | ⟨h0, hup⟩
    · exact h0
    · rw [h0]
      by_cases hed : e = c.dev
      · subst hed
        rcases hf.woken with ⟨-, hne, -⟩ | ⟨u, y, hut, hu, -, -, -⟩
        · exact absurd hup hne
        · have hm := (hf.requests c.dev y).2 ⟨hi.listed u _ hu, fun e => hut (hi.own u t _ c hu ht e)⟩
          rw [he] at hm
          cases hm
      · refine h.empty e (eq_nil_iff_forall_not_mem.2 fun x hx => ?_)
        have hm := (hf.requests e x).2 ⟨hx, fun e1 => hed (hi.unique ht hx e1).1⟩
        rw [he] at hm
        cases hm
  case trail =>
    intro e
    rcases htrail e with h0 | ⟨h0, hup⟩
    · rw [h0]
      exact .nil
    · rw [h0, hup]
      exact h.trail e
  case ahead =>
    intro v c' hv hs x hx
    rcases htrail c'.dev with h0 | ⟨h0, hup⟩
    · rw [h0] at hx
      cases hx
    · rw [h0] at hx
      rw [hup]
      obtain ⟨hvt, c0, hv0, hd, hr, hs0⟩ := hf.call hv
      rcases hs0 with rfl | ⟨e, hb, -⟩
      · exact h.ahead v _ hv0 hs x hx
      · -- the task just woken: its request lies ahead of the one that was served
        have hdev : c'.dev = c.dev := hd.trans e
        rw [hdev] at hx hup ⊢
        rw [hr]
        refine (h.ahead t c ht (by rw [hc]; exact nofun) x hx).trans ?_
        rcases hf.woken with ⟨-, hne, -⟩ | ⟨u, y, -, hu, -, ho, hahead⟩
        · exact absurd hup hne
        · by_cases hvu : v = u
          · subst hvu
            cases hv0.symm.trans hu
            exact hahead hup
          · have h1 := (ho v hvt hvu).symm.trans hv
            rw [hv0] at h1
            cases h1
            exact absurd hb hs
  case half =>
    intro e
    obtain ⟨b, h1, h2⟩ := h.half e
    refine ⟨b, fun x hx => ?_, fun x hx => h2 x ((hf.requests e x).1 hx).1⟩
    rcases htrail e with h0 | ⟨h0, -⟩
    · rw [h0] at hx
      cases hx
    · rw [h0] at hx
      exact h1 x hx

/-! ## Every run -/

theorem start_inv (h : (device dev).start s) : Inv s ∧ Fits s ⟨[], fun _ => []⟩ := by
  obtain ⟨hr, -, hc, hn⟩ := h
  have hmem : ∀ d x, x ∉ s.requests d := fun d x hx => by
    rw [hr] at hx
    cases hx
  have hnone : ∀ u c', s.call u ≠ some c' := fun u c' hu => by
    rw [hc] at hu
    cases hu
  refine ⟨⟨fun d => ?_, fun d x hx => absurd hx (hmem d x), fun d => ?_, fun u c' hu => absurd hu (hnone u c'),
    fun u c' hu => absurd hu (hnone u c'), fun d x hx => absurd hx (hmem d x), fun u _ c' _ hu => absurd hu (hnone u c'),
    fun u _ c' _ hu => absurd hu (hnone u c'), fun d hd => absurd (hr d) hd, fun u c' _ hu => absurd hu (hnone u c')⟩,
    ⟨.nil, nofun, fun u c' hu => absurd hu (hnone u c'), fun i hi => ?_, fun _ _ => rfl, fun _ => .nil,
      fun u c' hu => absurd hu (hnone u c'), fun d => ⟨true, nofun, fun x hx => absurd hx (hmem d x)⟩⟩⟩
  · rw [hr]
    exact .nil
  · rw [hr]
    exact .nil
  · rw [hn] at hi
    exact absurd hi (Nat.not_lt_zero i)

theorem step_inv {a : Act} (hi : Inv s) (h : Fits s g) (ha : Regular dev (s, g) a) (he : (device dev).enabled s a) :
    ∃ s', (device dev).step s a = .ok s' ∧ Inv s' ∧ Fits s' (after g s a s') := by
  cases a with
  | request t d idx => exact ⟨_, rfl, hi.request he, h.request hi he ha⟩
  | resume t =>
    obtain ⟨c, i, ht, hs⟩ := he
    obtain ⟨h1, h2⟩ := hi.resume ht hs
    refine ⟨s.setCall t (some { c with stage := .driver }), ?_, h2, ?_⟩
    · show (match s.call t with
        | some c => resume s t c
        | none => .ok s) = _
      rw [ht]
      exact h1
    · have hafter : after g s (.resume t) (s.setCall t (some { c with stage := .driver })) = g.enter c := by
        unfold after
        dsimp only
        rw [setCall_call]
        rfl
      rw [hafter]
      exact h.enter h2 ht (by rw [hs]; exact nofun) (by rw [hs]; exact nofun)
  | finish t r =>
    obtain ⟨c, ht, hc⟩ := he
    have hb : c.stage ≠ .blocked := by
      rw [hc]
      exact nofun
    obtain ⟨s', h1, hf⟩ := hi.finish ht hb r
    refine ⟨s', ?_, hf.inv hi ht hb, h.finish hi ht hc hf⟩
    show (match s.call t with
      | some c => finish s t c r
      | none => .ok s) = _
    rw [ht]
    exact h1
  | stray t i => exact ha.elim

theorem reach_inv {x : State × History} (h : (served dev).Reach (Regular dev) x) : Inv x.1 ∧ Fits x.1 x.2 :=
  h.inv (I := fun x => Inv x.1 ∧ Fits x.1 x.2) (fun x hs => by
    obtain ⟨h1, h2⟩ := hs
    have h3 := start_inv h1
    rw [← h2] at h3
    exact h3) fun x a y hi ha hst => by
    obtain ⟨⟨he, hs⟩, hg⟩ := Machine.record_steps.1 hst
    obtain ⟨s', hs', h1, h2⟩ := step_inv hi.1 hi.2 ha he
    cases hs.symm.trans hs'
    rw [hg]
    exact ⟨h1, h2⟩

def WakesOne (s s' : State) (t d : Nat) : Prop :=
  ∃ u c, s.call u = some c ∧ c.dev = d ∧ c.stage = .blocked ∧ s'.call u = some { c with stage := .woken eok } ∧
    ∀ v, v ≠ t → v ≠ u → s'.call v = s.call v

theorem toInt_le_of_msb {x y : BitVec 32} (h : x.msb = y.msb) : x.toInt ≤ y.toInt ↔ x.toNat ≤ y.toNat := by
  rw [BitVec.toInt_eq_msb_cond, BitVec.toInt_eq_msb_cond, h]
  split <;> omega

/-- In every run in which no task is woken but in its turn and the sector numbers queued at once are of the same half:
one request of a device is in service, and one is if there is any; the driver is called once for each request; its
result is what the caller gets, and one of the other tasks is woken if there are any; the sector numbers
since the last change of direction do not turn back; and no assertion fails. -/
theorem requests_in_turn {x : State × History} (h : (served dev).Reach (Regular dev) x) :
    (∀ t u c c', x.1.call t = some c → x.1.call u = some c' → c.dev = c'.dev → c.stage ≠ .blocked → c'.stage ≠ .blocked → t = u) ∧
    (∀ d, x.1.requests d ≠ [] → ∃ t c, x.1.call t = some c ∧ c.dev = d ∧ c.stage ≠ .blocked) ∧
    (x.2.entered.Nodup ∧ (∀ t c, x.1.call t = some c → (c.req.id ∈ x.2.entered ↔ c.stage = .driver)) ∧
      ∀ i < x.1.nextRequest, i ∈ x.2.entered ∨ ∃ t c, x.1.call t = some c ∧ c.req.id = i) ∧
    (∀ t c r s', x.1.call t = some c → (device dev).Steps x.1 (.finish t r) s' →
      s'.ret t = some r ∧ s'.call t = none ∧ (s'.requests c.dev ≠ [] → WakesOne x.1 s' t c.dev)) ∧
    (∀ d, (x.2.trail d).Pairwise fun y z => if x.1.up d then z.toNat ≤ y.toNat else y.toNat ≤ z.toNat) ∧
    ∀ a e, (device dev).enabled x.1 a → Regular dev x a → (device dev).step x.1 a ≠ .error e := by
  obtain ⟨hi, hf⟩ := reach_inv h
  refine ⟨hi.one, hi.active, ⟨hf.nodup, hf.entered, hf.all⟩, ?_, fun d => ?_, fun a e he ha hs => ?_⟩
  · rintro t c r s' ht ⟨⟨c', ht', hc⟩, hs⟩
    cases ht.symm.trans ht'
    obtain ⟨s1, h1, hfin⟩ := hi.finish ht (by rw [hc]; exact nofun) r
    have hs1 : finish x.1 t c r = .ok s' := by
      have hs : (match x.1.call t with
        | some c => finish x.1 t c r
        | none => .ok x.1) = .ok s' := hs
      rw [ht] at hs
      exact hs
    cases h1.symm.trans hs1
    refine ⟨hfin.ret, hfin.self, fun hne => ?_⟩
    rcases hfin.woken with ⟨hnil, -, -⟩ | ⟨u, y, -, hu, hu', ho, -⟩
    · exact absurd hnil hne
    · exact ⟨u, _, hu, rfl, rfl, hu', ho⟩
  · obtain ⟨b, hb, -⟩ := hf.half d
    refine (hf.trail d).imp_of_mem fun {y z} hy hz hyz => ?_
    have hm : y.msb = z.msb := (hb y hy).trans (hb z hz).symm
    cases hup : x.1.up d with
    | true =>
      rw [hup] at hyz
      exact (toInt_le_of_msb hm.symm).1 hyz
    | false =>
      rw [hup] at hyz
      exact (toInt_le_of_msb hm).1 hyz
  · obtain ⟨s', h1, -⟩ := step_inv hi hf ha he
    cases h1.symm.trans hs

/-! ## Requests out of turn -/

def disk (d : Nat) : Device := if d = 0 then ⟨none, 0⟩ else ⟨some 0, 2048⟩

def init : State := ⟨fun _ => [], 0, fun _ => true, fun _ => none, fun _ => none⟩

theorem init_reach {P : State × History → Act → Prop} : (served disk).Reach P (init, ⟨[], fun _ => []⟩) :=
  ⟨_, ⟨⟨fun _ => rfl, fun _ => rfl, fun _ => rfl, rfl⟩, rfl⟩, .refl _⟩

/-- Going up, sector 2^31 is served before sector 1, since it is negative as `int`. A task that is woken while it is
queued enters the driver beside the request in service. -/
theorem served_out_of_turn :
    (∃ x, (served disk).Reach (fun _ a => ∀ t i, a ≠ .stray t i) x ∧
      ¬ (x.2.trail 0).Pairwise fun y z => if x.1.up 0 then z.toNat ≤ y.toNat else y.toNat ≤ z.toNat) ∧
    ∃ x, (served disk).Reach Machine.Any x ∧ ∃ t u c c', t ≠ u ∧ x.1.call t = some c ∧ x.1.call u = some c' ∧ c.dev = c'.dev ∧
      c.stage = .driver ∧ c'.stage = .driver := by
  constructor
  · have h1 := Machine.Reach.next (P := fun _ a => ∀ t i, a ≠ .stray t i) init_reach (.request 0 0 0x80000000) nofun rfl rfl
    have h2 := Machine.Reach.next h1 (.request 1 0 1) nofun rfl rfl
    have h3 := Machine.Reach.next h2 (.finish 0 0) nofun ⟨_, rfl, rfl⟩ rfl
    have h4 := Machine.Reach.next h3 (.resume 1) nofun ⟨_, _, rfl, rfl⟩ rfl
    refine ⟨_, h4, fun hp => ?_⟩
    have h5 := (List.pairwise_cons.1 hp).1 0x80000000 (List.mem_cons_self ..)
    revert h5
    decide
  · have h1 := Machine.Reach.next (P := Machine.Any) init_reach (.request 0 0 5) trivial rfl rfl
    have h2 := Machine.Reach.next h1 (.request 1 0 6) trivial rfl rfl
    have h3 := Machine.Reach.next h2 (.stray 1 eok) trivial ⟨_, rfl, rfl⟩ rfl
    have h4 := Machine.Reach.next h3 (.resume 1) trivial ⟨_, _, rfl, rfl⟩ rfl
    exact ⟨_, h4, 0, 1, _, _, Nat.zero_ne_one, rfl, rfl, rfl, rfl, rfl⟩

/-- The disk and two partitions: the third request is served first of those that waited. -/
theorem requests_in_turn_partitions : ∃ x, (served disk).Reach (Regular disk) x ∧ x.2.entered = [2, 0] ∧ x.2.entered.Nodup := by
  have h1 := Machine.Reach.next (P := Regular disk) init_reach (.request 0 1 5) (by decide) rfl rfl
  have h2 := Machine.Reach.next h1 (.request 1 2 9) (by decide) rfl rfl
  have h3 := Machine.Reach.next h2 (.request 2 1 7) (by decide) rfl rfl
  have h4 := Machine.Reach.next h3 (.finish 0 0) trivial ⟨_, rfl, rfl⟩ rfl
  have h5 := Machine.Reach.next h4 (.resume 2) trivial ⟨_, _, rfl, rfl⟩ rfl
  exact ⟨_, h5, rfl, (requests_in_turn h5).2.2.1.1⟩

end Onix.Sched.Requests
