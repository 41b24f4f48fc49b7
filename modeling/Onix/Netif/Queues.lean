/-
The packet queues in every run: what one step does to them, the invariant, and the turns a thread takes until
a packet has left its queue.
-/
import Onix.Netif.Model

namespace Onix.Netif

open List Onix.Lib

/-! ## Calls -/

/-- The packets `netif_input` drops before it puts one more into the queue. -/
def excess (d : Side) (q : Queue) : Nat :=
  match d with
  | .rx => q.pbufs.length + 1 - netifRxPbufSize
  | .tx => 0

def Queue.drop (q : Queue) (k : Nat) : Queue :=
  { q with pbufs := q.pbufs.drop k, size := q.size - k, left := q.left ++ (q.pbufs.take k).map fun p => (p, .dropped) }

def Queue.put (d : Side) (q : Queue) (p : Nat) : Queue :=
  let q := q.drop (excess d q)
  { q with pbufs := q.pbufs ++ [p], size := q.size + 1, arrived := q.arrived ++ [p] }

def Queue.taken (q : Queue) : Queue :=
  { q with pbufs := q.pbufs.tail, size := q.size - 1, left := q.left ++ (q.pbufs.take 1).map fun p => (p, .handled) }

/-- What holds of every queue at the places where the processor may change hands. -/
structure Queue.Sound (d : Side) (q : Queue) : Prop where
  size : q.size = q.pbufs.length
  free : q.held = false
  order : q.arrived = q.left.map Prod.fst ++ q.pbufs
  room : d = .rx → q.pbufs.length ≤ netifRxPbufSize
  kept : d = .tx → ∀ x ∈ q.left, x.2 = .handled

variable {s t : Sys} {d e : Side} {q : Queue} {i j p : Nat}
variable {a : Act}

theorem makeRoom_eq : ∀ (n : Nat) (q : Queue), q.pbufs.length = n → q.size = n →
    q.makeRoom n = .ok (q.drop (n + 1 - netifRxPbufSize))
  | 0, q, _, hs => by
    have hno : ¬ (netifRxPbufSize : Int) ≤ q.size := by
      rw [hs]
      decide
    unfold Queue.makeRoom Queue.drop
    rw [if_neg hno]
    simp [netifRxPbufSize]
  | n + 1, q, hl, hs => by
    unfold Queue.makeRoom
    by_cases hfull : (netifRxPbufSize : Int) ≤ q.size
    · rw [if_pos hfull]
      obtain ⟨x, l, hx⟩ := exists_cons_of_length_eq_add_one hl
      have hpop : q.listPopback .dropped = .ok (x, { q with pbufs := l, size := q.size - 1, left := q.left ++ [(x, .dropped)] }) := by
        unfold Queue.listPopback
        rw [hx]
      have hlen : l.length = n := by simpa [hx] using hl
      have hk : n + 1 + 1 - netifRxPbufSize = n + 1 - netifRxPbufSize + 1 := by
        omega
      rw [hpop]
      have hsize : q.size - 1 = (n : Int) := by
        omega
      refine (makeRoom_eq n _ hlen hsize).trans ?_
      rw [hk]
      unfold Queue.drop
      dsimp only
      rw [hx, drop_succ_cons, take_succ_cons, map_cons, append_assoc, singleton_append]
      congr 2
      omega
    · have hk : n + 1 + 1 - netifRxPbufSize = 0 := by
        omega
      rw [if_neg hfull, hk]
      unfold Queue.drop
      simp

theorem Queue.Sound.put (h : q.Sound d) : (Queue.put d q p).Sound d := by
  have hle : excess d q ≤ q.pbufs.length := by
    unfold excess
    cases d with
    | rx =>
      unfold netifRxPbufSize at *
      dsimp only
      omega
    | tx => exact Nat.zero_le _
  refine ⟨?_, h.free, ?_, ?_, ?_⟩
  · show q.size - excess d q + 1 = ((q.pbufs.drop (excess d q) ++ [p]).length : Int)
    rw [length_append, length_drop, h.size, length_singleton]
    omega
  · show q.arrived ++ [p] = (q.left ++ _).map Prod.fst ++ (q.pbufs.drop (excess d q) ++ [p])
    rw [map_append, map_map]
    have hid : (Prod.fst ∘ fun p : Nat => (p, How.dropped)) = id := rfl
    rw [hid, map_id, append_assoc, ← append_assoc (take _ _), take_append_drop, h.order,
      append_assoc]
  · rintro rfl
    show (q.pbufs.drop (q.pbufs.length + 1 - netifRxPbufSize) ++ [p]).length ≤ netifRxPbufSize
    rw [length_append, length_drop, length_singleton]
    unfold netifRxPbufSize at *
    omega
  · rintro rfl x hx
    have hx : x ∈ q.left ++ (q.pbufs.take 0).map fun p => (p, How.dropped) := hx
    rw [take_zero, map_nil, append_nil] at hx
    exact h.kept rfl x hx

theorem Queue.Sound.taken (h : q.Sound d) (hne : q.pbufs ≠ []) : q.taken.Sound d := by
  obtain ⟨x, l, hx⟩ := exists_cons_of_ne_nil hne
  refine ⟨?_, h.free, ?_, fun hd => ?_, fun hd y hy => ?_⟩
  · show q.size - 1 = (q.pbufs.tail.length : Int)
    rw [h.size, hx, length_cons, tail_cons]
    omega
  · show q.arrived = (q.left ++ _).map Prod.fst ++ q.pbufs.tail
    rw [h.order, hx]
    simp
  · have := h.room hd
    show q.pbufs.tail.length ≤ netifRxPbufSize
    rw [length_tail]
    omega
  · have hy : y ∈ q.left ++ (q.pbufs.take 1).map fun p => (p, How.handled) := hy
    rcases mem_append.1 hy with hy | hy
    · exact h.kept hd y hy
    · obtain ⟨z, -, rfl⟩ := mem_map.1 hy
      rfl

namespace Sys

theorem setQueue_self (s : Sys) (d : Side) (i : Nat) (q : Queue) : (s.setQueue d i q).queue d i = q := if_pos ⟨rfl, rfl⟩

theorem setQueue_ne {s : Sys} (q : Queue) (h : ¬ (e = d ∧ j = i)) : (s.setQueue d i q).queue e j = s.queue e j := if_neg h

theorem setThread_self (s : Sys) (d : Side) (f : Phase) : (s.setThread d f).thread d = f := if_pos rfl

theorem setThread_ne {s : Sys} (f : Phase) (h : e ≠ d) : (s.setThread d f).thread e = s.thread e := if_neg h

end Sys

/-- A packet comes in: the receive queue keeps the newest eight, and the thread of that side is woken. -/
def Sys.arrive (s : Sys) (d : Side) (i p : Nat) : Sys := (s.wake d).setQueue d i (Queue.put d (s.queue d i) p)

theorem Queue.Sound.unlocked (h : q.Sound d) : { q with held := false } = q := by
  have h1 := h.free
  cases q
  subst h1
  rfl

theorem netifInput_eq (h : (s.queue .rx i).Sound .rx) (hp : p ∉ (s.queue .rx i).pbufs) :
    s.netifInput i p = .ok (s.arrive .rx i p) := by
  have hroom := h.put (p := p) |>.room rfl
  have hsize := h.put (p := p) |>.size
  have hfree := h.free
  generalize hq : s.queue .rx i = q at *
  have hk : excess .rx q = q.pbufs.length + 1 - netifRxPbufSize := rfl
  have hmem : p ∉ (Queue.drop { q with held := true } (excess .rx q)).pbufs := fun hm => hp (mem_of_mem_drop hm)
  have hfit : ¬ (netifRxPbufSize : Int) < (Queue.put .rx q p).size := by
    omega
  unfold Sys.netifInput
  rw [hq]
  unfold Queue.lockAcquire
  rw [hfree, if_neg (by decide)]
  show (Queue.makeRoom q.pbufs.length { q with held := true } >>= _) = _
  rw [makeRoom_eq _ { q with held := true } rfl h.size, ← hk]
  show (Queue.listPush (Queue.drop { q with held := true } (excess .rx q)) p >>= _) = _
  unfold Queue.listPush
  rw [if_neg hmem]
  show ((if (netifRxPbufSize : Int) < (Queue.put .rx q p).size then _ else _) : Except Fault Sys) = _
  rw [if_neg hfit]
  unfold Sys.arrive
  rw [hq]
  have hun := h.put (p := p) |>.unlocked
  rw [← hun]
  rfl

theorem netifOutput_eq (h : (s.queue .tx i).Sound .tx) (hp : p ∉ (s.queue .tx i).pbufs) :
    s.netifOutput i p = .ok (s.arrive .tx i p) := by
  have hfree := h.free
  have hun := h.put (p := p) |>.unlocked
  unfold Sys.arrive
  generalize hq : s.queue .tx i = q at *
  unfold Sys.netifOutput
  rw [hq]
  unfold Queue.lockAcquire
  rw [hfree, if_neg (by decide)]
  show (Queue.listPush { q with held := true } p >>= _) = _
  unfold Queue.listPush
  rw [if_neg hp, ← hun]
  have h0 : q.drop 0 = q := by
    unfold Queue.drop
    simp
  have hput : Queue.put .tx q p = { q with pbufs := q.pbufs ++ [p], size := q.size + 1, arrived := q.arrived ++ [p] } := by
    show (let q := q.drop 0; { q with pbufs := q.pbufs ++ [p], size := q.size + 1, arrived := q.arrived ++ [p] }) = _
    rw [h0]
  rw [hput]
  rfl

theorem scan_spec (hs : ∀ i, (s.queue d i).Sound d) (count : Nat) : ∀ l,
    (∃ pre i rest p q, l = pre ++ i :: rest ∧ (∀ j ∈ pre, (s.queue d j).pbufs = []) ∧ (s.queue d i).pbufs = p :: q ∧
      s.scan d count l = .ok ((s.setQueue d i (s.queue d i).taken).setThread d (.handling i p rest count))) ∨
    ((∀ j ∈ l, (s.queue d j).pbufs = []) ∧ s.scan d count l = .ok (s.setThread d (if count = 0 then .waiting else .top)))
  | [] => .inr ⟨(fun _ h => nomatch h), rfl⟩
  | i :: rest => by
    unfold Sys.scan
    cases hq : (s.queue d i).pbufs with
    | nil =>
      rcases scan_spec hs count rest with ⟨pre, j, rest', p, q, hl, hpre, hj, hok⟩ | ⟨hl, hok⟩
      · refine .inl ⟨i :: pre, j, rest', p, q, by rw [hl]; rfl, ?_, hj, hok⟩
        rintro k (_ | ⟨_, hk⟩)
        · exact hq
        · exact hpre k hk
      · refine .inr ⟨?_, hok⟩
        rintro k (_ | ⟨_, hk⟩)
        · exact hq
        · exact hl k hk
    | cons p q =>
      refine .inl ⟨[], i, rest, p, q, rfl, (fun _ h => nomatch h), hq, ?_⟩
      have htake : (s.queue d i).taken = { s.queue d i with
          pbufs := q, size := (s.queue d i).size - 1, left := (s.queue d i).left ++ [(p, .handled)], held := false } := by
        unfold Queue.taken
        rw [hq, ← (hs i).free]
        rfl
      rw [if_neg (by simp)]
      unfold Queue.lockAcquire
      rw [(hs i).free, if_neg (by decide)]
      unfold Queue.listPopback
      rw [hq, htake]
      rfl

/-! ## The invariant -/

/-- At the places where the processor may change hands: every queue is sound, a thread that waits has
nothing to do, and one in a handler has the rest of its round before it. -/
structure Served (s : Sys) : Prop where
  queue : ∀ d i, (s.queue d i).Sound d
  asleep : ∀ d, s.thread d = .waiting → ∀ i ∈ s.ifs, (s.queue d i).pbufs = []
  round : ∀ d i p rest count, s.thread d = .handling i p rest count → rest <:+ s.ifs

def Side.put (d : Side) (i p : Nat) : Act :=
  match d with
  | .rx => .input i p
  | .tx => .output i p

/-- What a step does to the queues: a call puts its packet in, a thread may take the oldest packet of one
queue of its side to its handler, and nothing else changes. -/
def Moved (s : Sys) (a : Act) (t : Sys) : Prop :=
  ∀ d i, (∀ p, a = d.put i p → t.queue d i = (s.queue d i).put d p) ∧
    ((∀ p, a ≠ d.put i p) → t.queue d i = s.queue d i ∨ (a = .run d ∧ t.queue d i = (s.queue d i).taken ∧
      ∃ p q rest count, (s.queue d i).pbufs = p :: q ∧ t.thread d = .handling i p rest count))

theorem Sys.wake_queue (s : Sys) (d : Side) : (s.wake d).queue = s.queue := by
  unfold Sys.wake
  split <;> rfl

theorem Sys.wake_ifs (s : Sys) (d : Side) : (s.wake d).ifs = s.ifs := by
  unfold Sys.wake
  split <;> rfl

theorem Sys.wake_turns (s : Sys) (d : Side) : (s.wake d).turns = s.turns := by
  unfold Sys.wake
  split <;> rfl

theorem Sys.wake_thread (s : Sys) (d e : Side) : (s.wake d).thread e = s.thread e ∨
    (e = d ∧ s.thread d = .waiting ∧ (s.wake d).thread e = .top) := by
  unfold Sys.wake
  split
  · rename_i hw
    by_cases he : e = d
    · subst he
      exact .inr ⟨rfl, hw, setThread_self ..⟩
    · exact .inl (setThread_ne _ he)
  · exact .inl rfl

theorem Served.arrive (h : Served s) : Served (s.arrive d i p) := by
  constructor
  · intro e j
    unfold Sys.arrive
    by_cases he : e = d ∧ j = i
    · obtain ⟨rfl, rfl⟩ := he
      rw [Sys.setQueue_self]
      exact (h.queue e j).put
    · rw [Sys.setQueue_ne _ he, Sys.wake_queue]
      exact h.queue e j
  · intro e hw j hj
    have hw : (s.wake d).thread e = .waiting := hw
    have hj : j ∈ (s.wake d).ifs := hj
    rw [Sys.wake_ifs] at hj
    rcases s.wake_thread d e with hsame | ⟨-, -, htop⟩
    · have hne : e ≠ d := by
        rintro rfl
        unfold Sys.wake at hw
        split at hw
        · rw [Sys.setThread_self] at hw
          cases hw
        · exact ‹¬ _› hw
      rw [hsame] at hw
      unfold Sys.arrive
      rw [Sys.setQueue_ne _ fun he => hne he.1, Sys.wake_queue]
      exact h.asleep e hw j hj
    · rw [htop] at hw
      cases hw
  · intro e j p' rest count hr
    have hr : (s.wake d).thread e = .handling j p' rest count := hr
    show rest <:+ (s.wake d).ifs
    rw [Sys.wake_ifs]
    rcases s.wake_thread d e with hsame | ⟨-, -, htop⟩
    · rw [hsame] at hr
      exact h.round e j p' rest count hr
    · rw [htop] at hr
      cases hr

theorem Side.put_inj {k : Nat} {p' : Nat} (h : d.put i p = e.put k p') : d = e ∧ i = k ∧ p = p' := by
  cases d <;> cases e <;> cases h <;> exact ⟨rfl, rfl, rfl⟩

theorem moved_arrive (s : Sys) (d : Side) (i p : Nat) : Moved s (d.put i p) (s.arrive d i p) := by
  intro e j
  constructor
  · intro p' hp
    obtain ⟨rfl, rfl, rfl⟩ := Side.put_inj hp
    exact Sys.setQueue_self ..
  · intro hno
    left
    unfold Sys.arrive
    rw [Sys.setQueue_ne _ (by rintro ⟨rfl, rfl⟩; exact hno p rfl), Sys.wake_queue]

def Sys.turn (s : Sys) (d : Side) : Sys := { s with turns := fun e => if e = d then s.turns e + 1 else s.turns e }

theorem turn_spec (h : Served s) {count : Nat} {l : List Nat} (hsuf : l <:+ s.ifs) (hl : count = 0 → l = s.ifs) :
    ∃ t, (s.turn d).scan d count l = .ok t ∧ Served t ∧ Moved s (.run d) t := by
  have hne : ∀ e, e ≠ d → s.thread e = .waiting → ∀ i ∈ s.ifs, (s.queue e i).pbufs = [] := fun e _ => h.asleep e
  have hrun : ∀ (e : Side) (i p : Nat), Act.run d ≠ e.put i p := by
    intro e i p
    cases e <;> exact fun h => nomatch h
  rcases @scan_spec (s.turn d) d (fun i => h.queue d i) count l with ⟨pre, i, rest, p, q, hsplit, -, hi, hok⟩ | ⟨hemp, hok⟩
  · refine ⟨_, hok, ⟨?_, ?_, ?_⟩, fun e j => ⟨fun p' hp' => absurd hp' (hrun e j p'), fun _ => ?_⟩⟩
    · intro e j
      show (((s.turn d).setQueue d i (s.queue d i).taken).queue e j).Sound e
      by_cases he : e = d ∧ j = i
      · obtain ⟨rfl, rfl⟩ := he
        have hi : (s.queue e j).pbufs = p :: q := hi
        rw [Sys.setQueue_self]
        exact (h.queue e j).taken (by rw [hi]; exact cons_ne_nil _ _)
      · rw [Sys.setQueue_ne _ he]
        exact h.queue e j
    · intro e he j hj
      by_cases hed : e = d
      · subst hed
        rw [Sys.setThread_self] at he
        cases he
      · rw [Sys.setThread_ne _ hed] at he
        show (((s.turn d).setQueue d i (s.queue d i).taken).queue e j).pbufs = []
        rw [Sys.setQueue_ne _ fun h => hed h.1]
        exact hne e hed he j hj
    · intro e j p' rest' count' he
      by_cases hed : e = d
      · subst hed
        rw [Sys.setThread_self] at he
        cases he
        have hrest : rest <:+ l := by
          rw [hsplit]
          exact (suffix_cons i rest).trans (suffix_append pre _)
        exact hrest.trans hsuf
      · rw [Sys.setThread_ne _ hed] at he
        exact h.round e j p' rest' count' he
    · show ((s.turn d).setQueue d i (s.queue d i).taken).queue e j = s.queue e j ∨ _
      by_cases he : e = d ∧ j = i
      · obtain ⟨rfl, rfl⟩ := he
        exact .inr ⟨rfl, Sys.setQueue_self .., p, q, rest, count, hi, Sys.setThread_self ..⟩
      · exact .inl (Sys.setQueue_ne _ he)
  · refine ⟨_, hok, ⟨h.queue, ?_, ?_⟩, fun e j => ⟨fun p' hp' => absurd hp' (hrun e j p'), fun _ => .inl rfl⟩⟩
    · intro e he j hj
      by_cases hed : e = d
      · subst hed
        rw [Sys.setThread_self] at he
        by_cases hc : count = 0
        · rw [hl hc] at hemp
          exact hemp j hj
        · rw [if_neg hc] at he
          cases he
      · rw [Sys.setThread_ne _ hed] at he
        exact hne e hed he j hj
    · intro e j p rest count' he
      by_cases hed : e = d
      · subst hed
        rw [Sys.setThread_self] at he
        split at he <;> cases he
      · rw [Sys.setThread_ne _ hed] at he
        exact h.round e j p rest count' he

theorem step_spec (h : Served s) (he : enabled s a) : ∃ t, step s a = .ok t ∧ Served t ∧ Moved s a t := by
  cases a with
  | input i p => exact ⟨_, netifInput_eq (h.queue .rx i) (he.2 .rx i), h.arrive, moved_arrive s .rx i p⟩
  | output i p => exact ⟨_, netifOutput_eq (h.queue .tx i) (he.2 .tx i), h.arrive, moved_arrive s .tx i p⟩
  | run d =>
    show ∃ t, s.run d = .ok t ∧ _
    unfold Sys.run
    dsimp only
    cases hd : s.thread d with
    | top => exact turn_spec h (suffix_refl _) fun _ => rfl
    | handling i p rest count => exact turn_spec h (h.round d i p rest count hd) fun h0 => absurd h0 (Nat.succ_ne_zero count)
    | waiting => exact absurd hd he

theorem start_served (h : netif.start s) : Served s := by
  obtain ⟨hq, ht, -⟩ := h
  refine ⟨fun d i => ?_, fun d hw => ?_, fun d i p rest count hr => ?_⟩
  · rw [hq]
    exact ⟨rfl, rfl, rfl, fun _ => Nat.zero_le _, fun _ _ hx => nomatch hx⟩
  · rw [ht] at hw
    cases hw
  · rw [ht] at hr
    cases hr

theorem steps_served (h : Served s) (hs : netif.Steps s a t) : Served t ∧ Moved s a t := by
  obtain ⟨u, hok, hu⟩ := step_spec h hs.1
  cases hok.symm.trans hs.2
  exact hu

theorem reach_served (h : netif.Reach Machine.Any s) : Served s :=
  h.inv (fun _ h0 => start_served h0) fun _ _ _ hi _ hs => (steps_served hi hs).1

/-! ## Every packet gets its turn -/

/-- How many turns a thread that has the interfaces `l` left may take before it comes to `i`. -/
def ahead (ifs : List Nat) (i : Nat) (l : List Nat) : Nat :=
  if i ∈ l then l.idxOf i + 1 else l.length + ifs.length + 2

def dist (s : Sys) (d : Side) (i : Nat) : Nat :=
  match s.thread d with
  | .top => ahead s.ifs i s.ifs
  | .handling _ _ rest _ => ahead s.ifs i rest
  | .waiting => 0

def lap (s : Sys) : Nat := 2 * s.ifs.length + 2

theorem ahead_pos (ifs : List Nat) (i : Nat) (l : List Nat) : 0 < ahead ifs i l := by
  unfold ahead
  split <;> omega

theorem ahead_le {ifs l : List Nat} (i : Nat) (h : l.length ≤ ifs.length) : ahead ifs i l ≤ 2 * ifs.length + 2 := by
  unfold ahead
  split
  · have := idxOf_le_length (a := i) (l := l)
    omega
  · omega

theorem scan_ahead (hs : ∀ i, (s.queue d i).Sound d) {count : Nat} {l : List Nat} (hl : count = 0 → l = s.ifs)
    (hi : i ∈ s.ifs) (hne : (s.queue d i).pbufs ≠ []) (hok : s.scan d count l = .ok t) :
    t.queue d i = (s.queue d i).taken ∨ (t.queue d i = s.queue d i ∧ dist t d i < ahead s.ifs i l) := by
  rcases scan_spec hs count l with ⟨pre, j, rest, p, q, hsplit, hpre, -, hok'⟩ | ⟨hemp, hok'⟩
  · cases hok.symm.trans hok'
    by_cases hij : i = j
    · subst hij
      exact .inl (Sys.setQueue_self ..)
    · have hnp : i ∉ pre := fun hm => hne (hpre i hm)
      refine .inr ⟨Sys.setQueue_ne _ fun h => hij h.2, ?_⟩
      have hdist : dist ((s.setQueue d j (s.queue d j).taken).setThread d (.handling j p rest count)) d i = ahead s.ifs i rest := by
        unfold dist
        rw [Sys.setThread_self]
        rfl
      rw [hdist, hsplit]
      unfold ahead
      by_cases hr : i ∈ rest
      · rw [if_pos hr, if_pos (by simp [hr]), idxOf_append_of_notMem hnp, idxOf_cons_ne _ fun e => hij e.symm]
        omega
      · rw [if_neg hr, if_neg (by simp [hnp, hij, hr]), length_append, length_cons]
        omega
  · cases hok.symm.trans hok'
    have hil : i ∉ l := fun hm => hne (hemp i hm)
    have hc : count ≠ 0 := by
      rintro rfl
      rw [hl rfl] at hil
      exact hil hi
    refine .inr ⟨rfl, ?_⟩
    have hdist : dist (s.setThread d (if count = 0 then .waiting else .top)) d i = ahead s.ifs i s.ifs := by
      unfold dist
      rw [Sys.setThread_self, if_neg hc]
      rfl
    rw [hdist]
    unfold ahead
    rw [if_pos hi, if_neg hil]
    have := idxOf_lt_length_of_mem hi
    omega

theorem scan_frame (hs : ∀ i, (s.queue d i).Sound d) {count : Nat} {l : List Nat} (hok : s.scan d count l = .ok t) :
    t.ifs = s.ifs ∧ t.turns = s.turns ∧ ∀ e, e ≠ d → t.thread e = s.thread e := by
  rcases scan_spec hs count l with ⟨_, _, _, _, _, -, -, -, hok'⟩ | ⟨-, hok'⟩
  · cases hok.symm.trans hok'
    exact ⟨rfl, rfl, fun e he => Sys.setThread_ne _ he⟩
  · cases hok.symm.trans hok'
    exact ⟨rfl, rfl, fun e he => Sys.setThread_ne _ he⟩

def Sys.plan (s : Sys) (d : Side) : Nat × List Nat :=
  match s.thread d with
  | .top => (0, s.ifs)
  | .handling _ _ rest count => (count + 1, rest)
  | .waiting => (0, [])

theorem run_eq (hw : s.thread d ≠ .waiting) : s.run d = (s.turn d).scan d (s.plan d).1 (s.plan d).2 := by
  unfold Sys.run Sys.plan
  dsimp only
  cases hd : s.thread d with
  | top => rfl
  | handling i p rest count => rfl
  | waiting => exact absurd hd hw

theorem plan_spec (h : Served s) (hw : s.thread d ≠ .waiting) : (s.plan d).2 <:+ s.ifs ∧ ((s.plan d).1 = 0 → (s.plan d).2 = s.ifs) ∧
    dist s d i = ahead s.ifs i (s.plan d).2 := by
  unfold Sys.plan dist
  cases hd : s.thread d with
  | top => exact ⟨suffix_refl _, fun _ => rfl, rfl⟩
  | handling i p rest count => exact ⟨h.round d i p rest count hd, fun h0 => absurd h0 (Nat.succ_ne_zero count), rfl⟩
  | waiting => exact absurd hd hw

theorem steps_ifs (h : Served s) (hs : netif.Steps s a t) : t.ifs = s.ifs := by
  obtain ⟨he, hok⟩ := hs
  cases a with
  | input i p =>
    cases hok.symm.trans (netifInput_eq (h.queue .rx i) (he.2 .rx i))
    exact s.wake_ifs .rx
  | output i p =>
    cases hok.symm.trans (netifOutput_eq (h.queue .tx i) (he.2 .tx i))
    exact s.wake_ifs .tx
  | run d =>
    have hok : s.run d = .ok t := hok
    rw [run_eq he] at hok
    exact (scan_frame (s := s.turn d) (fun i => h.queue d i) hok).1

theorem steps_thread (h : Served s) (hs : netif.Steps s a t) (ha : a ≠ .run d) :
    t.turns d = s.turns d ∧ (s.thread d ≠ .waiting → t.thread d = s.thread d) := by
  obtain ⟨he, hok⟩ := hs
  have hwake : ∀ e i p, (s.arrive e i p).turns d = s.turns d ∧ (s.thread d ≠ .waiting → (s.arrive e i p).thread d = s.thread d) := by
    intro e i p
    refine ⟨congrFun (s.wake_turns e) d, fun hw => ?_⟩
    rcases s.wake_thread e d with hsame | ⟨rfl, hw', -⟩
    · exact hsame
    · exact absurd hw' hw
  cases a with
  | input i p =>
    cases hok.symm.trans (netifInput_eq (h.queue .rx i) (he.2 .rx i))
    exact hwake .rx i p
  | output i p =>
    cases hok.symm.trans (netifOutput_eq (h.queue .tx i) (he.2 .tx i))
    exact hwake .tx i p
  | run e =>
    have hne : d ≠ e := fun hde => ha (congrArg Act.run hde.symm)
    have hok : s.run e = .ok t := hok
    rw [run_eq he] at hok
    obtain ⟨-, hturns, hthread⟩ := scan_frame (s := s.turn e) (fun i => h.queue e i) hok
    refine ⟨?_, fun _ => hthread d hne⟩
    rw [hturns]
    exact if_neg hne

theorem Moved.grows (h : Moved s a t) (d : Side) (i : Nat) :
    (s.queue d i).left <+: (t.queue d i).left ∧ (s.queue d i).arrived <+: (t.queue d i).arrived := by
  obtain ⟨hput, hno⟩ := h d i
  by_cases ha : ∃ p, a = d.put i p
  · obtain ⟨p, hp⟩ := ha
    rw [hput p hp]
    exact ⟨prefix_append _ _, prefix_append _ _⟩
  · rcases hno fun p hp => ha ⟨p, hp⟩ with hsame | ⟨-, htaken, -⟩
    · rw [hsame]
      exact ⟨prefix_refl _, prefix_refl _⟩
    · rw [htaken]
      exact ⟨prefix_append _ _, prefix_refl _⟩

def gain (s : Sys) (d : Side) (i : Nat) : Nat := (s.queue d i).left.length * lap s + (lap s - dist s d i)

theorem steps_gain (h : Served s) (hs : netif.Steps s a t) (hi : i ∈ s.ifs) (hne : (s.queue d i).pbufs ≠ []) :
    gain s d i + t.turns d ≤ gain t d i + s.turns d := by
  have hw : s.thread d ≠ .waiting := fun hw => hne (h.asleep d hw i hi)
  have hlap : lap t = lap s := by
    unfold lap
    rw [steps_ifs h hs]
  unfold gain
  rw [hlap]
  by_cases ha : a = .run d
  · subst ha
    obtain ⟨he, hok⟩ := hs
    have hok : s.run d = .ok t := hok
    rw [run_eq he] at hok
    obtain ⟨hsuf, hall, hdist⟩ := @plan_spec s d i h hw
    have hle : dist s d i ≤ lap s := by
      rw [hdist]
      exact ahead_le i hsuf.length_le
    have hpos : 0 < dist s d i := by
      rw [hdist]
      exact ahead_pos _ _ _
    have hturns : t.turns d = s.turns d + 1 := by
      rw [(scan_frame (s := s.turn d) (fun i => h.queue d i) hok).2.1]
      exact if_pos rfl
    rcases scan_ahead (s := s.turn d) (fun i => h.queue d i) hall hi hne hok with htaken | ⟨hsame, hlt⟩
    · obtain ⟨p, q, hq⟩ := exists_cons_of_ne_nil hne
      have hlen : (t.queue d i).left.length = (s.queue d i).left.length + 1 := by
        rw [htaken]
        show ((s.queue d i).left ++ ((s.queue d i).pbufs.take 1).map _).length = _
        rw [hq]
        simp
      rw [hlen, Nat.succ_mul]
      omega
    · have hlen : (t.queue d i).left.length = (s.queue d i).left.length := congrArg (fun q => q.left.length) hsame
      have hlt : dist t d i < dist s d i := by
        rw [hdist]
        exact hlt
      rw [hlen]
      omega
  · obtain ⟨hturns, hthread⟩ := steps_thread h hs ha
    have hdist : dist t d i = dist s d i := by
      unfold dist
      rw [hthread hw, steps_ifs h hs]
    have hmul := Nat.mul_le_mul_right (lap s) ((steps_served h hs).2.grows d i).1.length_le
    omega

theorem Queue.Sound.nonempty (h : q.Sound d) {n : Nat} (hl : q.left.length ≤ n) (ha : n < q.arrived.length) : q.pbufs ≠ [] := by
  intro h0
  rw [h.order, h0, append_nil, length_map] at ha
  omega

theorem run_leaves {k : Nat} (h : Served s) (hr : netif.Run Machine.Any s t) (hi : i ∈ s.ifs) (hk : k < (s.queue d i).pbufs.length)
    (hturns : s.turns d + (k + 1) * lap s ≤ t.turns d) :
    ((t.queue d i).left[(s.queue d i).left.length + k]?).map Prod.fst = (s.queue d i).pbufs[k]? := by
  have harr0 : (s.queue d i).left.length + k < (s.queue d i).arrived.length := by
    rw [(h.queue d i).order, length_append, length_map]
    omega
  have hinv : Served t ∧ t.ifs = s.ifs ∧ (s.queue d i).arrived <+: (t.queue d i).arrived ∧
      ((s.queue d i).left.length + k < (t.queue d i).left.length ∨ gain s d i + t.turns d ≤ gain t d i + s.turns d) := by
    refine hr.inv (I := fun t => Served t ∧ t.ifs = s.ifs ∧ (s.queue d i).arrived <+: (t.queue d i).arrived ∧
      ((s.queue d i).left.length + k < (t.queue d i).left.length ∨ gain s d i + t.turns d ≤ gain t d i + s.turns d))
      ?_ ⟨h, rfl, prefix_refl _, .inr (Nat.le_refl _)⟩
    rintro u a v ⟨hu, hifs, harr, hcase⟩ - hst
    obtain ⟨hv, hmoved⟩ := steps_served hu hst
    obtain ⟨hleft, harr'⟩ := hmoved.grows d i
    refine ⟨hv, (steps_ifs hu hst).trans hifs, harr.trans harr', ?_⟩
    by_cases hgone : (s.queue d i).left.length + k < (u.queue d i).left.length
    · exact .inl (Nat.lt_of_lt_of_le hgone hleft.length_le)
    · have hgain := hcase.resolve_left hgone
      have hne := (hu.queue d i).nonempty (Nat.le_of_not_lt hgone) (Nat.lt_of_lt_of_le harr0 harr.length_le)
      have hi' : i ∈ u.ifs := by
        rw [hifs]
        exact hi
      have hstep := steps_gain (d := d) hu hst hi' hne
      right
      omega
  obtain ⟨ht, hifs, harr, hcase⟩ := hinv
  have hgone : (s.queue d i).left.length + k < (t.queue d i).left.length := by
    by_contra hgone
    have hgain := hcase.resolve_left hgone
    have hne := (ht.queue d i).nonempty (Nat.le_of_not_lt hgone) (Nat.lt_of_lt_of_le harr0 harr.length_le)
    have hpos : 0 < dist t d i := by
      rw [(plan_spec ht fun hw => hne (ht.asleep d hw i (hifs ▸ hi))).2.2]
      exact ahead_pos _ _ _
    have hlap : lap t = lap s := by
      unfold lap
      rw [hifs]
    have hlappos : 0 < lap s := Nat.succ_pos _
    have hmul := Nat.mul_le_mul_right (lap s) (Nat.le_of_not_lt hgone)
    unfold gain at hgain
    rw [hlap] at hgain
    rw [Nat.add_mul] at hmul
    rw [Nat.succ_mul] at hturns
    omega
  have hthere : (s.queue d i).arrived[(s.queue d i).left.length + k]? = (s.queue d i).pbufs[k]? := by
    have hle : ((s.queue d i).left.map Prod.fst).length ≤ (s.queue d i).left.length + k := by
      rw [length_map]
      exact Nat.le_add_right _ _
    rw [(h.queue d i).order, getElem?_append_right hle, length_map, Nat.add_sub_cancel_left]
  have hleft : (t.queue d i).arrived[(s.queue d i).left.length + k]? =
      ((t.queue d i).left[(s.queue d i).left.length + k]?).map Prod.fst := by
    have hlt : (s.queue d i).left.length + k < ((t.queue d i).left.map Prod.fst).length := by
      rw [length_map]
      exact hgone
    rw [(ht.queue d i).order, getElem?_append_left hlt, getElem?_map]
  obtain ⟨l, hl⟩ := harr
  rw [← hleft, ← hthere, ← hl, getElem?_append_left harr0]

end Onix.Netif
