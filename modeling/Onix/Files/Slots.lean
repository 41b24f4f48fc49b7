/-
The slots of pipes and sockets over whole runs: in use exactly while descriptors lead to them, and clean when they are free. Runs end where
the last descriptor of a pipe is closed.
-/
import Onix.Files.Tasks

namespace Onix.Files

open Onix.Lib

variable {s t u : State} {a : Act} {debts : List Nat} {p q fd f i j n : Nat} {k : Nat × Nat} {e : Stop}

/-! ## The runs -/

/-- A state in which all counts are right. -/
structure Start (s : State) : Prop where
  books : Books [] s
  quiet : Quiet s

def files : Machine State Act Stop where
  start := Start
  enabled := enabled
  step := step

/-- No last descriptor of a pipe is closed, no descriptor is negative, there are descriptors where they are needed, and only sockets
accept. -/
def Recycles (s : State) : Act → Prop
  | .open p path _ _ => (∀ dir err, path ≠ .fails dir err) → path ≠ .nothing → ∃ fd, s.Free p fd
  | .dup _ oldfd => 0 ≤ oldfd
  | .dup2 p oldfd newfd => 0 ≤ oldfd ∧ 0 ≤ newfd ∧ s.Shared (p, newfd.toNat)
  | .close p fd => 0 ≤ fd ∧ s.Shared (p, fd.toNat)
  | .pipe p _ => ∃ a b, a ≠ b ∧ s.Free p a ∧ s.Free p b
  | .socket _ _ _ => True
  | .accept p fd err => (0 ≤ fd ∧ fd < TASK_FILE_NR) ∧ s.Socket (p, fd.toNat) ∧ (err = none → ∃ fd, s.Free p fd)
  | .fork _ _ => True
  | .exit p => s.Leaves p

def Restores (s : State) : Act → Prop
  | .dup2 p oldfd newfd => Replaces s p oldfd newfd
  | _ => True

theorem call_kept (h : Books [] s) (hq : Quiet s) (he : enabled s a) (hr : Recycles s a) :
    Sat Bad (call s a) fun x => Kept s x.2 ∧ (Restores s a → x.1 < 0 → x.2 = s) := by
  obtain ⟨hp, he⟩ := he
  cases a with
  | «open» p path flags size =>
    refine (sysOpen_spec h hq hp he hr).mono fun x hx => ⟨hx.1, fun _ => hx.2⟩
  | dup p oldfd =>
    refine (dupfd_spec h hq hp hr (Int.le_refl 0)).mono fun x hx => ⟨hx.1, fun _ => hx.2.2⟩
  | dup2 p oldfd newfd =>
    exact sysDup2_spec h hq hp hr.1 hr.2.1 hr.2.2
  | close p fd =>
    obtain ⟨ret, t, ht, hk, -, -, hneg, -⟩ := fdPut_kept h hq hr.1 hr.2
    have hcall : call s (.close p fd) = fdPut s p fd := rfl
    rw [hcall, ht]
    exact ⟨hk, fun _ => hneg⟩
  | pipe p second =>
    refine (sysPipe_spec h hq hp hr).mono fun x hx => ⟨hx.1, fun _ hneg => absurd hneg (Int.not_lt.2 hx.2)⟩
  | socket p domain type =>
    refine (sysSocket_spec h hq hp).mono fun x hx => ⟨hx.1, fun _ => hx.2⟩
  | accept p fd err =>
    refine (sysAccept_spec h hq hp hr.1 hr.2.1 hr.2.2).mono fun x hx => ⟨hx.1, fun _ => hx.2⟩
  | fork p q =>
    refine (fork_spec h hq hp he.1 he.2).bind fun t _ ht => ?_
    exact ⟨ht, fun _ hneg => absurd hneg (Int.not_lt.2 (Int.natCast_nonneg q))⟩
  | exit p =>
    refine (exit_spec h hq hp hr).bind fun t _ ht => ?_
    exact ⟨ht, fun _ hneg => absurd hneg (Int.lt_irrefl 0)⟩

theorem step_kept (h : Books [] s) (hq : Quiet s) (he : enabled s a) (hr : Recycles s a) : Sat Bad (step s a) (Kept s) := by
  exact (call_kept h hq he hr).bind fun x _ hx => hx.1

theorem reach_books (h : files.Reach Recycles s) : Books [] s ∧ Quiet s := by
  refine h.inv (I := fun s => Books [] s ∧ Quiet s) (fun s (hs : Start s) => ⟨hs.books, hs.quiet⟩) fun s a t hi hr hs => ?_
  have hk := (step_kept hi.1 hi.2 hs.1 hr).of_ok hs.2
  exact ⟨hk.books, hk.quiet⟩

/-! ## The slots -/

/-- How the slots of pipes and sockets are in a state. -/
structure Recycled (s : State) : Prop where
  free : ∀ i < INODE_NR, (s.inodes i).type = .none → (s.inodes i).Clean ∧ (s.inodes i).count = 0 ∧ ∀ k, ¬ s.Leads k i
  used : ∀ i < INODE_NR, Private (s.inodes i).type → (s.inodes i).count = s.refs i ∧ ∃ k, s.Leads k i
  heap : s.heap.Nodup ∧ ∀ x, x ∈ s.heap ↔ ∃ i < INODE_NR, Private (s.inodes i).type ∧ (s.inodes i).desc = some x
  pages : s.pages.Nodup ∧ ∀ x, x ∈ s.pages ↔ ∃ i < INODE_NR, (s.inodes i).type = .pipe ∧ (s.inodes i).buf = some x
  own : ∀ i < INODE_NR, ∀ j < INODE_NR, ∀ x, Private (s.inodes i).type → Private (s.inodes j).type → (s.inodes i).desc = some x →
    (s.inodes j).desc = some x → i = j

theorem Books.leads_used (h : Books [] s) (hi : i < INODE_NR) (hp : Private (s.inodes i).type) : ∃ k, s.Leads k i := by
  have hc := h.inodeCount i hi
  have hne : (s.inodes i).count ≠ 0 := fun h0 => private_ne hp ((h.used i hi).2 h0)
  rw [(h.own i hi hp).1, List.count_nil] at hc
  have hr : 0 < tally holders s.holds i := by
    have : s.refs i = tally holders s.holds i := rfl
    omega
  obtain ⟨y, hy, hyi⟩ := tally_pos.1 hr
  obtain ⟨f, rfl⟩ := (h.own i hi hp).2 y hy hyi
  rw [holds_file rfl] at hyi
  split at hyi
  · cases hyi
  · rename_i hfc
    rw [h.fileCount f (file_mem.1 hy)] at hfc
    obtain ⟨k, -, hk⟩ := tally_pos.1 (Nat.pos_of_ne_zero hfc)
    exact ⟨k, f, hk, hyi⟩

theorem Books.recycled (h : Books [] s) : Recycled s := by
  refine ⟨fun i hi ht => ?_, fun i hi hp => ⟨?_, h.leads_used hi hp⟩, ⟨h.objects.heap, fun x => ⟨h.objects.heapOf x, ?_⟩⟩,
    ⟨h.objects.pages, fun x => ⟨h.objects.pagesOf x, ?_⟩⟩, h.objects.descs⟩
  · have hc := (h.used i hi).1 ht
    refine ⟨?_, hc, fun k hk => ?_⟩
    · rw [h.free hi ht]
      exact ⟨rfl, rfl, rfl, rfl, rfl, rfl⟩
    · have h1 := h.leads hk
      have h2 := h.inodeCount i hi
      omega
  · have hc := h.inodeCount i hi
    rw [(h.own i hi hp).1, List.count_nil] at hc
    omega
  · rintro ⟨i, hi, hp, hx⟩
    exact (h.slot i hi).desc hp hx
  · rintro ⟨i, hi, hp, hx⟩
    exact (h.slot i hi).buf hp hx

theorem freed_objects (h : Books [] s) (hk : Kept s t) (hi : i < INODE_NR) (hp : Private (s.inodes i).type) (ht : (t.inodes i).type = .none) :
    (∀ x, (s.inodes i).desc = some x → x ∉ t.heap) ∧ ∀ x, (s.inodes i).type = .pipe → (s.inodes i).buf = some x → x ∉ t.pages := by
  have hfr : Frees s t := by
    rcases hk.moves.own with hf | hf
    · exact hf
    · rw [(hf i hp).1] at ht
      exact absurd ht (private_ne hp)
  constructor
  · intro x hx hmem
    obtain ⟨j, hj, hpj, hxj⟩ := hk.books.objects.heapOf x hmem
    rcases hfr j with hn | ha
    · exact private_ne hpj hn
    · rw [ha.1] at hpj
      rw [ha.2.1] at hxj
      obtain rfl := h.objects.descs i hi j hj x hp hpj hx hxj
      rw [ha.1] at ht
      exact private_ne hp ht
  · intro x hpipe hx hmem
    obtain ⟨j, hj, hpj, hxj⟩ := hk.books.objects.pagesOf x hmem
    rcases hfr j with hn | ha
    · rw [hn] at hpj
      cases hpj
    · rw [ha.1] at hpj
      rw [ha.2.2] at hxj
      obtain rfl := h.objects.bufs i hi j hj x hpipe hpj hx hxj
      rw [ha.1, hpipe] at ht
      cases ht

/-- As long as no last descriptor of a pipe is closed, the slots are in order and no assertion fails; a pipe or a socket keeps its slot while
descriptors lead to it and then gives it up with all it has. The last descriptor of a pipe is never closed: the assertions of
`put_free_inode` fail. -/
theorem slots_recycled (h : files.Reach Recycles s) : Recycled s ∧
    (∀ a e, enabled s a → Recycles s a → step s a = .error e → e = .panic) ∧
    (∀ a t, enabled s a → Recycles s a → step s a = .ok t → ∀ i < INODE_NR, Private (s.inodes i).type →
      Alike (s.inodes i) (t.inodes i) ∧ (∃ k, t.Leads k i) ∨
      (t.inodes i).type = .none ∧ (t.inodes i).Clean ∧ (∀ k, ¬ t.Leads k i) ∧ (∀ x, (s.inodes i).desc = some x → x ∉ t.heap) ∧
        ∀ x, (s.inodes i).type = .pipe → (s.inodes i).buf = some x → x ∉ t.pages) ∧
    ∀ p fd i, i < INODE_NR → (s.inodes i).type = .pipe → s.Leads (p, fd) i → (∀ k, k ≠ (p, fd) → ¬ s.Leads k i) →
      step s (.close p fd) = .error .assertion := by
  obtain ⟨hb, hq⟩ := reach_books h
  refine ⟨hb.recycled, fun a e he hr hs => ?_, fun a t he hr hs i hi hp => ?_, fun p fd i hi hty hl hlast => ?_⟩
  · by_contra hne
    exact (step_kept hb hq he hr).not_bad hs hne
  · have hk := (step_kept hb hq he hr).of_ok hs
    rcases hk.moves.used i (private_ne hp) with ht | ha
    · obtain ⟨h1, -, h2⟩ := hk.books.recycled.free i hi ht
      exact .inr ⟨ht, h1, h2, freed_objects hb hk hi hp ht⟩
    · exact .inl ⟨ha, hk.books.leads_used hi (ha.1 ▸ hp)⟩
  · have hcall : call s (.close p fd) = fdPut s p fd := rfl
    unfold step
    rw [hcall, fdPut_lastPipe hb hl hi hty hlast]
    rfl

/-! ## A task with nothing open -/

instance (x : Found) (s : State) : Decidable (x.Ok s) :=
  match h : x.fresh with
  | none => decidable_of_iff (x.slot < INODE_NR ∧ ((s.inodes x.slot).type = .minix ∨ (s.inodes x.slot).type = .iso9660)) (by simp [Found.Ok, h])
  | some y => decidable_of_iff (x.slot < INODE_NR ∧ findFrom (fun i => (s.inodes i).type = .none) INODE_NR 0 = some x.slot ∧
      (y.type = .minix ∨ y.type = .iso9660) ∧ y.count = 1 ∧ y.op = some y.type ∧ y.rxwaiter = none ∧ y.txwaiter = none) (by simp [Found.Ok, h])

instance (s : State) : ∀ path : Path, Decidable (path.Ok s)
  | .nothing => inferInstanceAs (Decidable True)
  | .whole dir => inferInstanceAs (Decidable (dir.Ok s))
  | .fails dir err => inferInstanceAs (Decidable (dir.Ok s ∧ err < 0))
  | .file dir ino => inferInstanceAs (Decidable (dir.Ok s ∧ ino.Ok (dir.take s)))

instance (s : State) : ∀ a : Act, Decidable (files.enabled s a)
  | .open p path _ _ => inferInstanceAs (Decidable (s.tasks p ≠ none ∧ path.Ok s))
  | .accept p _ err => inferInstanceAs (Decidable (s.tasks p ≠ none ∧ ∀ e ∈ err, e < 0))
  | .fork p q => inferInstanceAs (Decidable (s.tasks p ≠ none ∧ q < TASK_NR ∧ s.tasks q = none))
  | .dup p _ | .dup2 p _ _ | .close p _ | .pipe p _ | .socket p _ _ | .exit p => inferInstanceAs (Decidable (s.tasks p ≠ none ∧ True))

def boot : State where
  inodes i := if i = 0 then ⟨.minix, 4, none, none, none, some .minix, none, none⟩ else .empty
  files _ := ⟨none, 0, 0, 0⟩
  fds _ := none
  tasks := Function.update (fun _ => none) 1 (some ⟨0, 0, none⟩)
  heap := []
  pages := []
  next := 0
  held i := if i = 0 then 2 else 0

theorem boot_start : Start boot := by
  have hnone : ∀ h, { boot with tasks := fun _ => none }.holds h = none := by
    rintro (f | p | p | p) <;> rfl
  have hempty : ∀ i, i ≠ 0 → boot.inodes i = Inode.empty := fun i hi => if_neg hi
  have hb : Books [0, 0] { boot with tasks := fun _ => none } := by
    have hclosed : ∀ f : Nat, tally slots (fun _ => none) f = 0 := fun f => tally_eq_zero fun _ _ h => nomatch h
    refine ⟨fun _ _ h => (nomatch h), fun f _ => (hclosed f).symm, fun f _ hc => absurd rfl hc,
      fun _ _ h => (nomatch h), fun i _ => ?_, fun i _ => ?_, fun i _ => ?_, fun i _ hp => ?_, ?_, .inl rfl, Nat.succ_pos 1⟩
    · have hr : ({ boot with tasks := fun _ => none } : State).refs i = 0 := tally_eq_zero fun h _ hh => by rw [hnone h] at hh; cases hh
      rw [hr]
      by_cases h0 : i = 0
      · subst h0
        rfl
      · have h1 : (boot.inodes i).count = 0 := congrArg Inode.count (hempty i h0)
        have h2 : boot.held i = 0 := if_neg h0
        have h3 : [0, 0].count i = 0 := List.count_eq_zero.2 (by simpa using h0)
        rw [h1, h2, h3]
    · by_cases h0 : i = 0
      · subst h0
        exact ⟨fun h => (nomatch h), fun h => (nomatch h)⟩
      · have h1 : boot.inodes i = Inode.empty := hempty i h0
        refine ⟨fun _ => congrArg Inode.count h1, fun _ => congrArg Inode.type h1⟩
    · by_cases h0 : i = 0
      · subst h0
        exact ⟨rfl, rfl, rfl⟩
      · exact slotOk_empty (hempty i h0)
    · by_cases h0 : i = 0
      · subst h0
        rcases hp with hp | hp <;> cases hp
      · exact absurd (congrArg Inode.type (hempty i h0)) (private_ne hp)
    · exact ⟨List.nodup_nil, List.nodup_nil, fun _ h => (nomatch h), fun _ h => (nomatch h), fun _ h => (nomatch h), fun _ h => (nomatch h),
        fun i _ _ _ x hp _ hx => absurd hx (by unfold boot; dsimp only; split <;> simp [Inode.empty]),
        fun i _ _ _ x hp _ hx => absurd hx (by unfold boot; dsimp only; split <;> simp [Inode.empty])⟩
  refine ⟨hb.setTask (q := 1) (y := some ⟨0, 0, none⟩) (by decide) (fun i hi => ?_) fun j => ?_, fun _ _ _ => rfl⟩
  · obtain rfl : i = 0 := by simpa [Files.owed] using hi
    exact ⟨by decide, disk_not_private (.inl rfl)⟩
  · simp [Files.owed]

def look (as : List Act) (f : State → Bool) : Option Bool := (files.trace Machine.Any boot as).map f

theorem looked (as : List Act) (f : State → Bool) (h : look as f = some true) : ∃ s, files.Reach Machine.Any s ∧ f s = true := by
  obtain ⟨s, hs, hf⟩ := Option.map_eq_some_iff.1 h
  exact ⟨s, Machine.trace_reach boot_start hs, hf⟩

/-- A task with a pipe. -/
theorem slots_recycled_pipe : ∃ s, files.Reach Recycles s ∧ (s.inodes 1).type = .pipe ∧ Recycled s := by
  have h : (match step boot (.pipe 1 0) with
    | .ok s => (s.inodes 1).type
    | .error _ => .none) = .pipe := by decide +kernel
  cases hs : step boot (.pipe 1 0) with
  | error e =>
    rw [hs] at h
    cases h
  | ok s =>
    rw [hs] at h
    have hr : files.Reach Recycles boot := ⟨boot, boot_start, .refl _⟩
    have hr := hr.next (.pipe 1 0) ⟨3, 4, by decide, ⟨by decide, by decide, rfl⟩, ⟨by decide, by decide, rfl⟩⟩ (by decide) hs
    exact ⟨s, hr, h, (slots_recycled hr).1⟩

/-- A pipe whose second end is closed: its slot is not given back. -/
theorem pipe_not_recycled : ∃ s, files.Reach Machine.Any s ∧ enabled s (.close 1 4) ∧ (s.inodes 1).type = .pipe ∧ (s.inodes 1).count = 1 ∧
    step s (.close 1 4) = .error .assertion := by
  obtain ⟨s, hs, hf⟩ := looked [.pipe 1 0, .close 1 3] (fun s => decide (files.enabled s (.close 1 4)) &&
    (s.inodes 1).type == .pipe && (s.inodes 1).count == 1 && (match step s (.close 1 4) with
      | .error .assertion => true
      | _ => false)) (by decide +kernel)
  simp only [Bool.and_eq_true, beq_iff_eq, decide_eq_true_eq] at hf
  obtain ⟨⟨⟨h1, h2⟩, h3⟩, h4⟩ := hf
  refine ⟨s, hs, h1, h2, h3, ?_⟩
  split at h4
  · assumption
  · cases h4

end Onix.Files
