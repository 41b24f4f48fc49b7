/-
`sys_dup` and `sys_dup2` for every table and every argument, and which slots of `files[]` the calls look at. A call is judged by what it
returns, by the table and by the counts it leaves.
-/
import Onix.Files.Slots

namespace Onix.Files

open Option Function Onix.Lib

variable {s t u : State} {debts : List Nat} {p f g i j n : Nat} {k : Nat × Nat} {fd oldfd newfd ret : Int}

/-! ## The slots of `files[]` -/

def EBADF : Int := 9

def slotAt (s : State) (p : Nat) (fd : Int) : Except Stop (Option Nat) :=
  if 0 ≤ fd ∧ fd < TASK_FILE_NR then .ok (s.fds (p, fd.toNat)) else .error .wild

/-- `sys_ioctl` up to the `ioctl` of the inode, which is returned; none for `-EBADF`. -/
def sysIoctl (s : State) (p : Nat) (fd : Int) : Except Stop (Option Nat) :=
  if TASK_FILE_NR ≤ fd then .ok none
  else do
    match ← slotAt s p fd with
    | none => .ok none
    | some f => do
      assert ((s.files f).inode ≠ none)
      .ok (s.files f).inode

theorem slotAt_wild : slotAt s p fd = .error .wild ↔ fd < 0 ∨ TASK_FILE_NR ≤ fd := by
  unfold slotAt
  split
  · rename_i h
    exact ⟨fun he => (nomatch he), fun he => by omega⟩
  · rename_i h
    exact ⟨fun _ => by omega, fun _ => rfl⟩

theorem fdCheck_slotAt (s : State) (p : Nat) (fd : Int) :
    fdCheck s p fd = if TASK_FILE_NR ≤ fd then .ok none else slotAt s p fd := by
  unfold fdCheck slotAt
  split
  · rfl
  · rename_i h
    by_cases h0 : fd < 0
    · rw [if_pos h0, if_neg (by omega)]
    · rw [if_neg h0, if_pos (by omega)]

theorem fdCheck_wild : fdCheck s p fd = .error .wild ↔ fd < 0 := by
  rw [fdCheck_slotAt]
  split
  · exact ⟨fun he => (nomatch he), fun he => by omega⟩
  · rw [slotAt_wild]
    exact ⟨fun he => by omega, .inl⟩

theorem sysIoctl_wild : sysIoctl s p fd = .error .wild ↔ fd < 0 := by
  unfold sysIoctl
  split
  · exact ⟨fun he => (nomatch he), fun he => by omega⟩
  · constructor
    · intro he
      by_contra h0
      unfold slotAt at he
      rw [if_pos (by omega)] at he
      dsimp only [bind, Except.bind] at he
      split at he
      · cases he
      · rename_i f _
        by_cases hi : (s.files f).inode ≠ none
        · rw [assert_ok hi] at he
          cases he
        · rw [assert_error hi] at he
          cases he
    · intro h0
      rw [slotAt_wild.2 (.inl h0)]
      rfl

/-! ## A reference that is given back -/

/-- No assertion fails where a reference to the inode is given back: it is not the last one, or the slot is clean then. -/
def State.Puttable (s : State) (i : Nat) : Prop :=
  let x := s.inodes i
  match x.op with
  | none | some .none => False
  | some .pipe => x.count ≠ 1
  | some .socket => x.count = 1 → i ≠ 0 ∧ (∃ d ∈ s.heap, x.desc = some d) ∧ x.rxwaiter = none ∧ x.txwaiter = none
  | some .minix | some .iso9660 => x.count = 1 → i ≠ 0 ∧ x.rxwaiter = none ∧ x.txwaiter = none

/-- One reference less, and nothing else of the books. -/
structure Gives (s : State) (i : Nat) (t : State) : Prop where
  fds : t.fds = s.fds
  files : t.files = s.files
  count : ∀ j, (t.inodes j).count = if j = i then dec (s.inodes j).count else (s.inodes j).count

theorem dec_ne {n : Nat} (h : n ≠ 1) : dec n ≠ 0 := by
  unfold dec
  split <;> omega

theorem Gives.of {x : Inode} (hx : x.count = dec (s.inodes i).count) (hf : t.fds = s.fds) (hg : t.files = s.files)
    (hi : t.inodes = update s.inodes i x) : Gives s i t := by
  refine ⟨hf, hg, fun j => ?_⟩
  rw [hi]
  by_cases hj : j = i
  · rw [if_pos hj, hj, update_self]
    exact hx
  · rw [if_neg hj, update_of_ne hj]

theorem gives_more (s : State) (i : Nat) : Gives s i (s.setInode i { s.inodes i with count := dec (s.inodes i).count }) :=
  .of (x := { s.inodes i with count := dec (s.inodes i).count }) rfl rfl rfl rfl

theorem putFreeInode_eq (s : State) (i : Nat) : putFreeInode s i =
    if i ≠ 0 ∧ (s.inodes i).count = 0 ∧ (s.inodes i).Clean then .ok (s.setInode i { s.inodes i with type := .none }) else .error .assertion := by
  split
  · rename_i h
    exact putFreeInode_clean h.1 h.2.1 h.2.2
  · rename_i h
    unfold putFreeInode
    by_cases h0 : i ≠ 0
    · rw [assert_ok h0]
      by_cases hc : (s.inodes i).count = 0
      · rw [assert_ok hc]
        dsimp only [bind, Except.bind]
        rw [assert_error]
        rw [setInode_same]
        exact fun hx => h ⟨h0, hc, hx⟩
      · rw [assert_error hc]
        rfl
    · rw [assert_error h0]
      rfl

theorem putFreeInode_setInode {x : Inode} (hc : x.count = 0) : putFreeInode (s.setInode i x) i =
    if i ≠ 0 ∧ x.Clean then .ok (s.setInode i { x with type := .none }) else .error .assertion := by
  rw [putFreeInode_eq, setInode_same, setInode_setInode]
  simp only [hc, true_and]

theorem pipeClose_put (s : State) (i : Nat) : ((∃ t, pipeClose s i = .ok t) ↔ (s.inodes i).count ≠ 1) ∧
    ∀ t, pipeClose s i = .ok t → Gives s i t := by
  unfold pipeClose
  dsimp only
  rw [setInode_same]
  by_cases hc : (s.inodes i).count = 1
  · -- what is freed is still named by the slot
    rw [if_neg (by rw [dec_one hc]; exact not_not_intro rfl), setInode_setInode, setInode_same]
    have hstop : ∀ t, (kfree (s.setInode i { s.inodes i with count := dec (s.inodes i).count, type := .none }) (s.inodes i).desc >>= fun s =>
        freeKpage s (s.inodes i).buf >>= fun s => putFreeInode s i) ≠ .ok t := by
      intro t ht
      obtain ⟨u, hu, ht⟩ := bind_ok ht
      obtain ⟨v, hv, ht⟩ := bind_ok ht
      rw [putFreeInode_eq] at ht
      have hdesc : (v.inodes i).desc = (s.inodes i).desc := by
        have h1 : (u.inodes i).desc = (s.inodes i).desc := by
          unfold kfree at hu
          split at hu
          · cases hu
          · split at hu <;> cases hu
            rw [setInode_same]
        unfold freeKpage at hv
        split at hv
        · cases hv
        · split at hv <;> cases hv
          exact h1
      split at ht
      · rename_i hcl
        have hn := hcl.2.2.2.1
        rw [hdesc] at hn
        rw [hn] at hu
        cases hu
      · cases ht
    exact ⟨⟨fun h => h.elim fun t ht => absurd ht (hstop t), fun h => absurd hc h⟩, fun t ht => absurd ht (hstop t)⟩
  · rw [if_pos (dec_ne hc)]
    refine ⟨⟨fun _ => hc, fun _ => ⟨_, rfl⟩⟩, fun t ht => ?_⟩
    cases ht
    exact gives_more s i

theorem diskClose_put (s : State) (i : Nat) :
    ((∃ t, diskClose s i = .ok t) ↔ ((s.inodes i).count = 1 → i ≠ 0 ∧ (s.inodes i).rxwaiter = none ∧ (s.inodes i).txwaiter = none)) ∧
    ∀ t, diskClose s i = .ok t → Gives s i t := by
  unfold diskClose
  dsimp only
  rw [setInode_same]
  by_cases hc : (s.inodes i).count = 1
  · rw [if_neg (by rw [dec_one hc]; exact not_not_intro rfl), setInode_setInode, putFreeInode_setInode (dec_one hc)]
    by_cases hcl : i ≠ 0 ∧ (s.inodes i).rxwaiter = none ∧ (s.inodes i).txwaiter = none
    · rw [if_pos ⟨hcl.1, rfl, rfl, rfl, rfl, hcl.2⟩]
      refine ⟨⟨fun _ _ => hcl, fun _ => ⟨_, rfl⟩⟩, fun t ht => ?_⟩
      cases ht
      exact .of rfl rfl rfl rfl
    · rw [if_neg (fun h => hcl ⟨h.1, h.2.2.2.2.2⟩)]
      exact ⟨⟨fun ⟨t, ht⟩ => (nomatch ht), fun h => absurd (h hc) hcl⟩, fun t ht => (nomatch ht)⟩
  · rw [if_pos (dec_ne hc)]
    refine ⟨⟨fun _ h => absurd h hc, fun _ => ⟨_, rfl⟩⟩, fun t ht => ?_⟩
    cases ht
    exact gives_more s i

theorem socketClose_put (s : State) (i : Nat) :
    ((∃ t, socketClose s i = .ok t) ↔ ((s.inodes i).count = 1 → i ≠ 0 ∧ (∃ d ∈ s.heap, (s.inodes i).desc = some d) ∧
      (s.inodes i).rxwaiter = none ∧ (s.inodes i).txwaiter = none)) ∧
    ∀ t, socketClose s i = .ok t → Gives s i t := by
  unfold socketClose
  dsimp only
  rw [setInode_same]
  by_cases hc : (s.inodes i).count = 1
  · rw [if_neg (by rw [dec_one hc]; exact not_not_intro rfl), setInode_setInode, setInode_same]
    by_cases hd : ∃ d ∈ s.heap, (s.inodes i).desc = some d
    · obtain ⟨d, hd, hdesc⟩ := hd
      rw [hdesc, assert_ok (by simp), kfree_setInode hd]
      dsimp only [bind, Except.bind]
      rw [setInode_setInode, setInode_same, putFreeInode_setInode (dec_one hc)]
      by_cases hcl : i ≠ 0 ∧ (s.inodes i).rxwaiter = none ∧ (s.inodes i).txwaiter = none
      · rw [if_pos ⟨hcl.1, rfl, rfl, rfl, rfl, hcl.2⟩]
        refine ⟨⟨fun _ _ => ⟨hcl.1, ⟨d, hd, rfl⟩, hcl.2⟩, fun _ => ⟨_, rfl⟩⟩, fun t ht => ?_⟩
        cases ht
        exact .of rfl rfl rfl rfl
      · rw [if_neg (fun h => hcl ⟨h.1, h.2.2.2.2.2⟩)]
        exact ⟨⟨fun ⟨t, ht⟩ => (nomatch ht), fun h => absurd ⟨(h hc).1, (h hc).2.2⟩ hcl⟩, fun t ht => (nomatch ht)⟩
    · -- there is no socket to free
      have hstop : ∀ (f : State → Except Stop State) (x : Inode) t, (assert ((s.inodes i).desc ≠ none) >>= fun _ =>
          kfree (s.setInode i x) (s.inodes i).desc >>= f) ≠ .ok t := by
        intro f x t ht
        obtain ⟨-, -, ht⟩ := bind_ok ht
        obtain ⟨u, hu, -⟩ := bind_ok ht
        cases hdesc : (s.inodes i).desc with
        | none =>
          rw [hdesc] at hu
          cases hu
        | some d =>
          rw [hdesc] at hu
          unfold kfree at hu
          dsimp only at hu
          rw [if_neg (show d ∉ (s.setInode i x).heap from fun hm => hd ⟨d, hm, hdesc⟩)] at hu
          cases hu
      exact ⟨⟨fun ⟨t, ht⟩ => absurd ht (hstop _ _ t), fun h => absurd (h hc).2.1 hd⟩, fun t ht => absurd ht (hstop _ _ t)⟩
  · rw [if_pos (dec_ne hc)]
    refine ⟨⟨fun _ h => absurd h hc, fun _ => ⟨_, rfl⟩⟩, fun t ht => ?_⟩
    cases ht
    exact gives_more s i

theorem iput_put (s : State) (i : Nat) : ((∃ t, iput s (some i) = .ok t) ↔ s.Puttable i) ∧ ∀ t, iput s (some i) = .ok t → Gives s i t := by
  unfold iput State.Puttable
  dsimp only
  cases hop : (s.inodes i).op with
  | none => exact ⟨⟨fun ⟨t, ht⟩ => (nomatch ht), False.elim⟩, fun t ht => (nomatch ht)⟩
  | some x =>
    cases x with
    | none => exact ⟨⟨fun ⟨t, ht⟩ => (nomatch ht), False.elim⟩, fun t ht => (nomatch ht)⟩
    | pipe => exact pipeClose_put s i
    | socket => exact socketClose_put s i
    | minix => exact diskClose_put s i
    | iso9660 => exact diskClose_put s i

/-! ## A descriptor that is closed -/

def State.Closable (s : State) (k : Nat × Nat) : Prop :=
  ∃ f i, s.fds k = some f ∧ (s.files f).inode = some i ∧ 0 < (s.files f).count ∧ ((s.files f).count = 1 → s.Puttable i)

def State.lastInode (s : State) (k : Nat × Nat) : Option Nat :=
  (s.fds k).bind fun f => if (s.files f).count = 1 then (s.files f).inode else none

/-- What a descriptor that is closed takes from the counts. -/
structure Drops (s : State) (k : Nat × Nat) (t : State) : Prop where
  fds : t.fds = Function.update s.fds k none
  files : ∀ f, (t.files f).count = if s.fds k = some f then (s.files f).count - 1 else (s.files f).count
  inodes : ∀ i, (t.inodes i).count = if s.lastInode k = some i then dec (s.inodes i).count else (s.inodes i).count

theorem unpoint_files (s : State) (k : Nat × Nat) (hk : s.fds k = some f) (g : Nat) :
    ((s.unpoint k f).files g).count = if s.fds k = some g then (s.files g).count - 1 else (s.files g).count := by
  unfold State.unpoint State.setFile
  dsimp only
  by_cases hg : g = f
  · rw [hg, if_pos hk, update_self]
  · rw [if_neg (fun h => hg (some.inj (h.symm.trans hk))), update_of_ne hg]

theorem fdPut_open {fd : Nat} (hfd : fd < TASK_FILE_NR) (hf : s.fds (p, fd) = some f) : fdPut s p fd =
    (assert ((s.files f).inode ≠ none) >>= fun _ => putFile (s.setFd p fd none) f >>= fun t => .ok (0, t)) := by
  unfold fdPut
  rw [fdCheck_nat hfd, hf]
  rfl

theorem fdPut_put (s : State) (p fd : Nat) (hfd : fd < TASK_FILE_NR) (hf : s.fds (p, fd) = some f) :
    ((∃ x, fdPut s p fd = .ok x) ↔ s.Closable (p, fd)) ∧ ∀ x, fdPut s p fd = .ok x → x.1 = 0 ∧ Drops s (p, fd) x.2 := by
  have hfile := unpoint_files s (p, fd) hf
  have hlast : s.lastInode (p, fd) = if (s.files f).count = 1 then (s.files f).inode else none := by
    unfold State.lastInode
    rw [hf]
    rfl
  rw [fdPut_open hfd hf]
  cases hi : (s.files f).inode with
  | none =>
    refine ⟨⟨fun ⟨x, hx⟩ => (nomatch hx), ?_⟩, fun x hx => (nomatch hx)⟩
    rintro ⟨g, i, hg, hgi, -⟩
    obtain rfl := some.inj (hf.symm.trans hg)
    rw [hi] at hgi
    cases hgi
  | some i =>
    have hiff : s.Closable (p, fd) ↔ 0 < (s.files f).count ∧ ((s.files f).count = 1 → s.Puttable i) := by
      constructor
      · rintro ⟨g, j, hg, hgj, h⟩
        obtain rfl := some.inj (hf.symm.trans hg)
        obtain rfl := some.inj (hi.symm.trans hgj)
        exact h
      · exact fun h => ⟨f, i, hf, hi, h⟩
    rw [hiff]
    by_cases hpos : 0 < (s.files f).count
    · rw [putFile_eq hpos hi]
      by_cases hc : (s.files f).count = 1
      · rw [if_pos hc]
        rw [if_pos hc, hi] at hlast
        obtain ⟨hput, hgives⟩ := iput_put (s.unpoint (p, fd) f) i
        have hsame : (s.unpoint (p, fd) f).Puttable i ↔ s.Puttable i := Iff.rfl
        cases hit : iput (s.unpoint (p, fd) f) (some i) with
        | error e =>
          refine ⟨⟨fun ⟨x, hx⟩ => (nomatch hx), fun h => ?_⟩, fun x hx => (nomatch hx)⟩
          obtain ⟨t, ht⟩ := hput.2 (hsame.2 (h.2 hc))
          rw [hit] at ht
          cases ht
        | ok t =>
          refine ⟨⟨fun _ => ⟨hpos, fun _ => hsame.1 (hput.1 ⟨t, hit⟩)⟩, fun _ => ⟨_, rfl⟩⟩, fun x hx => ?_⟩
          cases hx
          have hg := hgives t hit
          refine ⟨rfl, hg.fds, fun g => ?_, fun j => ?_⟩
          · rw [hg.files]
            exact hfile g
          · rw [hg.count, hlast]
            simp only [some.injEq, eq_comm]
            rfl
      · rw [if_neg hc]
        rw [if_neg hc] at hlast
        refine ⟨⟨fun _ => ⟨hpos, fun h => absurd h hc⟩, fun _ => ⟨_, rfl⟩⟩, fun x hx => ?_⟩
        cases hx
        refine ⟨rfl, rfl, hfile, fun j => ?_⟩
        rw [hlast, if_neg (by simp)]
        rfl
    · have hstop : putFile (s.setFd p fd none) f = .error .assertion := by
        unfold putFile
        rw [assert_error (show ¬ 0 < ((s.setFd p fd none).files f).count from hpos)]
        rfl
      rw [hstop]
      exact ⟨⟨fun ⟨x, hx⟩ => (nomatch hx), fun h => absurd h.1 hpos⟩, fun x hx => (nomatch hx)⟩

theorem closable_iff {fd : Nat} (h : Books [] s) (hf : s.fds (p, fd) = some f) : s.Closable (p, fd) ↔ s.Shared (p, fd) := by
  obtain ⟨hks, -, -⟩ := h.pointed hf
  rw [← (fdPut_put _ _ _ (mem_slots.1 hks).2 hf).1]
  constructor
  · rintro ⟨x, hx⟩ i hl hty
    by_contra hno
    obtain ⟨g, hg, hgi⟩ := hl
    obtain ⟨-, hgf, hgc⟩ := h.pointed hg
    obtain ⟨j, hj, hgj⟩ := h.fileInode g hgf (by omega)
    obtain rfl := some.inj (hgi.symm.trans hgj)
    rw [fdPut_lastPipe h ⟨g, hg, hgi⟩ hj hty fun l hl hli => hno ⟨l, hl, hli⟩] at hx
    cases hx
  · intro hs
    obtain ⟨t, ht, -⟩ := fdPut_spec h hf hs
    exact ⟨_, ht⟩

/-! ## `dupfd` -/

def State.Open (s : State) (p : Nat) (fd : Int) : Prop := 0 ≤ fd ∧ fd < TASK_FILE_NR ∧ s.fds (p, fd.toNat) ≠ none

instance (s : State) (p : Nat) (fd : Int) : Decidable (s.Open p fd) := inferInstanceAs (Decidable (_ ∧ _ ∧ _))

theorem dupfd_wild {fd arg : Int} (h : fd < 0) : dupfd s p fd arg = .error .wild := by
  unfold dupfd
  rw [fdCheck_wild.2 h]
  rfl

theorem dupfd_closed {fd arg : Int} (h0 : 0 ≤ fd) (h : ¬ s.Open p fd) : dupfd s p fd arg = .ok (-EINVAL, s) := by
  unfold dupfd
  have hcheck : fdCheck s p fd = .ok none := by
    rw [fdCheck_slotAt]
    split
    · rfl
    · rename_i hlt
      unfold slotAt
      rw [if_pos (by omega)]
      by_contra hne
      exact h ⟨h0, by omega, fun hn => hne (congrArg Except.ok hn)⟩
  rw [hcheck]
  rfl

theorem dupfd_open {fd : Int} {arg : Nat} (h0 : 0 ≤ fd) (hlt : fd < TASK_FILE_NR) (hf : s.fds (p, fd.toNat) = some f) :
    dupfd s p fd arg =
      match findFrom (fun fd => s.fds (p, fd) = none) (TASK_FILE_NR - arg) arg with
      | none => .ok (-EINVAL, s)
      | some fd => .ok (fd, s.point (p, fd) f) := by
  obtain ⟨n, rfl⟩ := Int.eq_ofNat_of_zero_le h0
  rw [Int.toNat_natCast] at hf
  unfold dupfd
  rw [fdCheck_nat (by omega), hf]
  rfl

/-! ## What the calls are to do -/

/-- A descriptor leads to the file; every count has lost what the descriptor led to and won what it leads to. -/
structure Moved (s t : State) (p : Nat) (fd : Int) (f : Nat) : Prop where
  fds : t.fds = Function.update s.fds (p, fd.toNat) (some f)
  files : ∀ g, (t.files g).count + (if s.fds (p, fd.toNat) = some g then 1 else 0) = (s.files g).count + (if g = f then 1 else 0)
  inodes : ∀ i, (t.inodes i).count = if s.lastInode (p, fd.toNat) = some i then dec (s.inodes i).count else (s.inodes i).count

/-- `sys_dup` returns the lowest free descriptor; without one, or without a file, it changes nothing. -/
def DupMet (s : State) (p : Nat) (oldfd : Int) : Prop :=
  ∃ ret t, sysDup s p oldfd = .ok (ret, t) ∧
    if s.Open p oldfd ∧ ∃ fd < TASK_FILE_NR, s.fds (p, fd) = none then
      ∃ f, ∃ fd : Nat, s.fds (p, oldfd.toNat) = some f ∧ ret = fd ∧ fd < TASK_FILE_NR ∧ s.fds (p, fd) = none ∧
        (∀ l < fd, s.fds (p, l) ≠ none) ∧ Moved s t p fd f
    else ret < 0 ∧ t = s

/-- `sys_dup2` returns the descriptor it was given, or it changes nothing. -/
def Dup2Met (s : State) (p : Nat) (oldfd newfd : Int) : Prop :=
  ∃ ret t, sysDup2 s p oldfd newfd = .ok (ret, t) ∧ (ret < 0 → t = s) ∧
    (0 ≤ ret → ret = newfd ∧ ∃ f, s.Open p oldfd ∧ s.fds (p, oldfd.toNat) = some f ∧
      if oldfd = newfd then t = s else Moved s t p newfd f)

/-- `checked` are the calls that begin with `fd_check` once their other arguments have passed, `sys_close`, `sys_read`, `sys_readdir`,
`sys_write`, `sys_lseek` and `sys_fstat`; `socket` are those that begin with `socket_get`. -/
inductive Request
  | dup (oldfd : Int)
  | dup2 (oldfd newfd : Int)
  | checked (fd : Int)
  | ioctl (fd : Int)
  | socket (fd : Int)

def Meets (s : State) (p : Nat) : Request → Prop
  | .dup oldfd => DupMet s p oldfd
  | .dup2 oldfd newfd => Dup2Met s p oldfd newfd
  | .checked fd => fdCheck s p fd ≠ .error .wild
  | .ioctl fd => sysIoctl s p fd ≠ .error .wild
  | .socket fd => slotAt s p fd ≠ .error .wild

/-- No number is negative; those of `socket_get` are not too large either. `sys_dup2` does not close a descriptor onto itself or in vain,
nor one that cannot be closed. -/
def Request.Proper (s : State) (p : Nat) : Request → Prop
  | .dup fd | .checked fd | .ioctl fd => 0 ≤ fd
  | .dup2 oldfd newfd => 0 ≤ oldfd ∧ 0 ≤ newfd ∧
      (s.Open p newfd → oldfd ≠ newfd ∧ s.Open p oldfd ∧ s.Closable (p, newfd.toNat))
  | .socket fd => 0 ≤ fd ∧ fd < TASK_FILE_NR

/-! ## The proofs -/

theorem Drops.closable (hd : Drops s k t) (hc : s.Closable k) :
    ∀ g, (t.files g).count + (if s.fds k = some g then 1 else 0) = (s.files g).count := by
  obtain ⟨f, i, hf, -, hpos, -⟩ := hc
  intro g
  rw [hd.files]
  split
  · rename_i hg
    obtain rfl := some.inj (hf.symm.trans hg)
    omega
  · rfl

theorem point_files (s : State) (k : Nat × Nat) (f g : Nat) :
    ((s.point k f).files g).count = (s.files g).count + if g = f then 1 else 0 := by
  unfold State.point State.setFile
  dsimp only
  by_cases hg : g = f
  · rw [hg, if_pos rfl, update_self]
  · rw [if_neg hg, update_of_ne hg]
    rfl

theorem moved_point {fd : Nat} (h : s.fds (p, fd) = none) : Moved s (s.point (p, fd) f) p fd f := by
  have hlast : s.lastInode (p, fd) = none := by
    unfold State.lastInode
    rw [h]
    rfl
  refine ⟨rfl, fun g => ?_, fun i => ?_⟩
  · rw [Int.toNat_natCast, h, if_neg (by simp)]
    exact point_files s (p, fd) f g
  · rw [Int.toNat_natCast, hlast, if_neg (by simp)]
    rfl

theorem moved_drops {fd : Nat} (hd : Drops s (p, fd) u) (hc : s.Closable (p, fd)) : Moved s (u.point (p, fd) f) p fd f := by
  refine ⟨?_, fun g => ?_, hd.inodes⟩
  · have : (u.point (p, fd) f).fds = update u.fds (p, fd) (some f) := rfl
    rw [this, hd.fds, update_idem]
    rfl
  · rw [point_files, Int.toNat_natCast]
    have := hd.closable hc g
    omega

theorem dup_met (s : State) (p : Nat) (oldfd : Int) : DupMet s p oldfd ↔ 0 ≤ oldfd := by
  constructor
  · rintro ⟨ret, t, ht, -⟩
    by_contra h0
    rw [sysDup, dupfd_wild (by omega)] at ht
    cases ht
  · intro h0
    unfold DupMet
    by_cases ho : s.Open p oldfd
    · obtain ⟨-, hlt, hne⟩ := ho
      obtain ⟨f, hf⟩ := ne_none_iff_exists'.1 hne
      have hdup : sysDup s p oldfd = dupfd s p oldfd (0 : Nat) := rfl
      rw [hdup, dupfd_open h0 hlt hf]
      cases hfind : findFrom (fun fd => s.fds (p, fd) = none) (TASK_FILE_NR - 0) 0 with
      | none =>
        refine ⟨_, _, rfl, ?_⟩
        rw [if_neg]
        · exact ⟨by decide, rfl⟩
        · rintro ⟨-, fd, hfd, hnone⟩
          exact of_decide_eq_false (findFrom_none hfind (Nat.zero_le fd) (by omega)) hnone
      | some fd =>
        obtain ⟨-, hlt', hnone⟩ := findFrom_some hfind
        have hnone : s.fds (p, fd) = none := of_decide_eq_true hnone
        refine ⟨_, _, rfl, ?_⟩
        rw [if_pos ⟨⟨h0, hlt, hne⟩, fd, by omega, hnone⟩]
        exact ⟨f, fd, hf, rfl, by omega, hnone, fun l hl hn => of_decide_eq_false (findFrom_first hfind (Nat.zero_le l) hl) hn,
          moved_point hnone⟩
    · refine ⟨_, _, dupfd_closed h0 ho, ?_⟩
      rw [if_neg (fun h => ho h.1)]
      exact ⟨by decide, rfl⟩

theorem fdPut_unopen {fd : Int} (h0 : 0 ≤ fd) (h : ¬ s.Open p fd) : fdPut s p fd = .ok (-EINVAL, s) := by
  refine fdPut_bad h0 ?_
  by_contra hno
  exact h ⟨h0, by omega, fun hn => hno (.inr hn)⟩

theorem sysDup2_eq {x : Int × State} (h : fdPut s p newfd = .ok x) : sysDup2 s p oldfd newfd = dupfd x.2 p oldfd newfd := by
  unfold sysDup2
  rw [h]
  rfl

theorem dupfd_free {fd : Int} (ho : s.Open p fd) (hf : s.fds (p, fd.toNat) = some f) (hn : n < TASK_FILE_NR) (hfree : s.fds (p, n) = none) :
    dupfd s p fd n = .ok (n, s.point (p, n) f) := by
  rw [dupfd_open ho.1 ho.2.1 hf]
  have hfind : findFrom (fun fd => s.fds (p, fd) = none) (TASK_FILE_NR - n) n = some n := by
    obtain ⟨m, hm⟩ : ∃ m, TASK_FILE_NR - n = m + 1 := ⟨TASK_FILE_NR - n - 1, by omega⟩
    rw [hm]
    exact if_pos (decide_eq_true hfree)
  rw [hfind]

theorem dup2_met (s : State) (p : Nat) (oldfd newfd : Int) : Dup2Met s p oldfd newfd ↔ (Request.dup2 oldfd newfd).Proper s p := by
  constructor
  · rintro ⟨ret, t, ht, hneg, hpos⟩
    have hput : ∃ x, fdPut s p newfd = .ok x := by
      obtain ⟨x, hx, -⟩ := bind_ok ht
      exact ⟨x, hx⟩
    obtain ⟨x, hx⟩ := hput
    rw [sysDup2_eq hx] at ht
    have hnew : 0 ≤ newfd := by
      by_contra hn
      have := fdCheck_wild (s := s) (p := p).2 (Int.not_le.1 hn)
      unfold fdPut at hx
      rw [this] at hx
      cases hx
    have hold : 0 ≤ oldfd := by
      by_contra hn
      rw [dupfd_wild (by omega)] at ht
      cases ht
    refine ⟨hold, hnew, fun ho => ?_⟩
    obtain ⟨n, rfl⟩ := Int.eq_ofNat_of_zero_le hnew
    obtain ⟨-, hlt, hne⟩ := ho
    rw [Int.toNat_natCast] at hne
    obtain ⟨f, hf⟩ := ne_none_iff_exists'.1 hne
    obtain ⟨hiff, hdrops⟩ := fdPut_put s p n (by omega) hf
    have hd := (hdrops x hx).2
    have hgone : x.2.fds (p, n) = none := by
      rw [hd.fds, update_self]
    -- a call that fails would have closed the descriptor in vain
    have hopen : x.2.Open p oldfd := by
      by_contra hno
      rw [dupfd_closed hold hno] at ht
      cases ht
      have := hneg (by decide)
      rw [← this, hgone] at hf
      cases hf
    have hother : oldfd ≠ n := by
      rintro rfl
      exact hopen.2.2 hgone
    refine ⟨hother, ⟨hopen.1, hopen.2.1, fun hn => hopen.2.2 ?_⟩, hiff.1 ⟨x, hx⟩⟩
    rw [hd.fds]
    exact (update_apply ..).trans (by rw [hn]; exact ite_self _)
  · rintro ⟨hold, hnew, hproper⟩
    unfold Dup2Met
    obtain ⟨n, rfl⟩ := Int.eq_ofNat_of_zero_le hnew
    by_cases ho : s.Open p n
    · obtain ⟨hother, hopen, hclosable⟩ := hproper ho
      obtain ⟨f, hf⟩ := ne_none_iff_exists'.1 ho.2.2
      obtain ⟨hiff, hdrops⟩ := fdPut_put s p n (by have := ho.2.1; omega) hf
      obtain ⟨x, hx⟩ := hiff.2 hclosable
      have hd := (hdrops x hx).2
      obtain ⟨g, hg⟩ := ne_none_iff_exists'.1 hopen.2.2
      have hgx : x.2.fds (p, oldfd.toNat) = some g := by
        rw [hd.fds, update_of_ne]
        · exact hg
        · intro he
          have := (Prod.mk.inj he).2
          omega
      have hdup := dupfd_free (n := n) ⟨hopen.1, hopen.2.1, by rw [hgx]; simp⟩ hgx (by have := ho.2.1; omega) (by rw [hd.fds, update_self])
      refine ⟨_, _, (sysDup2_eq hx).trans hdup, fun hneg => absurd hneg (by omega), fun _ => ⟨rfl, g, hopen, hg, ?_⟩⟩
      rw [if_neg hother]
      exact moved_drops hd hclosable
    · rw [sysDup2_eq (fdPut_unopen hnew ho)]
      by_cases hopen : s.Open p oldfd
      · obtain ⟨g, hg⟩ := ne_none_iff_exists'.1 hopen.2.2
        by_cases hlt : n < TASK_FILE_NR
        · have hfree : s.fds (p, n) = none := by
            by_contra hne
            exact ho ⟨hnew, by omega, hne⟩
          refine ⟨_, _, dupfd_free hopen hg hlt hfree, fun hneg => absurd hneg (by omega), fun _ => ⟨rfl, g, hopen, hg, ?_⟩⟩
          rw [if_neg (fun he : oldfd = n => ho (he ▸ hopen))]
          exact moved_point hfree
        · refine ⟨-EINVAL, s, ?_, fun _ => rfl, fun h => absurd h (by decide)⟩
          rw [dupfd_open hold hopen.2.1 hg]
          have hz : TASK_FILE_NR - n = 0 := by omega
          rw [hz]
          rfl
      · exact ⟨_, _, dupfd_closed hold hopen, fun _ => rfl, fun h => absurd h (by decide)⟩

/-- A call does what it is to do exactly when its numbers are not negative, too large for `socket_get`, or of descriptors that `sys_dup2`
closes and does not open again. -/
theorem request_met (s : State) (p : Nat) (c : Request) : Meets s p c ↔ c.Proper s p := by
  cases c with
  | dup oldfd => exact dup_met s p oldfd
  | dup2 oldfd newfd => exact dup2_met s p oldfd newfd
  | checked fd => exact (not_congr fdCheck_wild).trans Int.not_lt
  | ioctl fd => exact (not_congr sysIoctl_wild).trans Int.not_lt
  | socket fd =>
    refine (not_congr slotAt_wild).trans ?_
    unfold Request.Proper
    omega

/-- Whether `sys_dup2` fails and the descriptor 3 is closed then. -/
def closesInVain (s : State) (oldfd newfd : Int) : Bool :=
  match sysDup2 s 1 oldfd newfd with
  | .ok (ret, t) => ret == -EINVAL && t.fds (1, 3) == none
  | .error _ => false

theorem closesInVain_spec (ho : s.Open 1 3) (h : closesInVain s oldfd newfd = true) :
    (∃ t, sysDup2 s 1 oldfd newfd = .ok (-EINVAL, t) ∧ t.fds (1, 3) = none) ∧ ¬ Meets s 1 (.dup2 oldfd newfd) := by
  unfold closesInVain at h
  split at h
  · rename_i ret t heq
    rw [Bool.and_eq_true, beq_iff_eq, beq_iff_eq] at h
    obtain ⟨rfl, hn⟩ := h
    refine ⟨⟨t, heq, hn⟩, ?_⟩
    rintro ⟨ret, u, hu, hneg, -⟩
    rw [heq] at hu
    cases hu
    rw [hneg (by decide)] at hn
    exact ho.2.2 hn
  · cases h

/-- A task with a pipe at the descriptors 3 and 4: `sys_dup2` closes 3 and fails, for 3 itself and for 9, which is not open; -1 and 16 are
looked up outside the table. -/
theorem dup2_closes : ∃ s, files.Reach Machine.Any s ∧ enabled s (.dup2 1 3 3) ∧ s.Open 1 3 ∧
    (∃ t, sysDup2 s 1 3 3 = .ok (-EINVAL, t) ∧ t.fds (1, 3) = none) ∧ ¬ Meets s 1 (.dup2 3 3) ∧
    (∃ t, sysDup2 s 1 9 3 = .ok (-EINVAL, t) ∧ t.fds (1, 3) = none) ∧ ¬ Meets s 1 (.dup2 9 3) ∧
    sysDup2 s 1 3 (-1) = .error .wild ∧ slotAt s 1 16 = .error .wild := by
  obtain ⟨s, hs, hf⟩ := looked [.pipe 1 0] (fun s => decide (files.enabled s (.dup2 1 3 3)) && decide (s.Open 1 3) && closesInVain s 3 3 &&
    closesInVain s 9 3 && (match sysDup2 s 1 3 (-1) with
      | .error .wild => true
      | _ => false)) (by decide +kernel)
  simp only [Bool.and_eq_true, decide_eq_true_eq] at hf
  obtain ⟨⟨⟨⟨h1, h2⟩, h3⟩, h4⟩, h5⟩ := hf
  obtain ⟨h3, h3'⟩ := closesInVain_spec h2 h3
  obtain ⟨h4, h4'⟩ := closesInVain_spec h2 h4
  refine ⟨s, hs, h1, h2, h3, h3', h4, h4', ?_, slotAt_wild.2 (.inr (by decide))⟩
  split at h5
  · assumption
  · cases h5

end Onix.Files
