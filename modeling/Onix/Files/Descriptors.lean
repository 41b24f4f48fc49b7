/-
Descriptors, files and tasks: what one that comes or goes does to the books.
-/
import Onix.Files.Inodes

namespace Onix.Files

open Option List Function Onix.Lib

variable {s t u : State} {debts : List Nat} {p q fd f i j n : Nat} {k : Nat × Nat}

/-! ## Only descriptors, files and tasks change -/

structure SameInodes (s t : State) : Prop where
  inodes : t.inodes = s.inodes
  heap : t.heap = s.heap
  pages : t.pages = s.pages
  next : t.next = s.next
  held : t.held = s.held

theorem SlotOk.of_same (h : SameInodes s t) (hs : SlotOk s i) : SlotOk t i := by
  unfold SlotOk at hs ⊢
  rw [h.inodes, h.heap, h.pages]
  exact hs

theorem Objects.of_same (h : SameInodes s t) (ho : Objects s) : Objects t := by
  refine ⟨h.heap ▸ ho.heap, h.pages ▸ ho.pages, ?_, ?_, ?_, ?_, ?_, ?_⟩
  · rw [h.heap, h.next]
    exact ho.heapLt
  · rw [h.pages, h.next]
    exact ho.pagesLt
  · rw [h.heap, h.inodes]
    exact ho.heapOf
  · rw [h.pages, h.inodes]
    exact ho.pagesOf
  · rw [h.inodes]
    exact ho.descs
  · rw [h.inodes]
    exact ho.bufs

theorem SameInodes.frees (h : SameInodes s t) : Frees s t := by
  intro i
  rw [h.inodes]
  exact .inr (.refl _)

theorem SameInodes.grows (h : SameInodes s t) : Grows s t := by
  intro i _
  rw [h.inodes]
  exact .refl _

theorem Books.sameInodes {debts' : List Nat} (h : Books debts s) (hs : SameInodes s t) (hfd : ∀ k f, t.fds k = some f → k ∈ slots ∧ f < FILE_NR)
    (hcount : ∀ f < FILE_NR, (t.files f).count = tally slots t.fds f)
    (hinode : ∀ f < FILE_NR, (t.files f).count ≠ 0 → ∃ i < INODE_NR, (t.files f).inode = some i)
    (htask : ∀ p x, t.tasks p = some x → p < TASK_NR ∧ x.ipwd < INODE_NR ∧ x.iroot < INODE_NR ∧ ∀ i, x.iexec = some i → i < INODE_NR)
    (hrefs : ∀ i < INODE_NR, t.refs i + debts'.count i = s.refs i + debts.count i)
    (hown : ∀ i < INODE_NR, Private (s.inodes i).type → ∀ h ∈ holders, t.holds h = some i → ∃ f, h = .file f) : Books debts' t := by
  refine ⟨hfd, hcount, hinode, htask, ?_, ?_, ?_, ?_, h.objects.of_same hs, ?_⟩
  · intro i hi
    rw [hs.inodes, hs.held, h.inodeCount i hi]
    have := hrefs i hi
    omega
  · rw [hs.inodes]
    exact h.used
  · exact fun i hi => (h.slot i hi).of_same hs
  · intro i hi hp
    rw [hs.inodes] at hp
    rw [hs.held]
    exact ⟨(h.own i hi hp).1, hown i hi hp⟩
  · rw [hs.inodes, hs.held]
    exact h.root

/-! ## A descriptor and a new file -/

def State.install (s : State) (p fd f : Nat) (x : File) : State := (s.setFd p fd (some f)).setFile f x

theorem holds_file {x : File} (h : s.files f = x) : s.holds (.file f) = if x.count = 0 then none else x.inode := by
  subst h
  rfl

theorem holds_install {x : File} (h : x.count ≠ 0) : (s.install p fd f x).holds = update s.holds (.file f) x.inode := by
  funext y
  by_cases hy : y = .file f
  · have hf : (s.install p fd f x).files f = x := update_self ..
    rw [hy, update_self, holds_file hf, if_neg h]
  · rw [update_of_ne hy]
    cases y with
    | file g =>
      have hg : g ≠ f := fun hg => hy (hg ▸ rfl)
      have hf : (s.install p fd f x).files g = s.files g := update_of_ne hg ..
      rw [holds_file hf]
      rfl
    | pwd _ => rfl
    | root _ => rfl
    | exec _ => rfl

theorem Books.install {x : File} (h : Books (i :: debts) s) (hi : i < INODE_NR) (hp : p < TASK_NR) (hfd : fd < TASK_FILE_NR)
    (hk : s.fds (p, fd) = none) (hf : f < FILE_NR) (hc : (s.files f).count = 0) (hx : x.count = 1) (hxi : x.inode = some i) :
    Books debts (s.install p fd f x) := by
  have hk' : (p, fd) ∈ slots := mem_slots.2 ⟨hp, hfd⟩
  have hx0 : x.count ≠ 0 := by omega
  have hnone : s.holds (.file f) = none := if_pos hc
  refine h.sameInodes ⟨rfl, rfl, rfl, rfl, rfl⟩ ?_ ?_ ?_ h.taskRange ?_ ?_
  · intro k g hg
    by_cases hkk : k = (p, fd)
    · have hg : update s.fds (p, fd) (some f) k = some g := hg
      rw [hkk, update_self] at hg
      cases hg
      rw [hkk]
      exact ⟨hk', hf⟩
    · refine h.fdRange k g ?_
      rw [← hg]
      exact (update_of_ne hkk _ _).symm
  · intro g hg
    have ht := tally_update (S := slots) (g := s.fds) (a := g) (v := some f) hk'
    rw [hk, if_neg (by simp)] at ht
    by_cases hgf : g = f
    · subst hgf
      rw [if_pos rfl, ← h.fileCount g hg, hc] at ht
      unfold State.install State.setFile State.setFd
      dsimp only
      rw [update_self, hx]
      omega
    · rw [if_neg (fun he => hgf (some.inj he).symm), ← h.fileCount g hg] at ht
      unfold State.install State.setFile State.setFd
      dsimp only
      rw [update_of_ne hgf]
      omega
  · intro g hg hgc
    unfold State.install State.setFile at hgc ⊢
    dsimp only at hgc ⊢
    by_cases hgf : g = f
    · rw [hgf, update_self]
      exact ⟨i, hi, hxi⟩
    · rw [update_of_ne hgf] at hgc ⊢
      exact h.fileInode g hg hgc
  · intro j hj
    unfold State.refs
    rw [holds_install hx0, hxi]
    have ht := tally_update (g := s.holds) (a := j) (v := some i) (file_mem.2 hf)
    rw [hnone, if_neg (by simp)] at ht
    by_cases hji : j = i
    · rw [hji, if_pos rfl] at ht
      rw [hji, count_cons_self]
      omega
    · rw [if_neg (fun he => hji (some.inj he).symm)] at ht
      rw [count_cons_of_ne (Ne.symm hji)]
      omega
  · intro j hj hpr y hy hyj
    rw [holds_install hx0] at hyj
    by_cases hyf : y = .file f
    · exact ⟨f, hyf⟩
    · rw [update_of_ne hyf] at hyj
      exact (h.own j hj hpr).2 y hy hyj

/-! ## A descriptor more -/

def State.point (s : State) (k : Nat × Nat) (f : Nat) : State :=
  { s with fds := Function.update s.fds k (some f) }.setFile f { s.files f with count := (s.files f).count + 1 }

theorem holds_recount {c : Nat} (h : (s.files f).count ≠ 0) (hc : c ≠ 0) :
    (s.setFile f { s.files f with count := c }).holds = s.holds := by
  funext y
  cases y with
  | file g =>
    by_cases hg : g = f
    · have hf : (s.setFile f { s.files f with count := c }).files f = { s.files f with count := c } := update_self ..
      rw [hg, holds_file hf, if_neg hc, holds_file rfl, if_neg h]
    · have hf : (s.setFile f { s.files f with count := c }).files g = s.files g := update_of_ne hg ..
      rw [holds_file hf]
      rfl
  | pwd _ => rfl
  | root _ => rfl
  | exec _ => rfl

theorem Books.point (h : Books debts s) (hk : k ∈ slots) (hnone : s.fds k = none) (hf : f < FILE_NR) (hc : (s.files f).count ≠ 0) :
    Books debts (s.point k f) := by
  have hholds : (s.point k f).holds = s.holds := holds_recount (s := { s with fds := update s.fds k (some f) }) hc (Nat.succ_ne_zero _)
  refine h.sameInodes ⟨rfl, rfl, rfl, rfl, rfl⟩ ?_ ?_ ?_ h.taskRange ?_ ?_
  · intro l g hg
    have hg : update s.fds k (some f) l = some g := hg
    by_cases hl : l = k
    · rw [hl, update_self] at hg
      cases hg
      exact ⟨hl ▸ hk, hf⟩
    · rw [update_of_ne hl] at hg
      exact h.fdRange l g hg
  · intro g hg
    have ht := tally_update (S := slots) (g := s.fds) (a := g) (v := some f) hk
    rw [hnone, if_neg (by simp)] at ht
    unfold State.point State.setFile
    dsimp only
    by_cases hgf : g = f
    · subst hgf
      rw [if_pos rfl, ← h.fileCount g hg] at ht
      rw [update_self]
      dsimp only
      omega
    · rw [if_neg (fun he => hgf (some.inj he).symm), ← h.fileCount g hg] at ht
      rw [update_of_ne hgf]
      omega
  · intro g hg hgc
    unfold State.point State.setFile at hgc ⊢
    dsimp only at hgc ⊢
    by_cases hgf : g = f
    · rw [hgf, update_self]
      exact h.fileInode f hf hc
    · rw [update_of_ne hgf] at hgc ⊢
      exact h.fileInode g hg hgc
  · intro j _
    unfold State.refs
    rw [hholds]
  · intro j hj hpr y hy hyj
    rw [hholds] at hyj
    exact (h.own j hj hpr).2 y hy hyj

/-! ## A descriptor less -/

def State.unpoint (s : State) (k : Nat × Nat) (f : Nat) : State :=
  { s with fds := Function.update s.fds k none }.setFile f { s.files f with count := (s.files f).count - 1 }

theorem Books.pointed (h : Books debts s) (hk : s.fds k = some f) : k ∈ slots ∧ f < FILE_NR ∧ 0 < (s.files f).count := by
  obtain ⟨h1, h2⟩ := h.fdRange k f hk
  refine ⟨h1, h2, ?_⟩
  rw [h.fileCount f h2]
  exact tally_pos.2 ⟨k, h1, hk⟩

theorem unpoint_tally (h : Books debts s) (hk : s.fds k = some f) (hg : n < FILE_NR) :
    ((s.unpoint k f).files n).count = tally slots (s.unpoint k f).fds n := by
  obtain ⟨hks, -, -⟩ := h.pointed hk
  have ht := tally_update (S := slots) (g := s.fds) (a := n) (v := none) hks
  rw [hk, if_neg (by simp : ¬ (none : Option Nat) = some n), ← h.fileCount n hg] at ht
  unfold State.unpoint State.setFile
  dsimp only
  by_cases hnf : n = f
  · subst hnf
    rw [if_pos rfl] at ht
    rw [update_self]
    dsimp only
    omega
  · rw [if_neg (fun he => hnf (some.inj he).symm)] at ht
    rw [update_of_ne hnf]
    omega

theorem unpoint_fds (h : Books debts s) {l : Nat × Nat} {g : Nat} (hl : (s.unpoint k f).fds l = some g) : l ∈ slots ∧ g < FILE_NR := by
  have hl : update s.fds k none l = some g := hl
  by_cases hlk : l = k
  · rw [hlk, update_self] at hl
    cases hl
  · rw [update_of_ne hlk] at hl
    exact h.fdRange l g hl

theorem Books.unpoint (h : Books debts s) (hk : s.fds k = some f) (hc : 2 ≤ (s.files f).count) : Books debts (s.unpoint k f) := by
  have hholds : (s.unpoint k f).holds = s.holds :=
    holds_recount (s := { s with fds := update s.fds k none }) (show (s.files f).count ≠ 0 by omega) (by omega)
  refine h.sameInodes ⟨rfl, rfl, rfl, rfl, rfl⟩ (fun l g hl => unpoint_fds h hl) (fun g hg => unpoint_tally h hk hg) ?_ h.taskRange ?_ ?_
  · intro g hg hgc
    unfold State.unpoint State.setFile at hgc ⊢
    dsimp only at hgc ⊢
    by_cases hgf : g = f
    · rw [hgf] at hg ⊢
      rw [update_self]
      exact h.fileInode f hg (by omega)
    · rw [update_of_ne hgf] at hgc ⊢
      exact h.fileInode g hg hgc
  · intro j _
    unfold State.refs
    rw [hholds]
  · intro j hj hpr y hy hyj
    rw [hholds] at hyj
    exact (h.own j hj hpr).2 y hy hyj

theorem Books.unpointLast (h : Books debts s) (hk : s.fds k = some f) (hc : (s.files f).count = 1) (hi : (s.files f).inode = some i) :
    Books (i :: debts) (s.unpoint k f) := by
  obtain ⟨-, hf, -⟩ := h.pointed hk
  have hfile : (s.unpoint k f).files f = { s.files f with count := (s.files f).count - 1 } := update_self ..
  have hholds : (s.unpoint k f).holds = update s.holds (.file f) none := by
    funext y
    by_cases hy : y = .file f
    · rw [hy, update_self, holds_file hfile, if_pos]
      rw [hc]
    · rw [update_of_ne hy]
      cases y with
      | file g =>
        have hg : (s.unpoint k f).files g = s.files g := update_of_ne (fun hg => hy (congrArg Holder.file hg)) ..
        rw [holds_file hg]
        rfl
      | pwd _ => rfl
      | root _ => rfl
      | exec _ => rfl
  refine h.sameInodes ⟨rfl, rfl, rfl, rfl, rfl⟩ (fun l g hl => unpoint_fds h hl) (fun g hg => unpoint_tally h hk hg) ?_ h.taskRange ?_ ?_
  · intro g hg hgc
    unfold State.unpoint State.setFile at hgc ⊢
    dsimp only at hgc ⊢
    by_cases hgf : g = f
    · rw [hgf, update_self, hc] at hgc
      exact absurd rfl hgc
    · rw [update_of_ne hgf] at hgc ⊢
      exact h.fileInode g hg hgc
  · intro j _
    unfold State.refs
    rw [hholds]
    have ht := tally_update (g := s.holds) (a := j) (v := none) (file_mem.2 hf)
    rw [holds_file rfl, if_neg (by omega : ¬ (s.files f).count = 0), hi, if_neg (by simp : ¬ (none : Option Nat) = some j)] at ht
    by_cases hji : j = i
    · rw [hji, if_pos rfl] at ht
      rw [hji, count_cons_self]
      omega
    · rw [if_neg (fun he => hji (some.inj he).symm)] at ht
      rw [count_cons_of_ne (Ne.symm hji)]
      omega
  · intro j hj hpr y hy hyj
    rw [hholds] at hyj
    by_cases hyf : y = .file f
    · exact ⟨f, hyf⟩
    · rw [update_of_ne hyf] at hyj
      exact (h.own j hj hpr).2 y hy hyj

/-! ## `fd_get` and `fd_put` -/

def State.Leads (s : State) (k : Nat × Nat) (i : Nat) : Prop := ∃ f, s.fds k = some f ∧ (s.files f).inode = some i

theorem Books.leads (h : Books debts s) (hl : s.Leads k i) : 0 < s.refs i := by
  obtain ⟨f, hf, hi⟩ := hl
  obtain ⟨-, h2, h3⟩ := h.pointed hf
  refine tally_pos.2 ⟨.file f, file_mem.2 h2, ?_⟩
  rw [holds_file rfl, if_neg (by omega), hi]

def State.Free (s : State) (p fd : Nat) : Prop := 3 ≤ fd ∧ fd < TASK_FILE_NR ∧ s.fds (p, fd) = none

theorem getFile_spec (s : State) :
    getFile s = .error .panic ∨
      ∃ f < FILE_NR, (s.files f).count = 0 ∧ getFile s = .ok (f, s.setFile f { s.files f with count := (s.files f).count + 1 }) := by
  unfold getFile
  cases hf : findFrom (fun f => (s.files f).count = 0) (FILE_NR - 3) 3 with
  | none => exact .inl rfl
  | some f =>
    obtain ⟨h1, h2, h3⟩ := findFrom_some hf
    exact .inr ⟨f, by omega, of_decide_eq_true h3, rfl⟩

theorem fdGet_spec (s : State) (p : Nat) :
    fdGet s p = .error .panic ∨ (fdGet s p = .ok (none, s) ∧ ∀ fd, ¬ s.Free p fd) ∨
      ∃ fd f, s.Free p fd ∧ f < FILE_NR ∧ (s.files f).count = 0 ∧
        fdGet s p = .ok (some (fd, f), s.install p fd f { s.files f with count := (s.files f).count + 1 }) := by
  unfold fdGet
  cases hf : findFrom (fun fd => s.fds (p, fd) = none) (TASK_FILE_NR - 3) 3 with
  | none =>
    refine .inr (.inl ⟨rfl, ?_⟩)
    rintro fd ⟨h1, h2, h3⟩
    exact of_decide_eq_false (findFrom_none hf h1 (by omega)) h3
  | some fd =>
    obtain ⟨h1, h2, h3⟩ := findFrom_some hf
    have h3 : s.fds (p, fd) = none := of_decide_eq_true h3
    rcases getFile_spec s with he | ⟨f, hf, hc, he⟩
    · dsimp only
      rw [he]
      exact .inl rfl
    · dsimp only
      rw [he]
      exact .inr (.inr ⟨fd, f, ⟨h1, by omega, h3⟩, hf, hc, rfl⟩)

theorem fdCheck_nat {fd : Nat} (h : fd < TASK_FILE_NR) : fdCheck s p fd = .ok (s.fds (p, fd)) := by
  unfold fdCheck
  rw [if_neg (by omega), if_neg (by omega)]
  rfl

theorem fdCheck_large {fd : Int} (h : (TASK_FILE_NR : Int) ≤ fd) : fdCheck s p fd = .ok none := if_pos h

theorem putFile_eq (hpos : 0 < (s.files f).count) (hi : (s.files f).inode = some i) :
    putFile (s.setFd p fd none) f =
      if (s.files f).count = 1 then iput (s.unpoint (p, fd) f) (some i) else .ok (s.unpoint (p, fd) f) := by
  have hfile : (s.unpoint (p, fd) f).files f = { s.files f with count := (s.files f).count - 1 } := update_self ..
  have hi' : ((s.unpoint (p, fd) f).files f).inode = some i := by
    rw [hfile]
    exact hi
  have hstep : putFile (s.setFd p fd none) f =
      if ((s.unpoint (p, fd) f).files f).count = 0 then iput (s.unpoint (p, fd) f) ((s.unpoint (p, fd) f).files f).inode
      else .ok (s.unpoint (p, fd) f) := by
    unfold putFile
    rw [assert_ok (show 0 < ((s.setFd p fd none).files f).count from hpos)]
    rfl
  rw [hstep, hi']
  by_cases hc : (s.files f).count = 1
  · rw [if_pos hc, if_pos]
    rw [hfile, hc]
  · rw [if_neg hc, if_neg]
    rw [hfile]
    dsimp only
    omega

theorem fdPut_eq {fd : Nat} (h : Books debts s) (hf : s.fds (p, fd) = some f) :
    ∃ i < INODE_NR, (s.files f).inode = some i ∧ fdPut s p fd =
      (if (s.files f).count = 1 then iput (s.unpoint (p, fd) f) (some i) else .ok (s.unpoint (p, fd) f)).map fun t => (0, t) := by
  obtain ⟨hks, hf', hpos⟩ := h.pointed hf
  obtain ⟨i, hi, hfi⟩ := h.fileInode f hf' (by omega)
  refine ⟨i, hi, hfi, ?_⟩
  rw [← putFile_eq hpos hfi]
  unfold fdPut
  rw [fdCheck_nat (mem_slots.1 hks).2, hf]
  dsimp only [bind, Except.bind]
  rw [assert_ok (by simp [hfi])]
  rw [Int.toNat_natCast]
  cases putFile (s.setFd p fd none) f <;> rfl

def State.Shared (s : State) (k : Nat × Nat) : Prop := ∀ i, s.Leads k i → (s.inodes i).type = .pipe → ∃ l, l ≠ k ∧ s.Leads l i

structure Closed (s : State) (k : Nat × Nat) (t : State) : Prop where
  fds : t.fds = Function.update s.fds k none
  inode : ∀ f, (t.files f).inode = (s.files f).inode
  tasks : t.tasks = s.tasks
  frees : Frees s t

theorem closed_unpoint (s : State) (k : Nat × Nat) (f : Nat) : Closed s k (s.unpoint k f) := by
  refine ⟨rfl, fun g => ?_, rfl, fun i => .inr (.refl _)⟩
  unfold State.unpoint State.setFile
  dsimp only
  by_cases hg : g = f
  · rw [hg, update_self]
  · rw [update_of_ne hg]

theorem fdPut_spec {fd : Nat} (h : Books debts s) (hf : s.fds (p, fd) = some f) (hp : s.Shared (p, fd)) :
    ∃ t, fdPut s p fd = .ok (0, t) ∧ Books debts t ∧ Closed s (p, fd) t := by
  obtain ⟨hks, hf', hpos⟩ := h.pointed hf
  obtain ⟨i, hi, hfi, heq⟩ := fdPut_eq h hf
  have hcl := closed_unpoint s (p, fd) f
  rw [heq]
  by_cases hc : (s.files f).count = 1
  · rw [if_pos hc]
    have hb := h.unpointLast hf hc hfi
    have hcount : (s.inodes i).type = .pipe → 2 ≤ (s.inodes i).count := by
      -- another descriptor leads to the pipe, and still does
      intro hty
      obtain ⟨l, hl, g, hg, hgi⟩ := hp i ⟨f, hf, hfi⟩ hty
      have hrefs := hb.leads ⟨g, (update_of_ne hl ..).trans hg, (hcl.inode g).trans hgi⟩
      have hic : (s.inodes i).count = _ := hb.inodeCount i hi
      rw [count_cons_self] at hic
      omega
    obtain ⟨t, ht, ho, hfr, hbt⟩ := iput_spec hb hi hcount
    refine ⟨t, by rw [ht]; rfl, hbt, ⟨ho.fds.trans hcl.fds, fun g => ?_, ho.tasks.trans hcl.tasks, hcl.frees.trans hfr⟩⟩
    rw [ho.files]
    exact hcl.inode g
  · rw [if_neg hc]
    exact ⟨_, rfl, h.unpoint hf (by omega), hcl⟩

theorem fdPut_bad {fd : Int} (hfd : 0 ≤ fd) (h : (TASK_FILE_NR : Int) ≤ fd ∨ s.fds (p, fd.toNat) = none) : fdPut s p fd = .ok (-EINVAL, s) := by
  unfold fdPut
  have hcheck : fdCheck s p fd = .ok none := by
    by_cases hl : (TASK_FILE_NR : Int) ≤ fd
    · exact fdCheck_large hl
    · have hnone := h.resolve_left hl
      obtain ⟨n, rfl⟩ := Int.eq_ofNat_of_zero_le hfd
      rw [Int.toNat_natCast] at hnone
      rw [fdCheck_nat (by omega), hnone]
  rw [hcheck]
  rfl

theorem fdPut_lastPipe {fd : Nat} (h : Books [] s) (hl : s.Leads (p, fd) i) (hi : i < INODE_NR) (hty : (s.inodes i).type = .pipe)
    (hlast : ∀ k, k ≠ (p, fd) → ¬ s.Leads k i) : fdPut s p fd = .error .assertion := by
  obtain ⟨f, hf, hfi⟩ := hl
  obtain ⟨hks, hf', hpos⟩ := h.pointed hf
  obtain ⟨j, hj, hfj, heq⟩ := fdPut_eq h hf
  obtain rfl : i = j := some.inj (hfi.symm.trans hfj)
  have hcl := closed_unpoint s (p, fd) f
  have honly : ∀ l g, s.fds l = some g → (s.files g).inode = some i → l = (p, fd) := by
    intro l g hg hgi
    by_contra hne
    exact hlast l hne ⟨g, hg, hgi⟩
  have hzero := tally_update (S := slots) (g := s.fds) (a := f) (v := none) hks
  have hnone : tally slots (update s.fds (p, fd) none) f = 0 := by
    refine tally_eq_zero fun l _ hl => ?_
    by_cases hlk : l = (p, fd)
    · rw [hlk, update_self] at hl
      cases hl
    · rw [update_of_ne hlk] at hl
      exact hlk (honly l f hl hfi)
  rw [hnone, hf, if_pos rfl, if_neg (by simp : ¬ (none : Option Nat) = some f), ← h.fileCount f hf'] at hzero
  have hc : (s.files f).count = 1 := by omega
  have hb := h.unpointLast hf hc hfi
  rw [heq, if_pos hc, iput_lastPipe hb hi ?_ hty]
  · rfl
  · -- nothing else holds the pipe
    have hrefs : (s.unpoint (p, fd) f).refs i = 0 := by
      refine tally_eq_zero fun y hy hyi => ?_
      obtain ⟨g, rfl⟩ := (hb.own i hi (.inl hty)).2 y hy hyi
      rw [holds_file rfl] at hyi
      split at hyi
      · cases hyi
      · rename_i hgc
        rw [hb.fileCount g (file_mem.1 hy)] at hgc
        obtain ⟨l, -, hl⟩ := tally_pos.1 (Nat.pos_of_ne_zero hgc)
        have hl : update s.fds (p, fd) none l = some g := hl
        by_cases hlk : l = (p, fd)
        · rw [hlk, update_self] at hl
          cases hl
        · rw [update_of_ne hlk] at hl
          exact hlk (honly l g hl ((hcl.inode g).symm.trans hyi))
    have hic := hb.inodeCount i hi
    rw [count_cons_self, hrefs, (hb.own i hi (.inl hty)).1] at hic
    rw [hic]
    rfl

/-! ## Tasks -/

def owed : Option Task → List Nat
  | none => []
  | some x => x.ipwd :: x.iroot :: x.iexec.toList

def State.setTask (s : State) (q : Nat) (y : Option Task) : State := { s with tasks := Function.update s.tasks q y }

theorem holds_setTask (s : State) (q : Nat) (y : Option Task) : (s.setTask q y).holds =
    update (update (update s.holds (.pwd q) (y.map Task.ipwd)) (.root q) (y.map Task.iroot)) (.exec q)
      (y.bind Task.iexec) := by
  funext x
  have hother : ∀ p, p ≠ q → (s.setTask q y).tasks p = s.tasks p := fun p hp => update_of_ne hp ..
  have hsame : (s.setTask q y).tasks q = y := update_self ..
  cases x with
  | file f =>
    rfl
  | pwd p =>
    by_cases hp : p = q
    · subst hp
      simp [State.holds, hsame]
    · simp [State.holds, hother p hp, hp]
  | root p =>
    by_cases hp : p = q
    · subst hp
      simp [State.holds, hsame]
    · simp [State.holds, hother p hp, hp]
  | exec p =>
    by_cases hp : p = q
    · subst hp
      simp [State.holds, hsame]
    · simp [State.holds, hother p hp, hp]

theorem count_owed (y : Option Task) (j : Nat) : (owed y).count j =
    (if y.map Task.ipwd = some j then 1 else 0) + (if y.map Task.iroot = some j then 1 else 0) +
      (if y.bind Task.iexec = some j then 1 else 0) := by
  cases y with
  | none => rfl
  | some x =>
    unfold owed
    rw [count_cons, count_cons]
    cases hx : x.iexec with
    | none => simp [hx]; omega
    | some i => simp [hx, count_singleton]; omega

theorem refs_setTask (hq : q < TASK_NR) (y : Option Task) :
    (s.setTask q y).refs j + (owed (s.tasks q)).count j = s.refs j + (owed y).count j := by
  unfold State.refs
  rw [holds_setTask, count_owed, count_owed]
  have h1 := tally_update (g := s.holds) (a := j) (v := y.map Task.ipwd) (pwd_mem.2 hq)
  have h2 := tally_update (g := update s.holds (.pwd q) (y.map Task.ipwd)) (a := j) (v := y.map Task.iroot) (root_mem.2 hq)
  have h3 := tally_update (g := update (update s.holds (.pwd q) (y.map Task.ipwd)) (.root q) (y.map Task.iroot)) (a := j)
    (v := y.bind Task.iexec) (exec_mem.2 hq)
  rw [update_of_ne (by simp)] at h2
  rw [update_of_ne (by simp), update_of_ne (by simp)] at h3
  have e1 : s.holds (.pwd q) = (s.tasks q).map Task.ipwd := rfl
  have e2 : s.holds (.root q) = (s.tasks q).map Task.iroot := rfl
  have e3 : s.holds (.exec q) = (s.tasks q).bind Task.iexec := rfl
  rw [e1] at h1
  rw [e2] at h2
  rw [e3] at h3
  omega

theorem Books.setTask {debts' : List Nat} {y : Option Task} (h : Books debts s) (hq : q < TASK_NR)
    (hy : ∀ i ∈ owed y, i < INODE_NR ∧ ¬ Private (s.inodes i).type)
    (hdebts : ∀ j, debts'.count j + (owed y).count j = debts.count j + (owed (s.tasks q)).count j) : Books debts' (s.setTask q y) := by
  refine h.sameInodes ⟨rfl, rfl, rfl, rfl, rfl⟩ h.fdRange h.fileCount h.fileInode ?_ ?_ ?_
  · intro p x hx
    by_cases hp : p = q
    · have hx : update s.tasks q y p = some x := hx
      rw [hp, update_self] at hx
      subst hx
      refine ⟨hp ▸ hq, (hy x.ipwd (by simp [owed])).1, (hy x.iroot (by simp [owed])).1, fun i hi => (hy i ?_).1⟩
      simp [owed, hi]
    · have hx : update s.tasks q y p = some x := hx
      rw [update_of_ne hp] at hx
      exact h.taskRange p x hx
  · intro j _
    have h1 := refs_setTask (s := s) (j := j) hq y
    have h2 := hdebts j
    omega
  · intro j hj hpr z hz hzj
    by_contra hne
    -- a task of old or the new one would hold what a pipe or a socket is
    have hz' : z = .pwd q ∨ z = .root q ∨ z = .exec q := by
      by_contra hno
      have h1 : z ≠ .pwd q := fun he => hno (.inl he)
      have h2 : z ≠ .root q := fun he => hno (.inr (.inl he))
      have h3 : z ≠ .exec q := fun he => hno (.inr (.inr he))
      rw [holds_setTask, update_of_ne h3, update_of_ne h2, update_of_ne h1] at hzj
      exact hne ((h.own j hj hpr).2 z hz hzj)
    refine (hy j ?_).2 hpr
    rw [holds_setTask] at hzj
    rcases hz' with rfl | rfl | rfl
    · obtain ⟨x, rfl, rfl⟩ : ∃ x, y = some x ∧ x.ipwd = j := by simpa using hzj
      simp [owed]
    · obtain ⟨x, rfl, rfl⟩ : ∃ x, y = some x ∧ x.iroot = j := by simpa using hzj
      simp [owed]
    · rw [update_self] at hzj
      obtain ⟨x, rfl, hx⟩ := bind_eq_some_iff.1 hzj
      simp [owed, hx]

theorem Books.owed (h : Books debts s) {x : Task} (hx : s.tasks p = some x) (hi : i ∈ owed (some x)) :
    i < INODE_NR ∧ ¬ Private (s.inodes i).type := by
  obtain ⟨hp, h1, h2, h3⟩ := h.taskRange p x hx
  have hown : ∀ y ∈ holders, s.holds y = some i → i < INODE_NR → Private (s.inodes i).type → ∃ f, y = .file f :=
    fun y hy hyi hi hpr => (h.own i hi hpr).2 y hy hyi
  simp only [Files.owed, mem_cons, mem_toList] at hi
  rcases hi with rfl | rfl | hi
  · refine ⟨h1, fun hpr => ?_⟩
    obtain ⟨f, hf⟩ := hown (.pwd p) (pwd_mem.2 hp) (by simp [State.holds, hx]) h1 hpr
    cases hf
  · refine ⟨h2, fun hpr => ?_⟩
    obtain ⟨f, hf⟩ := hown (.root p) (root_mem.2 hp) (by simp [State.holds, hx]) h2 hpr
    cases hf
  · refine ⟨h3 i hi, fun hpr => ?_⟩
    obtain ⟨f, hf⟩ := hown (.exec p) (exec_mem.2 hp) (by simp [State.holds, hx, hi]) (h3 i hi) hpr
    cases hf

end Onix.Files
