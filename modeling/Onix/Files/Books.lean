/-
The books of descriptors and inodes: every count is the number of places that point there, and what a single change does to it. While a
call is under way it may hold references that no place shows yet; they are listed as its debts.
-/
import Onix.Files.Model

namespace Onix.Files

open Onix.Lib

variable {s t : State} {debts : List Nat} {p q fd f i j n : Nat}

/-! ## Who points where -/

@[irreducible] def slots : Finset (Nat × Nat) := Finset.range TASK_NR ×ˢ Finset.range TASK_FILE_NR

inductive Holder
  | file (f : Nat)
  | pwd (p : Nat)
  | root (p : Nat)
  | exec (p : Nat)
  deriving DecidableEq

@[irreducible] def holders : Finset Holder :=
  (Finset.range FILE_NR).image .file ∪ (Finset.range TASK_NR).image .pwd ∪ (Finset.range TASK_NR).image .root ∪
    (Finset.range TASK_NR).image .exec

theorem mem_slots : (p, fd) ∈ slots ↔ p < TASK_NR ∧ fd < TASK_FILE_NR := by
  unfold slots
  rw [Finset.mem_product, Finset.mem_range, Finset.mem_range]

@[simp] theorem file_mem : Holder.file f ∈ holders ↔ f < FILE_NR := by
  simp [holders]

@[simp] theorem pwd_mem : Holder.pwd p ∈ holders ↔ p < TASK_NR := by
  simp [holders]

@[simp] theorem root_mem : Holder.root p ∈ holders ↔ p < TASK_NR := by
  simp [holders]

@[simp] theorem exec_mem : Holder.exec p ∈ holders ↔ p < TASK_NR := by
  simp [holders]

def State.holds (s : State) : Holder → Option Nat
  | .file f => if (s.files f).count = 0 then none else (s.files f).inode
  | .pwd p => (s.tasks p).map Task.ipwd
  | .root p => (s.tasks p).map Task.iroot
  | .exec p => (s.tasks p).bind Task.iexec

def State.refs (s : State) (i : Nat) : Nat := tally holders s.holds i

/-! ## The books -/

def Disk (x : FsType) : Prop := x = .minix ∨ x = .iso9660

def Private (x : FsType) : Prop := x = .pipe ∨ x = .socket

def SlotOk (s : State) (i : Nat) : Prop :=
  let x := s.inodes i
  match x.type with
  | .none => x.Clean
  | .pipe => (∃ d ∈ s.heap, x.desc = some d) ∧ (∃ b ∈ s.pages, x.buf = some b) ∧ x.super = none ∧ x.op = some .pipe ∧
      x.rxwaiter = none ∧ x.txwaiter = none
  | .socket => (∃ d ∈ s.heap, x.desc = some d) ∧ x.buf = none ∧ x.super = none ∧ x.op = some .socket ∧
      x.rxwaiter = none ∧ x.txwaiter = none
  | .minix => x.op = some .minix ∧ x.rxwaiter = none ∧ x.txwaiter = none
  | .iso9660 => x.op = some .iso9660 ∧ x.rxwaiter = none ∧ x.txwaiter = none

/-- What is allocated belongs to a pipe or a socket, and to one only. -/
structure Objects (s : State) : Prop where
  heap : s.heap.Nodup
  pages : s.pages.Nodup
  heapLt : ∀ x ∈ s.heap, x < s.next
  pagesLt : ∀ x ∈ s.pages, x < s.next
  heapOf : ∀ x ∈ s.heap, ∃ i < INODE_NR, Private (s.inodes i).type ∧ (s.inodes i).desc = some x
  pagesOf : ∀ x ∈ s.pages, ∃ i < INODE_NR, (s.inodes i).type = .pipe ∧ (s.inodes i).buf = some x
  descs : ∀ i < INODE_NR, ∀ j < INODE_NR, ∀ x, Private (s.inodes i).type → Private (s.inodes j).type → (s.inodes i).desc = some x →
    (s.inodes j).desc = some x → i = j
  bufs : ∀ i < INODE_NR, ∀ j < INODE_NR, ∀ x, (s.inodes i).type = .pipe → (s.inodes j).type = .pipe → (s.inodes i).buf = some x →
    (s.inodes j).buf = some x → i = j

structure Books (debts : List Nat) (s : State) : Prop where
  fdRange : ∀ k f, s.fds k = some f → k ∈ slots ∧ f < FILE_NR
  fileCount : ∀ f < FILE_NR, (s.files f).count = tally slots s.fds f
  fileInode : ∀ f < FILE_NR, (s.files f).count ≠ 0 → ∃ i < INODE_NR, (s.files f).inode = some i
  taskRange : ∀ p x, s.tasks p = some x → p < TASK_NR ∧ x.ipwd < INODE_NR ∧ x.iroot < INODE_NR ∧ ∀ i, x.iexec = some i → i < INODE_NR
  inodeCount : ∀ i < INODE_NR, (s.inodes i).count = s.held i + s.refs i + debts.count i
  used : ∀ i < INODE_NR, (s.inodes i).type = .none ↔ (s.inodes i).count = 0
  slot : ∀ i < INODE_NR, SlotOk s i
  own : ∀ i < INODE_NR, Private (s.inodes i).type → s.held i = 0 ∧ ∀ h ∈ holders, s.holds h = some i → ∃ f, h = .file f
  objects : Objects s
  root : Disk (s.inodes 0).type ∧ 0 < s.held 0

def Quiet (s : State) : Prop := ∀ p, s.tasks p = none → ∀ fd, s.fds (p, fd) = none

/-! ## One inode -/

/-- The changes of one slot that leave all else as it is. -/
structure OneSlot (s : State) (i : Nat) (t : State) : Prop where
  other : ∀ j, j ≠ i → t.inodes j = s.inodes j
  files : t.files = s.files
  fds : t.fds = s.fds
  tasks : t.tasks = s.tasks
  held : t.held = s.held

theorem OneSlot.refs (h : OneSlot s i t) : t.refs j = s.refs j := by
  apply tally_congr
  intro x _
  unfold State.holds
  rw [h.files, h.tasks]

theorem OneSlot.holds (h : OneSlot s i t) : t.holds = s.holds := by
  funext x
  unfold State.holds
  rw [h.files, h.tasks]

theorem OneSlot.setInode (s : State) (i : Nat) (x : Inode) : OneSlot s i (s.setInode i x) :=
  ⟨fun _ hj => Function.update_of_ne hj _ _, rfl, rfl, rfl, rfl⟩

@[simp] theorem setInode_same (s : State) (i : Nat) (x : Inode) : (s.setInode i x).inodes i = x := Function.update_self ..

theorem SlotOk.other (h : OneSlot s i t) (hj : j ≠ i) (hs : SlotOk s j)
    (hheap : ∀ x, Private (s.inodes j).type → (s.inodes j).desc = some x → x ∈ s.heap → x ∈ t.heap)
    (hpages : ∀ x, (s.inodes j).type = .pipe → (s.inodes j).buf = some x → x ∈ s.pages → x ∈ t.pages) : SlotOk t j := by
  unfold SlotOk at hs ⊢
  rw [h.other j hj]
  dsimp only at hs ⊢
  cases hty : (s.inodes j).type <;> rw [hty] at hs hheap hpages <;> dsimp only at hs ⊢
  case pipe =>
    obtain ⟨⟨d, hd, hd'⟩, ⟨b, hb, hb'⟩, hrest⟩ := hs
    exact ⟨⟨d, hheap d (.inl rfl) hd' hd, hd'⟩, ⟨b, hpages b rfl hb' hb, hb'⟩, hrest⟩
  case socket =>
    obtain ⟨⟨d, hd, hd'⟩, hrest⟩ := hs
    exact ⟨⟨d, hheap d (.inr rfl) hd' hd, hd'⟩, hrest⟩
  all_goals exact hs

theorem private_ne {x : FsType} (h : Private x) : x ≠ .none := by
  rintro rfl
  rcases h with h | h <;> cases h

theorem disk_not_private {x : FsType} (h : Disk x) : ¬ Private x := by
  rintro (rfl | rfl) <;> rcases h with h | h <;> cases h

theorem Books.oneSlot {debts' : List Nat} (h : Books debts s) (ho : OneSlot s i t)
    (hcount : (t.inodes i).count = s.held i + s.refs i + debts'.count i) (hdebts : ∀ j, j ≠ i → debts'.count j = debts.count j)
    (hused : (t.inodes i).type = .none ↔ (t.inodes i).count = 0) (hslot : SlotOk t i)
    (hheap : ∀ j < INODE_NR, j ≠ i → ∀ x, Private (s.inodes j).type → (s.inodes j).desc = some x → x ∈ s.heap → x ∈ t.heap)
    (hpages : ∀ j < INODE_NR, j ≠ i → ∀ x, (s.inodes j).type = .pipe → (s.inodes j).buf = some x → x ∈ s.pages → x ∈ t.pages)
    (hown : Private (t.inodes i).type → s.held i = 0 ∧ ∀ h ∈ holders, s.holds h = some i → ∃ f, h = .file f)
    (hobjects : Objects t) (hroot : i = 0 → Disk (t.inodes 0).type) : Books debts' t := by
  refine ⟨?_, ?_, ?_, ?_, ?_, ?_, ?_, ?_, hobjects, ?_⟩
  · rw [ho.fds]
    exact h.fdRange
  · rw [ho.fds, ho.files]
    exact h.fileCount
  · rw [ho.files]
    exact h.fileInode
  · rw [ho.tasks]
    exact h.taskRange
  · intro j hj
    rw [ho.held, ho.refs]
    by_cases hji : j = i
    · rw [hji]
      exact hcount
    · rw [ho.other j hji, hdebts j hji]
      exact h.inodeCount j hj
  · intro j hj
    by_cases hji : j = i
    · rw [hji]
      exact hused
    · rw [ho.other j hji]
      exact h.used j hj
  · intro j hj
    by_cases hji : j = i
    · rw [hji]
      exact hslot
    · exact (h.slot j hj).other ho hji (hheap j hj hji) (hpages j hj hji)
  · intro j hj hp
    rw [ho.held, ho.holds]
    by_cases hji : j = i
    · rw [hji] at hp ⊢
      exact hown hp
    · rw [ho.other j hji] at hp
      exact h.own j hj hp
  · rw [ho.held]
    refine ⟨?_, h.root.2⟩
    by_cases h0 : i = 0
    · exact hroot h0
    · rw [ho.other 0 (Ne.symm h0)]
      exact h.root.1

theorem Objects.recount {c : Nat} (h : Objects s) : Objects (s.setInode i { s.inodes i with count := c }) := by
  have hsame : ∀ j, ((s.setInode i { s.inodes i with count := c }).inodes j).type = (s.inodes j).type ∧
      ((s.setInode i { s.inodes i with count := c }).inodes j).desc = (s.inodes j).desc ∧
      ((s.setInode i { s.inodes i with count := c }).inodes j).buf = (s.inodes j).buf := by
    intro j
    by_cases hji : j = i
    · rw [hji, setInode_same]
      exact ⟨rfl, rfl, rfl⟩
    · rw [(OneSlot.setInode s i _).other j hji]
      exact ⟨rfl, rfl, rfl⟩
  refine ⟨h.heap, h.pages, h.heapLt, h.pagesLt, ?_, ?_, ?_, ?_⟩
  · intro x hx
    obtain ⟨j, hj, h1, h2⟩ := h.heapOf x hx
    refine ⟨j, hj, ?_, ?_⟩
    · rw [(hsame j).1]
      exact h1
    · rw [(hsame j).2.1]
      exact h2
  · intro x hx
    obtain ⟨j, hj, h1, h2⟩ := h.pagesOf x hx
    refine ⟨j, hj, ?_, ?_⟩
    · rw [(hsame j).1]
      exact h1
    · rw [(hsame j).2.2]
      exact h2
  · intro j hj k hk x
    rw [(hsame j).1, (hsame k).1, (hsame j).2.1, (hsame k).2.1]
    exact h.descs j hj k hk x
  · intro j hj k hk x
    rw [(hsame j).1, (hsame k).1, (hsame j).2.2, (hsame k).2.2]
    exact h.bufs j hj k hk x

theorem SlotOk.recount {c : Nat} (h : SlotOk s i) : SlotOk (s.setInode i { s.inodes i with count := c }) i := by
  unfold SlotOk at h ⊢
  rw [setInode_same]
  exact h

theorem Books.recount {debts' : List Nat} {c : Nat} (h : Books debts s) (hi : i < INODE_NR) (hc : c = s.held i + s.refs i + debts'.count i)
    (hdebts : ∀ j, j ≠ i → debts'.count j = debts.count j) (hne : (s.inodes i).count ≠ 0) (hc0 : c ≠ 0) :
    Books debts' (s.setInode i { s.inodes i with count := c }) := by
  have htype : (s.inodes i).type ≠ .none := fun ht => hne ((h.used i hi).1 ht)
  refine h.oneSlot (OneSlot.setInode s i _) ?_ hdebts ?_ (h.slot i hi).recount (fun _ _ _ _ _ _ hx => hx) (fun _ _ _ _ _ _ hx => hx) ?_
    h.objects.recount ?_
  · rw [setInode_same]
    exact hc
  · rw [setInode_same]
    exact ⟨fun ht => absurd ht htype, fun ht => absurd ht hc0⟩
  · rw [setInode_same]
    exact h.own i hi
  · rintro rfl
    exact h.root.1

theorem Books.hold (h : Books debts s) (hi : i < INODE_NR) (hne : (s.inodes i).count ≠ 0) : Books (i :: debts) (s.hold i) := by
  refine h.recount hi ?_ ?_ hne (Nat.succ_ne_zero _)
  · rw [h.inodeCount i hi, List.count_cons_self]
    exact Nat.add_assoc _ _ _
  · intro j hj
    exact List.count_cons_of_ne (Ne.symm hj)

end Onix.Files
