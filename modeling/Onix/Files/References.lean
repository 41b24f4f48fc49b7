/-
The references over whole runs: every count is the number of places that point there, and a call that fails has changed nothing.
-/
import Onix.Files.Slots

namespace Onix.Files

open Onix.Lib

variable {s t : State} {a : Act} {p q fd f i j n : Nat} {k : Nat × Nat}

def Undoes (s : State) (a : Act) : Prop := Recycles s a ∧ Restores s a

/-- The counts of files and inodes. -/
structure Accounted (s : State) : Prop where
  range : ∀ k f, s.fds k = some f → k ∈ slots ∧ f < FILE_NR
  files : ∀ f < FILE_NR, (s.files f).count = tally slots s.fds f
  closed : ∀ f < FILE_NR, (s.files f).count = 0 → ∀ k, s.fds k ≠ some f
  inodes : ∀ i < INODE_NR, (s.inodes i).count = s.held i + s.refs i
  released : ∀ i < INODE_NR, (s.inodes i).type = .none ↔ s.held i + s.refs i = 0

theorem Books.accounted (h : Books [] s) : Accounted s := by
  have hcount : ∀ i < INODE_NR, (s.inodes i).count = s.held i + s.refs i := by
    intro i hi
    rw [h.inodeCount i hi, List.count_nil, Nat.add_zero]
  refine ⟨h.fdRange, h.fileCount, fun f _ hc k hk => ?_, hcount, fun i hi => ?_⟩
  · obtain ⟨-, -, hpos⟩ := h.pointed hk
    omega
  · rw [h.used i hi, hcount i hi]

/-- As long as every call finds what it needs to undo its steps, the counts are right, an inode stays in its slot until its last reference is
given back, and a call that fails leaves all as it was. -/
theorem references_kept (h : files.Reach Undoes s) : Accounted s ∧
    (∀ a e, enabled s a → Undoes s a → step s a = .error e → e = .panic) ∧
    (∀ a t, enabled s a → Undoes s a → step s a = .ok t → ∀ i < INODE_NR, (s.inodes i).type ≠ .none →
      (t.inodes i).type = .none ∧ t.held i + t.refs i = 0 ∨ Alike (s.inodes i) (t.inodes i) ∧ 0 < t.held i + t.refs i) ∧
    ∀ a ret t, enabled s a → Undoes s a → call s a = .ok (ret, t) → ret < 0 → t = s := by
  obtain ⟨hb, hq⟩ := reach_books (h.mono fun _ _ hu => hu.1)
  refine ⟨hb.accounted, fun a e he hu hs => ?_, fun a t he hu hs i hi hne => ?_, fun a ret t he hu hs hneg => ?_⟩
  · by_contra hne
    exact (step_kept hb hq he hu.1).not_bad hs hne
  · have hk := (step_kept hb hq he hu.1).of_ok hs
    have hrel := hk.books.accounted.released i hi
    rcases hk.moves.used i hne with ht | ha
    · exact .inl ⟨ht, hrel.1 ht⟩
    · refine .inr ⟨ha, Nat.pos_of_ne_zero fun h0 => ?_⟩
      have ht := hrel.2 h0
      rw [ha.1] at ht
      exact hne ht
  · exact ((call_kept hb hq he hu.1).of_ok hs).2 hu.2 hneg

/-- Task 1 makes a pipe. -/
theorem references_kept_pipe : ∃ s, files.Reach Undoes s ∧ (s.inodes 1).count = 2 ∧ Accounted s := by
  have h : (match step boot (.pipe 1 0) with
    | .ok s => (s.inodes 1).count
    | .error _ => 0) = 2 := by decide +kernel
  cases hs : step boot (.pipe 1 0) with
  | error e =>
    rw [hs] at h
    cases h
  | ok s =>
    rw [hs] at h
    have hr : files.Reach Undoes boot := ⟨boot, boot_start, .refl _⟩
    have hr := hr.next (.pipe 1 0) ⟨⟨3, 4, by decide, ⟨by decide, by decide, rfl⟩, ⟨by decide, by decide, rfl⟩⟩, trivial⟩ (by decide) hs
    exact ⟨s, hr, h, (references_kept hr).1⟩

/-- A task that has no descriptor left opens the root: the call fails and keeps two references. -/
theorem open_leaks : ∃ s t, files.Reach Machine.Any s ∧ enabled s (.open 1 (.whole ⟨0, none⟩) 0 0) ∧
    call s (.open 1 (.whole ⟨0, none⟩) 0 0) = .ok (-EMFILE, t) ∧ (s.inodes 0).count = 5 ∧ (t.inodes 0).count = 7 := by
  obtain ⟨s, hs, hf⟩ := looked (.open 1 (.whole ⟨0, none⟩) 0 0 :: List.replicate 15 (.dup 1 3))
    (fun s => decide (files.enabled s (.open 1 (.whole ⟨0, none⟩) 0 0)) && (s.inodes 0).count == 5 &&
      (call s (.open 1 (.whole ⟨0, none⟩) 0 0)).toOption.any fun r => r.1 == -EMFILE && (r.2.inodes 0).count == 7) (by decide +kernel)
  rw [Bool.and_eq_true, Bool.and_eq_true, decide_eq_true_eq, beq_iff_eq] at hf
  obtain ⟨⟨h1, h2⟩, h3⟩ := hf
  rcases heq : call s (.open 1 (.whole ⟨0, none⟩) 0 0) with e | ⟨ret, t⟩
  · rw [heq] at h3
    cases h3
  · simp only [heq, Except.toOption, Option.any_some, Bool.and_eq_true, beq_iff_eq] at h3
    exact ⟨s, t, hs, h1, h3.1 ▸ heq, h2, h3.2⟩

end Onix.Files
