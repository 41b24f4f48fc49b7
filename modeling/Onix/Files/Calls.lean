/-
What each call does to the books, as long as none of the paths is taken on which the source gives up without undoing what it did.
-/
import Onix.Files.Descriptors

namespace Onix.Files

open Function Onix.Lib

variable {s t u : State} {debts : List Nat} {p q fd f i j n : Nat} {k : Nat × Nat} {ret : Int}

def Bad (e : Stop) : Prop := e ≠ .panic

theorem sat_panic {α : Type} {Q : α → Prop} : Sat Bad (.error .panic : Except Stop α) Q := fun h => h rfl

structure Kept (s t : State) : Prop where
  books : Books [] t
  quiet : Quiet t
  moves : Moves s t

theorem Moves.refl (s : State) : Moves s s := (Frees.refl s).moves

theorem Quiet.of (h : Quiet s) (htasks : t.tasks = s.tasks) (hfds : ∀ k, t.fds k = s.fds k ∨ t.fds k = none ∨ s.tasks k.1 ≠ none) : Quiet t := by
  intro p hp fd
  rw [htasks] at hp
  rcases hfds (p, fd) with h1 | h1 | h1
  · rw [h1]
    exact h p hp fd
  · exact h1
  · exact absurd hp h1

theorem Quiet.install {x : File} (h : Quiet s) (hp : s.tasks p ≠ none) : Quiet (s.install p fd f x) := by
  refine h.of rfl fun k => ?_
  by_cases hk : k = (p, fd)
  · rw [hk]
    exact .inr (.inr hp)
  · exact .inl (update_of_ne hk ..)

theorem Books.live (h : Books debts s) (hp : s.tasks p ≠ none) : p < TASK_NR := by
  obtain ⟨x, hx⟩ := Option.ne_none_iff_exists'.1 hp
  exact (h.taskRange p x hx).1

theorem install_setFile (s : State) (p fd f : Nat) (x y : File) : (s.install p fd f x).setFile f y = s.install p fd f y := by
  unfold State.install State.setFile
  rw [update_idem]

theorem install_inodes (s : State) (p fd f : Nat) (x : File) : SameInodes s (s.install p fd f x) := ⟨rfl, rfl, rfl, rfl, rfl⟩

/-! ## `sys_open` -/

theorem openFile_spec {d flags size : Nat} (hs : Quiet s) (hg : Grows s u) (hfds : u.fds = s.fds) (htasks : u.tasks = s.tasks)
    (hb : Books [i, d] u) (hi : i < INODE_NR) (hd : d < INODE_NR) (hdisk : Disk (u.inodes d).type) (hp : s.tasks p ≠ none)
    (hfree : ∃ fd, s.Free p fd) : Sat Bad (openFile u p i d flags size) fun x => Kept s x.2 ∧ 0 ≤ x.1 := by
  have hpu : u.tasks p ≠ none := htasks ▸ hp
  unfold openFile
  rcases fdGet_spec u p with he | ⟨he, hno⟩ | ⟨fd, f, hfd, hf, hc, he⟩
  · rw [he]
    exact sat_panic
  · obtain ⟨fd, h1, h2, h3⟩ := hfree
    exact absurd ⟨h1, h2, hfds ▸ h3⟩ (hno fd)
  · rw [he]
    dsimp only [bind, Except.bind]
    rw [install_setFile]
    generalize hx : (⟨some i, 1, flags, if flags &&& 0o2000 ≠ 0 then size else 0⟩ : File) = x
    have hb1 : Books [d] (u.install p fd f x) := hb.install hi (hb.live hpu) hfd.2.1 hfd.2.2 hf hc (hx ▸ rfl) (hx ▸ rfl)
    have hpipe : ((u.install p fd f x).inodes d).type = .pipe → 2 ≤ ((u.install p fd f x).inodes d).count := by
      intro hty
      have hty : (u.inodes d).type = .pipe := hty
      rw [hty] at hdisk
      rcases hdisk with hdisk | hdisk <;> cases hdisk
    obtain ⟨t, ht, ho, hfr, hbt⟩ := iput_spec hb1 hd hpipe
    rw [ht]
    have hkeeps := ho.keeps (show ¬ Private (u.inodes d).type from disk_not_private hdisk)
    refine ⟨⟨hbt, ?_, (hg.trans (install_inodes u p fd f x).grows).frees hfr hkeeps⟩, Int.natCast_nonneg fd⟩
    have hq : Quiet u := hs.of htasks fun k => .inl (by rw [hfds])
    exact (hq.install hpu).of ho.tasks fun k => .inl (by rw [ho.fds])

theorem Found.Ok.disk {x : Found} (h : x.Ok s) : Disk ((x.take s).inodes x.slot).type := by
  obtain ⟨-, h⟩ := h
  unfold Found.take
  cases hf : x.fresh with
  | none =>
    rw [hf] at h
    unfold State.hold
    rw [setInode_same]
    exact h
  | some y =>
    rw [hf] at h
    rw [setInode_same]
    exact h.2.1

theorem sysOpen_spec {path : Path} {flags size : Nat} (h : Books [] s) (hq : Quiet s) (hp : s.tasks p ≠ none) (hpath : path.Ok s)
    (hfree : (∀ dir err, path ≠ .fails dir err) → path ≠ .nothing → ∃ fd, s.Free p fd) :
    Sat Bad (sysOpen s p path flags size) fun x => Kept s x.2 ∧ (x.1 < 0 → x.2 = s) := by
  unfold sysOpen
  cases path with
  | nothing => exact ⟨⟨h, hq, .refl s⟩, fun _ => rfl⟩
  | fails dir err =>
    dsimp only
    rw [iput_take h hpath.1]
    exact ⟨⟨h, hq, .refl s⟩, fun _ => rfl⟩
  | whole dir =>
    obtain ⟨hb, hg⟩ := h.take hpath
    have ho := dir.take_oneSlot s
    have hpos := (hb.due hpath.1).1
    have ho2 : OneSlot (dir.take s) dir.slot ((dir.take s).hold dir.slot) := OneSlot.setInode ..
    have halike : Alike ((dir.take s).inodes dir.slot) (((dir.take s).hold dir.slot).inodes dir.slot) := by
      unfold State.hold
      rw [setInode_same]
      exact ⟨rfl, rfl, rfl⟩
    refine (openFile_spec hq (hg.trans (ho2.grows fun _ => halike)) (ho2.fds.trans ho.fds) (ho2.tasks.trans ho.tasks)
      (hb.hold hpath.1 (by omega)) hpath.1 hpath.1 ?_ hp (hfree (fun _ _ hn => nomatch hn) (fun hn => nomatch hn))).mono ?_
    · rw [halike.1]
      exact hpath.disk
    · intro x hx
      exact ⟨hx.1, fun hneg => absurd hx.2 (by omega)⟩
  | file dir ino =>
    obtain ⟨hb, hg⟩ := h.take hpath.1
    obtain ⟨hb2, hg2⟩ := hb.take hpath.2
    have ho := dir.take_oneSlot s
    have ho2 := ino.take_oneSlot (dir.take s)
    have hd := hpath.1.disk
    refine (openFile_spec hq (hg.trans hg2) (ho2.fds.trans ho.fds) (ho2.tasks.trans ho.tasks) hb2 hpath.2.1 hpath.1.1 ?_ hp
      (hfree (fun _ _ hn => nomatch hn) (fun hn => nomatch hn))).mono ?_
    · rw [(hg2 dir.slot (hb.due hpath.1.1).2).1]
      exact hd
    · intro x hx
      exact ⟨hx.1, fun hneg => absurd hx.2 (by omega)⟩

/-! ## `sys_dup` and `sys_dup2` -/

theorem dupfd_spec {fd arg : Int} (h : Books [] s) (hq : Quiet s) (hp : s.tasks p ≠ none) (hfd : 0 ≤ fd) (harg : 0 ≤ arg) :
    Sat Bad (dupfd s p fd arg) fun x => Kept s x.2 ∧ SameInodes s x.2 ∧ (x.1 < 0 → x.2 = s) := by
  obtain ⟨n, rfl⟩ := Int.eq_ofNat_of_zero_le hfd
  obtain ⟨m, rfl⟩ := Int.eq_ofNat_of_zero_le harg
  have hsame : Kept s s ∧ SameInodes s s := ⟨⟨h, hq, .refl s⟩, ⟨rfl, rfl, rfl, rfl, rfl⟩⟩
  unfold dupfd
  have hcheck : ∃ y, fdCheck s p n = .ok y ∧ ∀ f, y = some f → s.fds (p, n) = some f := by
    by_cases hn : n < TASK_FILE_NR
    · exact ⟨_, fdCheck_nat hn, fun _ hy => hy⟩
    · exact ⟨_, fdCheck_large (by omega), fun _ hy => nomatch hy⟩
  obtain ⟨y, hy, hyf⟩ := hcheck
  rw [hy]
  cases y with
  | none => exact ⟨hsame.1, hsame.2, fun _ => rfl⟩
  | some f =>
    dsimp only [bind, Except.bind]
    rw [if_neg (by omega), Int.toNat_natCast]
    cases hfind : findFrom (fun fd => s.fds (p, fd) = none) (TASK_FILE_NR - m) m with
    | none => exact ⟨hsame.1, hsame.2, fun _ => rfl⟩
    | some fd =>
      obtain ⟨h1, h2, h3⟩ := findFrom_some hfind
      have h3 : s.fds (p, fd) = none := of_decide_eq_true h3
      obtain ⟨-, hf, hc⟩ := h.pointed (hyf f rfl)
      have hk : (p, fd) ∈ slots := mem_slots.2 ⟨h.live hp, by omega⟩
      have heq : (s.setFd p fd (some f)).setFile f { (s.setFd p fd (some f)).files f with count := ((s.setFd p fd (some f)).files f).count + 1 } =
          s.point (p, fd) f := rfl
      have hi : SameInodes s (s.point (p, fd) f) := ⟨rfl, rfl, rfl, rfl, rfl⟩
      refine ⟨⟨h.point hk h3 hf (by omega), hq.of rfl fun l => ?_, hi.frees.moves⟩, hi, fun hneg => ?_⟩
      · by_cases hl : l = (p, fd)
        · rw [hl]
          exact .inr (.inr hp)
        · exact .inl (update_of_ne hl ..)
      · exact absurd hneg (by dsimp only; omega)

theorem fdPut_kept {fd : Int} (h : Books [] s) (hq : Quiet s) (hfd : 0 ≤ fd) (hshared : s.Shared (p, fd.toNat)) :
    ∃ ret t, fdPut s p fd = .ok (ret, t) ∧ Kept s t ∧ Frees s t ∧ t.tasks = s.tasks ∧ (ret < 0 → t = s) ∧
      (∀ k, k ≠ (p, fd.toNat) → t.fds k = s.fds k) ∧ (fd < TASK_FILE_NR → t.fds (p, fd.toNat) = none) ∧
      (s.fds (p, fd.toNat) = none ∨ (TASK_FILE_NR : Int) ≤ fd → t = s) := by
  obtain ⟨n, rfl⟩ := Int.eq_ofNat_of_zero_le hfd
  rw [Int.toNat_natCast] at hshared ⊢
  cases hf : s.fds (p, n) with
  | none =>
    exact ⟨_, s, fdPut_bad hfd (.inr hf), ⟨h, hq, .refl s⟩, .refl s, rfl, fun _ => rfl, fun _ _ => rfl, fun _ => hf, fun _ => rfl⟩
  | some f =>
    obtain ⟨t, ht, hb, hc⟩ := fdPut_spec h hf hshared
    have hn := (mem_slots.1 (h.fdRange _ _ hf).1).2
    have hsame : ∀ k, k ≠ (p, n) → t.fds k = s.fds k := by
      intro k hk
      rw [hc.fds, update_of_ne hk]
    have hgone : t.fds (p, n) = none := by
      rw [hc.fds, update_self]
    refine ⟨0, t, ht, ⟨hb, hq.of hc.tasks fun k => ?_, hc.frees.moves⟩, hc.frees, hc.tasks, fun hneg => absurd hneg (by omega), hsame,
      fun _ => hgone, ?_⟩
    · by_cases hk : k = (p, n)
      · rw [hk]
        exact .inr (.inl hgone)
      · exact .inl (hsame k hk)
    · rintro (hno | hno)
      · cases hno
      · omega

theorem dupfd_ok {fd arg : Int} (hfd : 0 ≤ fd) (harg : 0 ≤ arg ∧ arg < TASK_FILE_NR) (hfd' : fd < TASK_FILE_NR) (hf : s.fds (p, fd.toNat) ≠ none)
    (hfree : s.fds (p, arg.toNat) = none) : ∃ ret t, dupfd s p fd arg = .ok (ret, t) ∧ 0 ≤ ret := by
  obtain ⟨n, rfl⟩ := Int.eq_ofNat_of_zero_le hfd
  obtain ⟨m, rfl⟩ := Int.eq_ofNat_of_zero_le harg.1
  rw [Int.toNat_natCast] at hf hfree
  obtain ⟨f, hf⟩ := Option.ne_none_iff_exists'.1 hf
  unfold dupfd
  rw [fdCheck_nat (by omega), hf]
  dsimp only [bind, Except.bind]
  rw [if_neg (by omega), Int.toNat_natCast]
  cases hfind : findFrom (fun fd => s.fds (p, fd) = none) (TASK_FILE_NR - m) m with
  | none => exact absurd hfree (of_decide_eq_false (findFrom_none hfind (Nat.le_refl m) (by omega)))
  | some fd => exact ⟨_, _, rfl, Int.natCast_nonneg fd⟩

def Replaces (s : State) (p : Nat) (oldfd newfd : Int) : Prop :=
  s.fds (p, newfd.toNat) = none ∨ (TASK_FILE_NR : Int) ≤ newfd ∨ oldfd ≠ newfd ∧ oldfd < TASK_FILE_NR ∧ s.fds (p, oldfd.toNat) ≠ none

theorem sysDup2_spec {oldfd newfd : Int} (h : Books [] s) (hq : Quiet s) (hp : s.tasks p ≠ none) (hold : 0 ≤ oldfd) (hnew : 0 ≤ newfd)
    (hshared : s.Shared (p, newfd.toNat)) :
    Sat Bad (sysDup2 s p oldfd newfd) fun x => Kept s x.2 ∧ (Replaces s p oldfd newfd → x.1 < 0 → x.2 = s) := by
  obtain ⟨ret, t, ht, hk, hfr, htasks, -, hsame, hgone, hbad⟩ := fdPut_kept h hq hnew hshared
  unfold sysDup2
  rw [ht]
  dsimp only [bind, Except.bind]
  have hspec := dupfd_spec hk.books hk.quiet (htasks ▸ hp) hold hnew
  cases hd : dupfd t p oldfd newfd with
  | error e => exact hspec.not_bad hd
  | ok x =>
    obtain ⟨h1, h2, h3⟩ := hspec.of_ok hd
    refine ⟨⟨h1.books, h1.quiet, (hfr.trans h2.frees).moves⟩, fun hr hneg => ?_⟩
    have hx := h3 hneg
    rw [hx]
    rcases hr with hr | hr | ⟨hne, hlt, ho⟩
    · exact hbad (.inl hr)
    · exact hbad (.inr hr)
    · by_cases hlarge : (TASK_FILE_NR : Int) ≤ newfd
      · exact hbad (.inr hlarge)
      have ho' : t.fds (p, oldfd.toNat) ≠ none := by
        rw [hsame]
        · exact ho
        · intro he
          have := (Prod.mk.inj he).2
          omega
      obtain ⟨r, v, hv, hr⟩ := dupfd_ok hold ⟨hnew, Int.not_le.1 hlarge⟩ hlt ho' (hgone (Int.not_le.1 hlarge))
      rw [hd] at hv
      cases hv
      exact absurd hneg (Int.not_lt.2 hr)

/-! ## `sys_pipe` -/

theorem install_setFile_ne {x y : File} {g : Nat} (h : g ≠ f) :
    (s.install p fd f x).setFile g y = (s.setFile g y).install p fd f x := by
  unfold State.install State.setFile State.setFd
  rw [update_comm h.symm]

theorem install_free {x : File} (h : s.Free p n) (hne : n ≠ fd) : (s.install p fd f x).Free p n := by
  refine ⟨h.1, h.2.1, ?_⟩
  have hk : (p, n) ≠ (p, fd) := fun he => hne (Prod.mk.inj he).2
  exact (update_of_ne hk ..).trans h.2.2

theorem free_of_fds (h : s.Free p fd) (hf : t.fds = s.fds) : t.Free p fd := ⟨h.1, h.2.1, hf ▸ h.2.2⟩

theorem sysPipe_spec {second : Int} (h : Books [] s) (hq : Quiet s) (hp : s.tasks p ≠ none)
    (hfree : ∃ a b, a ≠ b ∧ s.Free p a ∧ s.Free p b) : Sat Bad (sysPipe s p second) fun x => Kept s x.2 ∧ 0 ≤ x.1 := by
  obtain ⟨a, b, hab, ha, hb⟩ := hfree
  unfold sysPipe
  rcases pipeOpen_spec h with he | ⟨i, hi, u, he, ho, hg, hbu⟩
  · rw [he]
    exact sat_panic
  rw [he]
  dsimp only [bind, Except.bind]
  have hpu : u.tasks p ≠ none := ho.tasks ▸ hp
  rcases fdGet_spec u p with he0 | ⟨-, hno⟩ | ⟨fd0, f0, hfd0, hf0, hc0, he0⟩
  · rw [he0]
    exact sat_panic
  · exact absurd (free_of_fds ha ho.fds) (hno a)
  rw [he0]
  dsimp only
  generalize hw0 : ({ u.files f0 with count := (u.files f0).count + 1 } : File) = w0
  have hw0c : w0.count = 1 := by rw [← hw0, hc0]
  rcases fdGet_spec (u.install p fd0 f0 w0) p with he1 | ⟨-, hno⟩ | ⟨fd1, f1, hfd1, hf1, hc1, he1⟩
  · rw [he1]
    exact sat_panic
  · exfalso
    by_cases hafd : a = fd0
    · exact hno b (install_free (free_of_fds hb ho.fds) (hafd ▸ hab.symm))
    · exact hno a (install_free (free_of_fds ha ho.fds) hafd)
  rw [he1]
  have hfile0 : (u.install p fd0 f0 w0).files f0 = w0 := update_self ..
  have hne : f0 ≠ f1 := by
    rintro rfl
    rw [hfile0, hw0c] at hc1
    cases hc1
  dsimp only
  generalize hw1 : ({ (u.install p fd0 f0 w0).files f1 with count := ((u.install p fd0 f0 w0).files f1).count + 1 } : File) = w1
  have hw1c : w1.count = 1 := by rw [← hw1, hc1]
  have hg0 : ((u.install p fd0 f0 w0).install p fd1 f1 w1).files f0 = w0 := (update_of_ne hne ..).trans hfile0
  rw [hg0]
  generalize hx0 : ({ w0 with inode := some i, flags := 0 } : File) = x0
  rw [install_setFile_ne hne, install_setFile u]
  have hg1 : ((u.install p fd0 f0 x0).install p fd1 f1 w1).files f1 = w1 := update_self ..
  rw [hg1, install_setFile]
  have hb1 : Books [i] (u.install p fd0 f0 x0) := hbu.install hi (h.live hp) hfd0.2.1 hfd0.2.2 hf0 hc0 (hx0 ▸ hw0c) (hx0 ▸ rfl)
  have hc1' : ((u.install p fd0 f0 x0).files f1).count = 0 := by
    have h1 : (u.install p fd0 f0 x0).files f1 = u.files f1 := update_of_ne hne.symm ..
    have h2 : (u.install p fd0 f0 w0).files f1 = u.files f1 := update_of_ne hne.symm ..
    rw [h1, ← h2]
    exact hc1
  have hb2 := hb1.install (x := { w1 with inode := some i, flags := 1 }) hi (h.live hp) hfd1.2.1 hfd1.2.2 hf1 hc1' hw1c rfl
  have hqu : Quiet u := hq.of ho.tasks fun k => .inl (by rw [ho.fds])
  exact ⟨⟨hb2, (hqu.install hpu).install hpu, (hg.trans ((install_inodes ..).grows.trans (install_inodes ..).grows)).moves⟩, Int.le_refl 0⟩

/-! ## `sys_socket` and `sys_accept` -/

theorem socketInode_install {d : Nat} {x : File} : socketInode (kmalloc (s.install p fd f x)).2 d =
    (socketInode (kmalloc s).2 d).map fun y => (y.1, y.2.install p fd f x) := by
  unfold socketInode
  have hg : getFreeInode (kmalloc (s.install p fd f x)).2 = getFreeInode (kmalloc s).2 := rfl
  rw [hg]
  cases getFreeInode (kmalloc s).2 <;> rfl

theorem sysSocket_spec {domain type : Int} (h : Books [] s) (hq : Quiet s) (hp : s.tasks p ≠ none) :
    Sat Bad (sysSocket s p domain type) fun x => Kept s x.2 ∧ (x.1 < 0 → x.2 = s) := by
  have hself : Kept s s := ⟨h, hq, .refl s⟩
  unfold sysSocket
  by_cases hh : hasSocket domain type
  · rw [if_pos hh]
    rcases fdGet_spec s p with he | ⟨he, -⟩ | ⟨fd, f, hfd, hf, hc, he⟩
    · rw [he]
      exact sat_panic
    · rw [he]
      exact ⟨hself, fun _ => rfl⟩
    · rw [he]
      dsimp only [bind, Except.bind]
      generalize ({ s.files f with count := (s.files f).count + 1 } : File) = w
      have hm : (kmalloc (s.install p fd f w)).1 = s.next := rfl
      rw [hm, socketInode_install]
      rcases socketInode_spec h with hs | ⟨i, hi, t, hs, ho, hg, hb⟩
      · rw [hs]
        exact sat_panic
      · rw [hs]
        dsimp only [Except.map]
        rw [install_setFile]
        have hpt : t.tasks p ≠ none := ho.tasks ▸ hp
        have hfiles : (t.files f).count = 0 := ho.files ▸ hc
        have hfds : t.fds (p, fd) = none := ho.fds ▸ hfd.2.2
        have hqt : Quiet t := hq.of ho.tasks fun k => .inl (by rw [ho.fds])
        exact ⟨⟨hb.install hi (h.live hp) hfd.2.1 hfds hf hfiles rfl rfl, hqt.install hpt, (hg.trans (install_inodes ..).grows).moves⟩,
          fun hneg => absurd hneg (Int.not_lt.2 (Int.natCast_nonneg fd))⟩
  · rw [if_neg hh]
    exact ⟨hself, fun _ => rfl⟩

def State.Socket (s : State) (k : Nat × Nat) : Prop := ∀ i, s.Leads k i → (s.inodes i).type = .socket ∨ (s.inodes i).desc = none

theorem socketGet_spec {fd : Int} (hfd : 0 ≤ fd ∧ fd < TASK_FILE_NR) (hs : s.Socket (p, fd.toNat)) :
    ∃ b, socketGet s p fd = .ok b := by
  unfold socketGet
  rw [if_neg (by omega)]
  cases hf : s.fds (p, fd.toNat) with
  | none => exact ⟨false, rfl⟩
  | some f =>
    dsimp only
    cases hi : (s.files f).inode with
    | none => exact ⟨false, rfl⟩
    | some i =>
      dsimp only
      by_cases hd : (s.inodes i).desc = none
      · rw [if_pos hd]
        exact ⟨false, rfl⟩
      · rw [if_neg hd, if_pos ((hs i ⟨f, hf, hi⟩).resolve_right hd)]
        exact ⟨true, rfl⟩

theorem sysAccept_spec {fd : Int} {err : Option Int} (h : Books [] s) (hq : Quiet s) (hp : s.tasks p ≠ none)
    (hfd : 0 ≤ fd ∧ fd < TASK_FILE_NR) (hs : s.Socket (p, fd.toNat)) (hfree : err = none → ∃ fd, s.Free p fd) :
    Sat Bad (sysAccept s p fd err) fun x => Kept s x.2 ∧ (x.1 < 0 → x.2 = s) := by
  have hself : Kept s s := ⟨h, hq, .refl s⟩
  unfold sysAccept
  obtain ⟨b, hb⟩ := socketGet_spec hfd hs
  rw [hb]
  dsimp only [bind, Except.bind]
  cases b with
  | false => exact ⟨hself, fun _ => rfl⟩
  | true =>
    cases err with
    | some e => exact ⟨hself, fun _ => rfl⟩
    | none =>
      have hm : (kmalloc s).1 = s.next := rfl
      rw [hm]
      rcases socketInode_spec h with hso | ⟨i, hi, t, hso, ho, hg, hb⟩
      · rw [hso]
        exact sat_panic
      · rw [hso]
        dsimp only
        have hpt : t.tasks p ≠ none := ho.tasks ▸ hp
        rcases fdGet_spec t p with he | ⟨-, hno⟩ | ⟨fd, f, hfd, hf, hc, he⟩
        · rw [he]
          exact sat_panic
        · obtain ⟨a, ha⟩ := hfree rfl
          exact absurd (free_of_fds ha ho.fds) (hno a)
        · rw [he]
          dsimp only
          rw [install_setFile]
          have hqt : Quiet t := hq.of ho.tasks fun k => .inl (by rw [ho.fds])
          exact ⟨⟨hb.install hi (h.live hp) hfd.2.1 hfd.2.2 hf hc rfl rfl, hqt.install hpt, (hg.trans (install_inodes ..).grows).moves⟩,
            fun hneg => absurd hneg (Int.not_lt.2 (Int.natCast_nonneg fd))⟩

end Onix.Files
