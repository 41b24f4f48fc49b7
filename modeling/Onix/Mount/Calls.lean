/-
What `sys_mount`, `sys_umount` and `sys_mkfs` do to the table and to the books, as long as no device that is not recognised is read into a
slot that still points somewhere.
-/
import Onix.Mount.Read

namespace Onix.Mount

open Onix.Lib

variable {s t u : State} {ds : List Nat} {bs : List Buf} {i j k n r m dev : Nat} {b : Buf} {y : Super} {w : Prop} {ret : Int}

/-! ## Between the calls -/

structure Rest (s : State) : Prop where
  books : Books [] [] s
  table : Table s

/-- `u` is `s` with references taken; `w` says that no buffer has been lost. -/
structure Under (w : Prop) (s u : State) : Prop where
  supers : u.supers = s.supers
  disk : u.disk = s.disk
  held : u.held = s.held
  heldBufs : w → u.heldBufs = s.heldBufs
  grows : Grows s u

theorem Under.trans (h1 : Under w s t) (h2 : Under w t u) : Under w s u :=
  ⟨h2.supers.trans h1.supers, h2.disk.trans h1.disk, h2.held.trans h1.held, fun h => (h2.heldBufs h).trans (h1.heldBufs h),
    h1.grows.trans h2.grows⟩

theorem leak_nil (s : State) : s.leak [] = s := rfl

theorem Path.under {p : Path} (h : Books ds bs s) (ht : Table s) (hp : p.Ok s) (hw : w → p.leaks = []) : Under w s (p.walk s) := by
  obtain ⟨-, hf, hg, -⟩ := Path.walk_spec h ht hp
  refine ⟨hf.supers, hf.disk, hf.held, fun hti => ?_, hg⟩
  rw [hf.heldBufs, hw hti, leak_nil]

/-- `t` has the superblocks of `s` and its inodes, up to slots that are not in use. -/
structure Keeps (s t : State) : Prop where
  held : t.held = s.held
  supers : ∀ k < SUPER_NR, t.supers k = s.supers k ∨ Idle (s.supers k) ∧ Idle (t.supers k)
  inodes : Moves s t

theorem Keeps.live (h : Keeps s t) (hk : k < SUPER_NR) : t.roots k = s.roots k ∧ t.mounts k = s.mounts k ∧ t.superBufs k = s.superBufs k := by
  unfold State.roots State.mounts State.superBufs
  rcases h.supers k hk with he | ⟨h1, h2⟩
  · rw [he]
    exact ⟨rfl, rfl, rfl⟩
  · unfold Super.live
    rw [if_pos h1.type, if_pos h1.type, if_pos h1.type, if_pos h2.type, if_pos h2.type, if_pos h2.type]
    exact ⟨rfl, rfl, rfl⟩

theorem Keeps.refs (h : Keeps s t) (i : Nat) : t.refs i = s.refs i := by
  unfold State.refs
  rw [tally_congr fun k hk => (h.live (mem_superSlots.1 hk)).1, tally_congr fun k hk => (h.live (mem_superSlots.1 hk)).2.1]

theorem Keeps.count (h : Keeps s t) (hs : Books [] [] s) (ht : Books [] [] t) (hi : i < INODE_NR) : (t.inodes i).count = (s.inodes i).count := by
  rw [ht.count i hi, hs.count i hi, h.held, h.refs]

theorem Keeps.free (h : Keeps s t) (hs : Books [] [] s) (ht : Books [] [] t) (hi : i < INODE_NR) :
    (t.inodes i).type = .none ↔ (s.inodes i).type = .none := by
  rw [(ht.inode i hi).free, (hs.inode i hi).free, h.count hs ht hi]

theorem Keeps.alike (h : Keeps s t) (hs : Books [] [] s) (ht : Books [] [] t) (hi : i < INODE_NR) (hu : (s.inodes i).type ≠ .none) :
    Alike (s.inodes i) (t.inodes i) := (h.inodes i hi hu).resolve_left fun hn => hu ((h.free hs ht hi).1 hn)

/-- The counts of superblocks, inodes and buffers, and the marks. -/
structure Same (s t : State) : Prop where
  supers : ∀ k < SUPER_NR, (t.supers k).count = (s.supers k).count
  inodes : ∀ i < INODE_NR, (t.inodes i).count = (s.inodes i).count
  bufs : ∀ b, t.bufs b = s.bufs b
  marks : ∀ i < INODE_NR, (t.inodes i).mount = (s.inodes i).mount

theorem Keeps.same (h : Keeps s t) (hs : Books [] [] s) (ht : Books [] [] t) (hb : t.heldBufs = s.heldBufs) : Same s t := by
  refine ⟨fun k hk => ?_, fun i hi => h.count hs ht hi, fun b => ?_, fun i hi => ?_⟩
  · rcases h.supers k hk with he | ⟨h1, h2⟩
    · rw [he]
    · rw [h1.count, h2.count]
  · have hin : tally inodeSlots t.inodeBufs b = tally inodeSlots s.inodeBufs b := by
      refine tally_congr fun i hi => ?_
      have hi := mem_inodeSlots.1 hi
      unfold State.inodeBufs
      by_cases hn : (s.inodes i).type = .none
      · rw [((hs.inode i hi).clean hn).1, ((ht.inode i hi).clean ((h.free hs ht hi).2 hn)).1]
      · exact (h.alike hs ht hi hn).buf
    have hsup : tally superSlots t.superBufs b = tally superSlots s.superBufs b := tally_congr fun k hk => (h.live (mem_superSlots.1 hk)).2.2
    rw [ht.bufs, hs.bufs, hb]
    unfold State.bufRefs
    rw [hin, hsup]
  · by_cases hn : (s.inodes i).type = .none
    · rw [((hs.inode i hi).clean hn).2.2.2, ((ht.inode i hi).clean ((h.free hs ht hi).2 hn)).2.2.2]
    · exact (h.alike hs ht hi hn).mount

theorem Keeps.table (h : Keeps s t) (hs : Books [] [] s) (ht : Books [] [] t) (htab : Table s) : Table t := by
  have hused : ∀ k < SUPER_NR, (t.supers k).type ≠ .none → t.supers k = s.supers k := fun k hk hne =>
    (h.supers k hk).resolve_right fun hi => hne hi.2.type
  have hback : ∀ k < SUPER_NR, (s.supers k).type ≠ .none → t.supers k = s.supers k := fun k hk hne =>
    (h.supers k hk).resolve_right fun hi => hne hi.1.type
  refine ⟨fun k hk => ?_, fun j hj k hk hju hku hd => ?_, fun i hi hne => ?_, ?_⟩
  · rcases htab.slot k hk with hidle | hm
    · rcases h.supers k hk with he | ⟨-, h2⟩
      · rw [he]
        exact .inl hidle
      · exact .inl h2
    · refine .inr (hm.keep hs hk (hback k hk hm.used) fun i hi hpos => h.alike hs ht hi fun hn => ?_)
      have h1 := (hs.inode i hi).free.1 hn
      have h2 := hs.count i hi
      omega
  · have h1 := hused j hj hju
    have h2 := hused k hk hku
    rw [h1] at hju hd
    rw [h2] at hku hd
    exact htab.distinct j hj k hk hju hku hd
  · have hsi : (s.inodes i).type ≠ .none := fun hn => hne ((h.free hs ht hi).2 hn)
    have ha := h.alike hs ht hi hsi
    obtain ⟨k, hk, h1, h2, h3⟩ := htab.inode i hi hsi
    have he := hback k hk h2
    refine ⟨k, hk, ha.super.trans h1, ?_, ?_⟩
    · rw [he]
      exact h2
    · rw [he, ha.dev]
      exact h3
  · rw [hback 0 (by decide) (roots_used hs.root).1]
    exact htab.zero

/-! ## What is taken is given back -/

/-- A call has ended, and all is as before up to what is not in use. -/
structure Restored (w : Prop) (s t : State) : Prop where
  rest : Rest t
  keeps : Keeps s t
  heldBufs : w → t.heldBufs = s.heldBufs

theorem Restored.of (hs : Rest s) (hb : Books [] [] t) (hk : Keeps s t) (hh : w → t.heldBufs = s.heldBufs) : Restored w s t :=
  ⟨⟨hb, hk.table hs.books hb hs.table⟩, hk, hh⟩

theorem Books.perm {ds' : List Nat} (h : Books ds bs s) (hp : ds.Perm ds') : Books ds' bs s :=
  ⟨fun i hi => by rw [← hp.count_eq]; exact h.count i hi, h.bufs, h.inode, h.range, h.marked, h.root⟩

theorem iput_option {o : Option Nat} (h : Books (o.toList ++ ds) bs s) (ho : ∀ i, o = some i → i < INODE_NR) :
    ∃ t, iput s o = .ok t ∧ Frame s t ∧ Frees s t ∧ Books ds bs t := by
  cases o with
  | none => exact ⟨s, rfl, .refl s, .refl s, h⟩
  | some i =>
    obtain ⟨t, h1, h2, h3, h4⟩ := iput_spec h (ho i rfl)
    exact ⟨t, h1, h2.toFrame, h3, h4⟩

theorem Under.restored {o p : Option Nat} (hs : Rest s) (hu : Under w s u) (hb : Books (o.toList ++ (p.toList ++ [])) [] u)
    (ho : ∀ i, o = some i → i < INODE_NR) (hp : ∀ i, p = some i → i < INODE_NR) :
    ∃ v t, iput u o = .ok v ∧ iput v p = .ok t ∧ Restored w s t ∧ t.supers = s.supers := by
  obtain ⟨v, hv, hf1, hfr1, hb1⟩ := iput_option hb ho
  obtain ⟨t, ht, hf2, hfr2, hb2⟩ := iput_option hb1 hp
  have hf := hf1.trans hf2
  have hsup : t.supers = s.supers := hf.supers.trans hu.supers
  refine ⟨v, t, hv, ht, .of hs hb2 ⟨hf.held.trans hu.held, fun k _ => .inl (congrFun hsup k), hu.grows.frees (hfr1.trans hfr2)⟩ ?_, hsup⟩
  exact fun hti => hf.heldBufs.trans (hu.heldBufs hti)

theorem rollback_spec {o p : Option Nat} (ret : Int) (hs : Rest s) (hu : Under w s u) (hb : Books (o.toList ++ (p.toList ++ [])) [] u)
    (ho : ∀ i, o = some i → i < INODE_NR) (hp : ∀ i, p = some i → i < INODE_NR) :
    ∃ t, rollback u none o p ret = .ok (ret, t) ∧ Restored w s t ∧ t.supers = s.supers := by
  obtain ⟨v, t, h1, h2, h3⟩ := hu.restored hs hb ho hp
  refine ⟨t, ?_, h3⟩
  unfold rollback
  have hnone : putSuper u none = .ok u := rfl
  rw [hnone]
  dsimp only [bind, Except.bind]
  rw [h1]
  dsimp only
  rw [h2]

/-! ## `sys_mount` -/

theorem Table.added (h : Table u) (hb : Books ds bs u) (hg : getSuper u dev = none) (hf : (u.supers k).type = .none)
    (hs : ∀ j, j ≠ k → t.supers j = u.supers j) (hdev : (t.supers k).dev = dev) (hm : Mounted t k)
    (ha : ∀ i < INODE_NR, 0 < u.refs i → Alike (u.inodes i) (t.inodes i))
    (hn : ∀ i < INODE_NR, (t.inodes i).type ≠ .none → ∃ l < SUPER_NR, (t.inodes i).super = some l ∧ (t.supers l).type ≠ .none ∧
      (t.inodes i).dev = (t.supers l).dev) : Table t := by
  refine ⟨fun j hj => ?_, fun i hi j hj hiu hju hd => ?_, hn, ?_⟩
  · by_cases hjk : j = k
    · rw [hjk]
      exact .inr hm
    · rcases h.slot j hj with hi | hmt
      · left
        rw [hs j hjk]
        exact hi
      · exact .inr (hmt.keep hb hj (hs j hjk) ha)
  · -- no other superblock has the device
    by_cases hik : i = k
    · by_cases hjk : j = k
      · rw [hik, hjk]
      · rw [hs j hjk] at hju hd
        rw [hik, hdev] at hd
        exact absurd hd.symm (getSuper_none hg hj hju)
    · rw [hs i hik] at hiu hd
      by_cases hjk : j = k
      · rw [hjk, hdev] at hd
        exact absurd hd (getSuper_none hg hi hiu)
      · rw [hs j hjk] at hju hd
        exact h.distinct i hi j hj hiu hju hd
  · have hk0 : 0 ≠ k := by
      rintro rfl
      exact (roots_used hb.root).1 hf
    rw [hs 0 hk0]
    exact h.zero

theorem New.attach_books {x : Super} {v : State} (hn : New u (m :: ds) [] dev k x v y r b) (hb : Books (m :: ds) [] u) (hk : k < SUPER_NR)
    (hf : (u.supers k).type = .none) (hm : m < INODE_NR) (hmu : (v.inodes m).type ≠ .none) :
    Books ds [] ((v.setSuper k { y with imount := some m }).setInode m { v.inodes m with mount := dev }) := by
  have hvk : (v.supers k).type = .none := by
    rw [hn.frame.supers]
    exact hf
  have hold : ∀ {α : Type} (p : Option α), (v.supers k).live p = none := fun _ => if_pos hvk
  have hlive : ∀ {α : Type} (p : Option α), ({ y with imount := some m } : Super).live p = p := fun _ => if_neg hn.type
  have hk0 : k ≠ 0 := by
    rintro rfl
    exact (roots_used hb.root).1 hf
  have h1 : Books ds [] (v.setSuper k { y with imount := some m }) := by
    refine hn.books.setSuper hk (fun i => ?_) (fun c => ?_) ?_ ?_ (fun h => absurd h hk0)
    · unfold Super.points
      rw [hlive, hlive, hold, hold, hn.iroot, List.count_cons, List.count_cons]
      simp only [Option.some.injEq, beq_iff_eq, reduceCtorEq, if_false]
      omega
    · unfold Super.pointsBuf
      rw [hlive, hold, hn.buf, count_cons_buf, if_neg (show ¬ (none : Option Buf) = some c from nofun)]
      omega
    · intro i hi
      rw [hlive, hlive, hn.iroot] at hi
      rcases hi with hi | hi
      · cases hi
        exact hn.slot
      · cases hi
        exact hm
    · intro i _ _ hmk
      unfold State.mounts at hmk
      rw [hold] at hmk
      cases hmk
  have hmk : (v.setSuper k { y with imount := some m }).mounts k = some m := by
    refine mounts_of ?_ ?_
    · rw [setSuper_same]
      exact hn.type
    · rw [setSuper_same]
  have hsound := h1.inode m hm
  refine h1.setInode hm (h1.count m hm) (fun _ _ => rfl) (fun _ => rfl) ?_ fun _ => ⟨k, hk, hmk⟩
  exact ⟨hsound.free, fun ht => absurd ht hmu, hsound.used⟩

theorem New.attach {x : Super} {v : State} (hn : New u (m :: ds) [] dev k x v y r b) (hb : Books (m :: ds) [] u) (ht : Table u) (hk : k < SUPER_NR)
    (hf : (u.supers k).type = .none) (hx : x.count = 1) (hg : getSuper u dev = none) (hm : m < INODE_NR)
    (hc : (u.inodes m).count = 1) :
    Books ds [] ((v.setSuper k { y with imount := some m }).setInode m { v.inodes m with mount := dev }) ∧
      Table ((v.setSuper k { y with imount := some m }).setInode m { v.inodes m with mount := dev }) ∧ u.held m = 0 ∧ u.refs m = 0 := by
  have hcount := hb.count m hm
  rw [List.count_cons_self] at hcount
  have hmu : (u.inodes m).type ≠ .none := fun ht => by
    have := (hb.inode m hm).free.1 ht
    omega
  have hmr : m ≠ r := fun h => hmu (h ▸ hn.fresh)
  have hvm : v.inodes m = u.inodes m := hn.other m hmr
  refine ⟨hn.attach_books hb hk hf hm (hvm ▸ hmu), ?_, by omega, by omega⟩
  generalize ha : (v.setSuper k { y with imount := some m }).setInode m { v.inodes m with mount := dev } = a
  have hsame : ∀ i, i ≠ m → i ≠ r → a.inodes i = u.inodes i := fun i him hir => by
    rw [← ha, setInode_other _ _ him]
    exact hn.other i hir
  have hself : a.supers k = { y with imount := some m } := by rw [← ha, setInode_supers, setSuper_same]
  have hsupers : ∀ j, j ≠ k → a.supers j = u.supers j := fun j hj => by
    rw [← ha, setInode_supers, setSuper_other _ _ hj, hn.frame.supers]
  have hmi : a.inodes m = { u.inodes m with mount := dev } := by rw [← ha, setInode_same, hvm]
  have hri : a.inodes r = v.inodes r := by
    rw [← ha, setInode_other _ _ (Ne.symm hmr)]
    rfl
  have hdev : (a.supers k).dev = dev := by
    rw [hself]
    exact hn.ofDev
  have hmounted : Mounted a k := by
    refine ⟨?_, ?_, ⟨r, ?_, ?_, ?_⟩, ⟨m, ?_, ?_, fun _ => ?_⟩⟩
    · rw [hself]
      exact hn.type
    · rw [hself]
      exact hn.count.trans hx
    · rw [hself]
      exact hn.iroot
    · rw [hri]
      exact hn.super
    · rw [hri]
      exact hn.kind
    · rw [hself]
    · rw [hmi, hdev]
    · rw [hmi]
      exact ht.noInodes hb hf hm
  refine ht.added hb hg hf hsupers hdev hmounted (fun i hi hpos => ?_) fun i hi hu => ?_
  · have him : i ≠ m := by
      rintro rfl
      omega
    have hir : i ≠ r := by
      rintro rfl
      have h0 := (hb.inode i hi).free.1 hn.fresh
      have h3 := hb.count i hi
      omega
    rw [hsame i him hir]
    exact .refl _
  · by_cases hir : i = r
    · subst hir
      refine ⟨k, hk, ?_, hmounted.used, ?_⟩
      · rw [hri]
        exact hn.super
      · rw [hri, hdev]
        exact hn.rootDev
    · -- of an inode that was there the superblock is in use already
      have hui : (u.inodes i).type ≠ .none ∧ (a.inodes i).super = (u.inodes i).super ∧ (a.inodes i).dev = (u.inodes i).dev := by
        by_cases him : i = m
        · subst him
          rw [hmi]
          exact ⟨hmu, rfl, rfl⟩
        · rw [hsame i him hir] at hu ⊢
          exact ⟨hu, rfl, rfl⟩
      obtain ⟨h1, h2, h3⟩ := hui
      obtain ⟨l, hl, h4, h5, h6⟩ := ht.inode i hi h1
      have hlk : l ≠ k := fun h => h5 (h ▸ hf)
      refine ⟨l, hl, h2.trans h4, ?_, ?_⟩
      · rw [hsupers l hlk]
        exact h5
      · rw [hsupers l hlk, h3]
        exact h6

def Content.Known : Content → Prop
  | .minix _ _ => True
  | .iso9660 _ => True
  | _ => False

def NextClean (s : State) : Prop :=
  match freeSuper s with
  | none => True
  | some k => (s.supers k).iroot = none ∧ (s.supers k).buf = none

def Fits (s : State) (dev : Nat) : Prop := getSuper s dev ≠ none ∨ (s.disk dev).Known ∨ NextClean s

theorem known_iff (c : Content) : c.Known ↔ (∃ desc zone, c = .minix desc zone) ∨ ∃ lba, c = .iso9660 lba := by
  cases c with
  | unreadable => simp [Content.Known]
  | unknown => simp [Content.Known]
  | minix desc zone => simp [Content.Known]
  | iso9660 lba => simp [Content.Known]

/-- What `read_super` may do to the caller. -/
inductive Read (s : State) (ds : List Nat) (dev : Nat) : Option Nat × State → Prop
  | known (k : Nat) : getSuper s dev = some k → Read s ds dev (some k, s.setSuper k { s.supers k with count := (s.supers k).count + 1 })
  | unknown : getSuper s dev = none → ¬ (s.disk dev).Known → Read s ds dev (none, s)
  | new (k : Nat) (u : State) (y : Super) (r : Nat) (b : Buf) : getSuper s dev = none → k < SUPER_NR → (s.supers k).type = .none →
      New s ds [] dev k { s.supers k with count := (s.supers k).count + 1 } u y r b → Read s ds dev (some k, u.setSuper k y)

theorem readSuper_spec (h : Books ds [] s) (ht : Table s) (hv : (s.disk dev).Valid) (hf : Fits s dev) :
    Sat Bad (readSuper s dev) (Read s ds dev) := by
  cases hg : getSuper s dev with
  | some k =>
    rw [readSuper_known hg]
    exact .known k hg
  | none =>
    by_cases hk : (s.disk dev).Known
    · refine (readSuper_new h ht hg ((known_iff _).1 hk) hv).mono fun p hp => ?_
      obtain ⟨k, u, y, r, b, rfl, hk, hk0, hn⟩ := hp
      exact .new k u y r b hg hk hk0 hn
    · have hclean := (hf.resolve_left fun h => h hg).resolve_left hk
      have hcases : readSuper s dev = .error .panic ∨ readSuper s dev = .ok (none, s) := by
        refine readSuper_unknown ht hg (fun desc zone he => hk ((known_iff _).2 (.inl ⟨desc, zone, he⟩)))
          (fun lba he => hk ((known_iff _).2 (.inr ⟨lba, he⟩))) fun k hk => ?_
        unfold NextClean at hclean
        rw [hk] at hclean
        exact hclean
      rcases hcases with he | he
      · rw [he]
        exact sat_panic
      · rw [he]
        exact .unknown hg hk

/-- The device has got a superblock in a slot that was free, on an inode that was not in memory. -/
structure Attached (w : Prop) (s t : State) (dev k m : Nat) : Prop where
  rest : Rest t
  slot : k < SUPER_NR
  idle : Idle (s.supers k)
  used : (t.supers k).type ≠ .none
  ofDev : (t.supers k).dev = dev
  on : (t.supers k).imount = some m
  free : (s.inodes m).type = .none
  others : ∀ j, j ≠ k → t.supers j = s.supers j
  held : t.held = s.held
  heldBufs : w → t.heldBufs = s.heldBufs
  inodes : Moves s t

theorem Path.slots_lt {p : Path} (hp : p.Ok s) (hi : i ∈ p.slots) : i < INODE_NR := by
  unfold Path.slots at hi
  unfold Path.Ok at hp
  cases hf : p.found with
  | none =>
    rw [hf] at hi
    cases hi
  | some x =>
    rw [hf] at hi hp
    obtain rfl : i = x.slot := by simpa using hi
    exact hp.1

theorem sysMount_spec {path dir : Path} (hs : Rest s) (hp : path.Ok s) (hd : dir.Ok (path.walk s)) (hw : w → path.leaks = [] ∧ dir.leaks = [])
    (hv : ∀ d ∈ reads s (.mount path dir), (s.disk d).Valid) (hfit : ∀ d ∈ reads s (.mount path dir), Fits s d) :
    Sat Bad (sysMount s path dir) fun p => (p.1 < 0 ∧ Restored w s p.2 ∧ p.2.supers = s.supers) ∨
      (p.1 = 0 ∧ ∃ d k m, reads s (.mount path dir) = some d ∧ Attached w s p.2 d k m) := by
  obtain ⟨hb1, hf1, -, ht1⟩ := Path.walk_spec hs.books hs.table hp
  have hu1 : Under w s (path.walk s) := Path.under hs.books hs.table hp fun h => (hw h).1
  -- a failure before the superblock is read
  have hback : ∀ {u : State} {o p : Option Nat} {ret : Int}, ret < 0 → Under w s u → Books (o.toList ++ (p.toList ++ [])) [] u →
      (∀ i, o = some i → i < INODE_NR) → (∀ i, p = some i → i < INODE_NR) → Sat Bad (rollback u none o p ret) fun p =>
        (p.1 < 0 ∧ Restored w s p.2 ∧ p.2.supers = s.supers) ∨
        (p.1 = 0 ∧ ∃ d k m, reads s (.mount path dir) = some d ∧ Attached w s p.2 d k m) := by
    intro u o p ret hret hu hb ho hp
    obtain ⟨t, he, h1, h2⟩ := rollback_spec ret hs hu hb ho hp
    rw [he]
    exact .inl ⟨hret, h1, h2⟩
  unfold sysMount
  cases hx : path.found with
  | none =>
    rw [Path.slots_none hx] at hb1
    exact hback (by decide) hu1 hb1 (fun _ h => nomatch h) (fun _ h => nomatch h)
  | some x =>
    have hx64 : x.slot < INODE_NR := Path.slots_lt hp (by rw [Path.slots_some hx]; exact List.mem_singleton_self _)
    have hxr : ∀ i, some x.slot = some i → i < INODE_NR := fun i h => Option.some.inj h ▸ hx64
    rw [Path.slots_some hx] at hb1
    refine sat_ite (fun _ => hback (by decide) hu1 hb1 hxr (fun _ h => nomatch h)) fun hblock => ?_
    refine sat_ite (fun _ => hback (by decide) hu1 hb1 hxr (fun _ h => nomatch h)) fun hrdev => ?_
    obtain ⟨hb2, hf2, -, ht2⟩ := Path.walk_spec hb1 ht1 hd
    have hu2 : Under w s (dir.walk (path.walk s)) := hu1.trans (Path.under hb1 ht1 hd fun h => (hw h).2)
    generalize hu : dir.walk (path.walk s) = u at hb2 hf2 ht2 hu2 ⊢
    cases hy : dir.found with
    | none =>
      rw [Path.slots_none hy] at hb2
      exact hback (by decide) hu2 hb2 hxr (fun _ h => nomatch h)
    | some z =>
      have hz64 : z.slot < INODE_NR := Path.slots_lt hd (by rw [Path.slots_some hy]; exact List.mem_singleton_self _)
      have hzr : ∀ i, some z.slot = some i → i < INODE_NR := fun i h => Option.some.inj h ▸ hz64
      rw [Path.slots_some hy] at hb2
      have hboth : Books ((some x.slot).toList ++ ((some z.slot).toList ++ [])) [] u := hb2.perm (List.Perm.swap x.slot z.slot [])
      refine sat_ite (fun _ => hback (by decide) hu2 hboth hxr hzr) fun hdirk => ?_
      refine sat_ite (fun _ => hback (by decide) hu2 hboth hxr hzr) fun hidle => ?_
      obtain ⟨hc1, hm0⟩ := not_or.1 hidle
      have hc1 : (u.inodes z.slot).count = 1 := not_not.1 hc1
      have hreads : reads s (.mount path dir) = some (u.inodes x.slot).rdev := by
        unfold reads
        dsimp only
        rw [hx]
        dsimp only
        rw [if_neg (not_or.2 ⟨hblock, hrdev⟩), hu, hy]
        exact if_neg (not_or.2 ⟨hdirk, hidle⟩)
      generalize hdev : (u.inodes x.slot).rdev = dev at hreads ⊢
      have hvu : (u.disk dev).Valid := hu2.disk ▸ hv dev hreads
      have hget : getSuper u dev = getSuper s dev := by
        unfold getSuper
        rw [hu2.supers]
      have hfitu : Fits u dev := by
        have := hfit dev hreads
        unfold Fits NextClean freeSuper at this ⊢
        rw [hget, hu2.disk, hu2.supers]
        exact this
      refine (readSuper_spec hb2 ht2 hvu hfitu).bind fun p _ hread => ?_
      cases hread with
      | unknown hg hk =>
        exact hback (by decide) hu2 hboth hxr hzr
      | known k hg =>
        obtain ⟨hk, hku, -⟩ := getSuper_some hg
        have hmt := ht2.mounted hk hku
        obtain ⟨i, hi, -⟩ := hmt.on
        dsimp only
        rw [setSuper_same]
        refine sat_ite (fun _ => ?_) fun hn => absurd hi (by rw [not_not.1 hn]; exact fun h => nomatch h)
        have hput : putSuper (u.setSuper k { u.supers k with count := (u.supers k).count + 1 }) (some k) = .ok u := by
          rw [putSuper_more rfl (by rw [hmt.count]; decide)]
          exact congrArg Except.ok (setSuper_self u k)
        unfold rollback
        rw [hput]
        exact hback (by decide) hu2 hboth hxr hzr
      | new k v y r b hg hk hf hn =>
        have hidlek := ht2.idle hk hf
        dsimp only
        rw [setSuper_same]
        refine sat_ite (fun hne => absurd (hn.imount.trans hidlek.imount) hne) fun _ => ?_
        rw [setSuper_setSuper]
        have hsx : ((v.setSuper k { y with imount := some z.slot }).inodes x.slot).rdev = dev := by
          have hxu : (u.inodes x.slot).type ≠ .none := (hboth.due hx64).2
          have hxr : x.slot ≠ r := fun h => hxu (h ▸ hn.fresh)
          exact (congrArg Inode.rdev (hn.other x.slot hxr)).trans hdev
        rw [hsx]
        obtain ⟨h1, h2, h3, h4⟩ := hn.attach hb2 ht2 hk hf (congrArg (· + 1) hidlek.count) hg hz64 hc1
        generalize ha : (v.setSuper k { y with imount := some z.slot }).setInode z.slot
          { (v.setSuper k { y with imount := some z.slot }).inodes z.slot with mount := dev } = a
        have ha' : (v.setSuper k { y with imount := some z.slot }).setInode z.slot { v.inodes z.slot with mount := dev } = a := ha
        rw [ha'] at h1 h2
        obtain ⟨t, ht, ho, hfr, hbt⟩ := iput_spec h1 hx64
        rw [ht]
        -- the directory was read for this call
        have hfree : (s.inodes z.slot).type = .none := by
          refine (hs.books.inode z.slot hz64).free.2 ?_
          have hcs := hs.books.count z.slot hz64
          rw [← hu2.held, ← refs_congr hu2.supers, h3, h4] at hcs
          exact hcs
        have hother : ∀ j, j ≠ k → a.supers j = s.supers j := fun j hj => by
          rw [← ha, setInode_supers, setSuper_other _ _ hj, hn.frame.supers, hu2.supers]
        have hself : a.supers k = { y with imount := some z.slot } := by
          rw [← ha, setInode_supers, setSuper_same]
        have hmoves : Moves s a := fun i hi hne => by
          refine .inr ?_
          have him : i ≠ z.slot := fun h => hne (h ▸ hfree)
          have hui := hu2.grows i hi hne
          rw [← ha, setInode_other _ _ him]
          exact hui.trans (hn.grows i hi (by rw [hui.type]; exact hne))
        refine .inr ⟨rfl, dev, k, z.slot, hreads, ⟨hbt, h2.frees h1 hbt ho.toFrame hfr⟩, hk, hu2.supers ▸ hidlek, ?_, ?_, ?_, hfree,
          fun j hj => (congrFun ho.supers j).trans (hother j hj), ?_, fun hti => ?_, hmoves.frees hfr⟩
        · rw [ho.supers, hself]
          exact hn.type
        · rw [ho.supers, hself]
          exact hn.ofDev
        · rw [ho.supers, hself]
        · rw [ho.held, ← ha]
          exact hn.frame.held.trans hu2.held
        · rw [ho.heldBufs, ← ha]
          exact hn.frame.heldBufs.trans (hu2.heldBufs hti)

end Onix.Mount
