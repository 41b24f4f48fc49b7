/-
What `read_super`, `iget` and `put_super` do: a superblock that is read gets a root and a buffer, one that is put for the last time gives
back what its slot points to.
-/
import Onix.Mount.Supers

namespace Onix.Mount

open Onix.Lib

variable {s t u : State} {ds : List Nat} {bs : List Buf} {i j k n r dev : Nat} {b : Buf} {y : Super} {bad : Stop → Prop}

/-! ## `iget` -/

theorem fitInode_zero (h : (s.inodes i).mount = 0) : fitInode s i = .ok (i, s) := if_pos h

theorem readRoot_spec (h : Books ds bs s) (hp : ¬ bad .panic) (ha : 1 ≤ ((s.setSuper k y).supers j).desc.inodes ∨ ¬ bad .assertion)
    (hn : s.disk dev ≠ .unreadable ∨ ¬ bad .null) :
    Sat bad (readRoot (s.setSuper k y) dev j) fun p => ∃ b x, p.2 = ((s.getBuf b).setInode p.1 x).setSuper k y ∧ p.1 < INODE_NR ∧
      (s.inodes p.1).type = .none ∧ x.super = some j ∧ x.dev = dev ∧ x.kind = .dir ∧
      Books (p.1 :: ds) bs ((s.getBuf b).setInode p.1 x) ∧ Grows s ((s.getBuf b).setInode p.1 x) := by
  unfold readRoot
  by_cases hd : 1 ≤ ((s.setSuper k y).supers j).desc.inodes
  · rw [assert_ok hd]
    dsimp only [bind, Except.bind]
    have hfree : getFreeInode (s.setSuper k y) = getFreeInode s := rfl
    rw [hfree]
    rcases getFreeInode_spec h with he | ⟨i, hi, ht, he⟩
    · rw [he]
      exact Sat.error hp
    · rw [he]
      generalize hb : (⟨1024, dev, _⟩ : Buf) = b
      have hbdev : b.dev = dev := by rw [← hb]
      have hdisk : (s.setSuper k y).disk b.dev = s.disk dev := congrArg s.disk hbdev
      by_cases hu : s.disk dev = .unreadable
      · rw [bread_unreadable (hdisk.trans hu)]
        exact Sat.error (hn.resolve_left fun h => h hu)
      · rw [bread_readable (by rw [hdisk]; exact hu)]
        have hclean := (h.inode i hi).clean ht
        have hc0 := (h.inode i hi).free.1 ht
        have hborn := h.born (x := ⟨.minix, dev, (s.disk dev).zone, 1, (s.inodes i).count + 1, (s.inodes i).mount, .dir, some b, some j,
          some .minix⟩) hi ht (fun h => nomatch h) rfl (by dsimp only; omega) hclean.2.2.2 rfl
        dsimp only
        rw [fitInode_zero (by rw [setInode_same]; exact hclean.2.2.2)]
        exact ⟨b, _, rfl, hi, ht, rfl, rfl, rfl, hborn⟩
  · rw [assert_error hd]
    exact Sat.error (ha.resolve_left hd)

theorem Table.noInodes (h : Table s) (hb : Books ds bs s) (ht : (s.supers k).type = .none) (hi : i < INODE_NR) :
    (s.inodes i).super ≠ some k := by
  intro hs
  by_cases hn : (s.inodes i).type = .none
  · rw [((hb.inode i hi).clean hn).2.1] at hs
    cases hs
  · obtain ⟨j, -, h1, h2, -⟩ := h.inode i hi hn
    rw [hs] at h1
    cases h1
    exact h2 ht

theorem iget_own (h : Books ds bs s) (ht : Table s) (hf : (s.supers k).type = .none) (hg : getSuper (s.setSuper k y) dev = some k) :
    iget (s.setSuper k y) dev = readRoot (s.setSuper k y) dev k := by
  have hfind : findInode (s.setSuper k y) dev 1 = .ok none := by
    unfold findInode
    rw [hg]
    dsimp only
    cases hi : findFrom (fun i => ((s.setSuper k y).inodes i).super = some k ∧ ((s.setSuper k y).inodes i).nr = 1) INODE_NR 0 with
    | none => rfl
    | some i =>
      obtain ⟨-, h1, h2⟩ := findFrom_some hi
      exact absurd (of_decide_eq_true h2).1 (ht.noInodes h hf (by omega))
  unfold iget
  rw [hfind]
  dsimp only [bind, Except.bind]
  rw [hg]

theorem Books.grows {bs' : List Buf} (h : Books ds bs s) (h' : Books ds bs' t) (hf : Frame s t) (hm : Moves s t) : Grows s t := by
  intro i hi hne
  refine (hm i hi hne).resolve_left fun hn => hne ?_
  have h1 := (h'.inode i hi).free.1 hn
  have h2 := h'.count i hi
  have h3 := h.count i hi
  rw [hf.held, hf.refs] at h2
  exact (h.inode i hi).free.2 (by omega)

theorem fitInode_over (h : Books ds bs s) (ht : Table s) (hi : i < INODE_NR)
    (hne : (s.inodes i).type ≠ .none) (hg : getSuper (s.setSuper k y) y.dev = some j) (hjk : j ≠ k) :
    Sat (fun _ => False) (fitInode ((s.setSuper k y).hold i) i) fun p => ∃ u, p.2 = u.setSuper k y ∧ p.1 < INODE_NR ∧
      Books (p.1 :: ds) bs u ∧ Frame s u ∧ Grows s u := by
  have hb := h.hold hi hne
  have hgrow := hold_grows s i
  have hframe : Frame s (s.hold i) := (OneSlot.setInode ..).toFrame
  have hmount : (((s.setSuper k y).hold i).inodes i).mount = (s.inodes i).mount := by
    unfold State.hold
    rw [setInode_same]
    rfl
  unfold fitInode
  rw [hmount]
  refine sat_ite (fun _ => ⟨s.hold i, rfl, hi, hb, hframe, hgrow⟩) fun hm => ?_
  cases hg2 : getSuper ((s.setSuper k y).hold i) (s.inodes i).mount with
  | none => exact Sat.error id
  | some l =>
    have hg2 : getSuper (s.setSuper k y) (s.inodes i).mount = some l := hg2
    obtain ⟨t, hput, ho, hfr, hbt⟩ := iput_apart hb hi
    have he : iput ((s.setSuper k y).hold i) (some i) = .ok (t.setSuper k y) := hput k y
    rw [he]
    dsimp only [bind, Except.bind]
    -- a superblock below is found, not the one that is being filled
    have hlk : l ≠ k := by
      rintro rfl
      have hdev := (getSuper_some hg2).2.2
      rw [setSuper_same] at hdev
      rw [← hdev, hg] at hg2
      exact hjk (Option.some.inj hg2)
    obtain ⟨hl, hlu, -⟩ := getSuper_some hg2
    rw [setSuper_other s y hlk] at hlu
    obtain ⟨r, hr, -⟩ := (ht.mounted hl hlu).root
    have hsup : (t.setSuper k y).supers l = s.supers l := by
      rw [setSuper_other t y hlk, ho.supers, hframe.supers]
    rw [hsup, hr]
    have hroot : t.roots l = some r := by
      refine roots_of ?_ ?_
      · rw [ho.supers, hframe.supers]
        exact hlu
      · rw [ho.supers, hframe.supers]
        exact hr
    obtain ⟨hr64, -, hrt⟩ := hbt.pointed hl (.inl hroot)
    have hst : Grows s t := h.grows hbt (hframe.trans ho.toFrame) (hgrow.frees hfr)
    exact ⟨t.hold r, rfl, hr64, hbt.hold hr64 hrt, hframe.trans (ho.toFrame.trans (OneSlot.setInode ..).toFrame), hst.trans (hold_grows t r)⟩

theorem iget_over (h : Books ds bs s) (ht : Table s) (hk : k < SUPER_NR) (hf : (s.supers k).type = .none) (hy : y.type ≠ .none) :
    Sat (fun _ => False) (iget (s.setSuper k y) y.dev) fun p => ∃ u, p.2 = u.setSuper k y ∧ p.1 < INODE_NR ∧ Books (p.1 :: ds) bs u ∧
      Frame s u ∧ Grows s u := by
  have hread : ∀ j, Sat (fun _ => False) (readRoot (s.setSuper k y) y.dev j) fun p => ∃ u, p.2 = u.setSuper k y ∧ p.1 < INODE_NR ∧
      Books (p.1 :: ds) bs u ∧ Frame s u ∧ Grows s u := by
    intro j
    refine (readRoot_spec h id (.inr id) (.inr id)).mono fun p hp => ?_
    obtain ⟨b, x, h1, h2, -, -, -, -, h3, h4⟩ := hp
    exact ⟨_, h1, h2, h3, ⟨rfl, rfl, rfl, rfl, rfl⟩, h4⟩
  obtain ⟨j, hj, hcase⟩ := getSuper_over (s := s) hy hk
  by_cases hjk : j = k
  · rw [iget_own h ht hf (hjk ▸ hj)]
    exact hread k
  · unfold iget findInode
    rw [hj]
    dsimp only [bind, Except.bind]
    cases hi : findFrom (fun i => ((s.setSuper k y).inodes i).super = some j ∧ ((s.setSuper k y).inodes i).nr = 1) INODE_NR 0 with
    | none =>
      exact hread j
    | some i =>
      obtain ⟨-, h1, h2⟩ := findFrom_some hi
      have hi64 : i < INODE_NR := by omega
      have hs : (s.inodes i).super = some j := (of_decide_eq_true h2).1
      refine fitInode_over h ht hi64 (fun hn => ?_) hj hjk
      rw [((h.inode i hi64).clean hn).2.1] at hs
      cases hs

/-! ## `read_super` -/

/-- The superblock `y` has been read into slot `k`, where `x` was, with a root in slot `r` and the buffer `b`; `u` is what it stands over. -/
structure New (s : State) (ds : List Nat) (bs : List Buf) (dev k : Nat) (x : Super) (u : State) (y : Super) (r : Nat) (b : Buf) : Prop where
  books : Books (r :: ds) (b :: bs) u
  frame : Frame s u
  grows : Grows s u
  type : y.type ≠ .none
  ofDev : y.dev = dev
  count : y.count = x.count
  imount : y.imount = x.imount
  iroot : y.iroot = some r
  buf : y.buf = some b
  slot : r < INODE_NR
  fresh : (s.inodes r).type = .none
  super : (u.inodes r).super = some k
  rootDev : (u.inodes r).dev = dev
  kind : (u.inodes r).kind ≠ .block
  other : ∀ j, j ≠ r → u.inodes j = s.inodes j

theorem minixSuper_no {x : Super} (hd : ∀ desc zone, s.disk dev ≠ .minix desc zone) :
    minixSuper (s.setSuper k x) dev k = .ok (false, s.setSuper k x) := by
  unfold minixSuper
  by_cases hu : s.disk dev = .unreadable
  · rw [bread_unreadable (show (s.setSuper k x).disk (minixBlock dev).dev = _ from hu)]
  · rw [bread_readable (show (s.setSuper k x).disk (minixBlock dev).dev ≠ _ from hu)]
    dsimp only
    split
    · rename_i desc zone heq
      exact absurd heq (hd desc zone)
    · rw [brelse_getBuf]
      rfl

theorem isoSuper_no {x : Super} (hd : ∀ lba, s.disk dev ≠ .iso9660 lba) : isoSuper (s.setSuper k x) dev k = .ok (false, s.setSuper k x) := by
  unfold isoSuper
  by_cases hu : s.disk dev = .unreadable
  · rw [bread_unreadable (show (s.setSuper k x).disk (isoBlock dev).dev = _ from hu)]
  · rw [bread_readable (show (s.setSuper k x).disk (isoBlock dev).dev ≠ _ from hu)]
    dsimp only
    split
    · rename_i lba heq
      exact absurd heq (hd lba)
    · rw [brelse_getBuf]
      rfl

theorem minixSuper_new {x : Super} {desc : Minix.Desc} {zone : Nat} (h : Books ds bs s) (ht : Table s) (hk : k < SUPER_NR)
    (hf : (s.supers k).type = .none) (hg : getSuper s dev = none) (hd : s.disk dev = .minix desc zone) (hv : 1 ≤ desc.inodes) :
    Sat Bad (minixSuper (s.setSuper k x) dev k) fun p => p.1 = true ∧ ∃ u y r b, p.2 = u.setSuper k y ∧ New s ds bs dev k x u y r b := by
  have hr : s.disk dev ≠ .unreadable := by
    rw [hd]
    exact fun h => nomatch h
  unfold minixSuper
  rw [bread_readable (show (s.setSuper k x).disk (minixBlock dev).dev ≠ _ from hr)]
  dsimp only
  have hdisk : ((s.setSuper k x).getBuf (minixBlock dev)).disk dev = .minix desc zone := hd
  rw [hdisk]
  dsimp only
  have hx : ((s.setSuper k x).getBuf (minixBlock dev)).supers k = x := setSuper_same ..
  rw [hx]
  generalize hy : ({ x with type := .minix, dev := dev, buf := some (minixBlock dev), desc := desc } : Super) = y
  have hover : ((s.setSuper k x).getBuf (minixBlock dev)).setSuper k y = (s.getBuf (minixBlock dev)).setSuper k y := setSuper_setSuper (s.getBuf _) ..
  rw [hover]
  have hb := h.getBuf (minixBlock dev)
  have htb : Table (s.getBuf (minixBlock dev)) := ht.inodes h rfl (fun i _ _ => .refl _) fun i _ _ => .inl (.refl _)
  have hyt : y.type ≠ .none := by
    rw [← hy]
    exact fun h => nomatch h
  have hyd : y.dev = dev := by rw [← hy]
  have hgk : getSuper ((s.getBuf (minixBlock dev)).setSuper k y) dev = some k := by
    obtain ⟨j, hj, rfl | ⟨h1, -, h3, h4⟩⟩ := getSuper_over (s := s.getBuf (minixBlock dev)) hyt hk
    · rw [← hyd]
      exact hj
    · exact absurd (h4.trans hyd) (getSuper_none hg h1 h3)
  rw [iget_own hb htb hf hgk]
  have hdesc : 1 ≤ (((s.getBuf (minixBlock dev)).setSuper k y).supers k).desc.inodes := by
    rw [setSuper_same, ← hy]
    exact hv
  refine (readRoot_spec hb (fun h => h rfl) (.inl hdesc) (.inl hr)).bind fun p hp hq => ?_
  obtain ⟨b, z, h1, h2, h3, h4, h5, h6, h7, h8⟩ := hq
  rw [h1]
  refine ⟨rfl, _, { y with iroot := some p.1 }, p.1, minixBlock dev, ?_, h7, ⟨rfl, rfl, rfl, rfl, rfl⟩, h8, hyt, hyd, ?_, ?_, rfl, ?_, h2, h3, ?_, ?_, ?_,
    fun j hj => setInode_other _ z hj⟩
  · dsimp only
    rw [setSuper_setSuper, setSuper_same]
  · rw [← hy]
  · rw [← hy]
  · rw [← hy]
  · rw [setInode_same]
    exact h4
  · rw [setInode_same]
    exact h5
  · rw [setInode_same, h6]
    exact fun h => nomatch h

theorem isoSuper_new {x : Super} {lba : Nat} (h : Books ds bs s) (hd : s.disk dev = .iso9660 lba) :
    Sat Bad (isoSuper (s.setSuper k x) dev k) fun p => p.1 = true ∧ ∃ u y r b, p.2 = u.setSuper k y ∧ New s ds bs dev k x u y r b := by
  have hr : s.disk dev ≠ .unreadable := by
    rw [hd]
    exact fun h => nomatch h
  unfold isoSuper
  rw [bread_readable (show (s.setSuper k x).disk (isoBlock dev).dev ≠ _ from hr)]
  dsimp only
  have hdisk : ((s.setSuper k x).getBuf (isoBlock dev)).disk dev = .iso9660 lba := hd
  rw [hdisk]
  have hx : ((s.setSuper k x).getBuf (isoBlock dev)).supers k = x := setSuper_same ..
  rw [hx]
  generalize hy : ({ x with type := .iso9660, dev := dev, buf := some (isoBlock dev), desc := volumeDesc } : Super) = y
  have hover : ((s.setSuper k x).getBuf (isoBlock dev)).setSuper k y = (s.getBuf (isoBlock dev)).setSuper k y := setSuper_setSuper (s.getBuf _) ..
  rw [hover]
  have hb := h.getBuf (isoBlock dev)
  have hfree : getFreeInode ((s.getBuf (isoBlock dev)).setSuper k y) = getFreeInode (s.getBuf (isoBlock dev)) := rfl
  rw [hfree]
  rcases getFreeInode_spec hb with he | ⟨i, hi, hti, he⟩
  · rw [he]
    exact sat_panic
  · rw [he]
    dsimp only [bind, Except.bind]
    have hclean := (h.inode i hi).clean hti
    have hc0 : (s.inodes i).count = 0 := (h.inode i hi).free.1 hti
    generalize hz : (⟨.iso9660, dev, _, lba, _, _, .dir, some (isoBlock dev), some k, some .iso9660⟩ : Inode) = z
    obtain ⟨h7, h8⟩ := hb.born (x := z) (b := isoBlock dev) hi hti (by rw [← hz]; exact fun h => nomatch h) (by rw [← hz])
      (by rw [← hz]; exact congrArg (· + 1) hc0) (by rw [← hz]; exact hclean.2.2.2) (by rw [← hz])
    refine ⟨rfl, _, { y with iroot := some i }, i, isoBlock dev, ?_, h7, ⟨rfl, rfl, rfl, rfl, rfl⟩, h8, ?_, ?_, ?_, ?_, rfl, ?_, hi, hti, ?_, ?_, ?_,
      fun j hj => setInode_other _ z hj⟩
    · have hsup : ((((s.getBuf (isoBlock dev)).setSuper k y).getBuf (isoBlock dev)).setInode i z).supers k = y := setSuper_same ..
      rw [hsup]
      exact setSuper_setSuper (((s.getBuf (isoBlock dev)).getBuf (isoBlock dev)).setInode i z) k y _
    · rw [← hy]
      exact fun h => nomatch h
    · rw [← hy]
    · rw [← hy]
    · rw [← hy]
    · rw [← hy]
    · rw [setInode_same, ← hz]
    · rw [setInode_same, ← hz]
    · rw [setInode_same, ← hz]
      exact fun h => nomatch h

/-! ## `put_super` -/

def Super.idle (y : Super) : Super := { y with count := 0, type := .none }

theorem putSuper_more {c : Nat} (hc : y.count = c + 1) (h0 : c ≠ 0) :
    putSuper (s.setSuper k y) (some k) = .ok (s.setSuper k { y with count := c }) := by
  unfold putSuper
  simp only [setSuper_same, setSuper_setSuper, hc, Nat.add_sub_cancel]
  exact if_pos h0

theorem putSuper_once (hc : y.count = 1) (hm : y.imount = none) : putSuper (s.setSuper k y) (some k) = (do
    let s ← iput (s.setSuper k y.idle) y.iroot
    brelse s (s.supers k).buf) := by
  unfold putSuper
  simp only [setSuper_same, setSuper_setSuper, hc, hm]
  dsimp only [bind, Except.bind]
  have hnone : ∀ t : State, Mount.iput t none = .ok t := fun _ => rfl
  rw [hnone]
  dsimp only
  rw [setSuper_same, hm.symm]
  rfl

theorem putSuper_last (hc : y.count = 1) (hm : y.imount = none) (h : Books (y.iroot.toList ++ ds) (y.buf.toList ++ bs) u)
    (hr : ∀ r, y.iroot = some r → r < INODE_NR) : ∃ v, putSuper (u.setSuper k y) (some k) = .ok (v.setSuper k y.idle) ∧ Books ds bs v ∧
      Frame u v ∧ Frees u v := by
  have hroot : ∃ v, iput (u.setSuper k y.idle) y.iroot = .ok (v.setSuper k y.idle) ∧ Books ds (y.buf.toList ++ bs) v ∧ Frame u v ∧ Frees u v := by
    cases ho : y.iroot with
    | none =>
      rw [ho] at h
      exact ⟨u, rfl, h, .refl u, .refl u⟩
    | some r =>
      rw [ho] at h
      obtain ⟨v, hv, hone, hfr, hb⟩ := iput_apart h (hr r ho)
      exact ⟨v, hv k y.idle, hb, hone.toFrame, hfr⟩
  obtain ⟨v, hv, hb, hf, hfr⟩ := hroot
  rw [putSuper_once hc hm, hv]
  dsimp only [bind, Except.bind]
  rw [setSuper_same]
  have hib : y.idle.buf = y.buf := rfl
  rw [hib]
  cases ho : y.buf with
  | none =>
    rw [ho] at hb
    exact ⟨v, rfl, hb, hf, hfr⟩
  | some b =>
    rw [ho] at hb
    obtain ⟨h1, h2⟩ := hb.brelse
    refine ⟨v.putBuf b, ?_, h2, hf.trans ⟨rfl, rfl, rfl, rfl, rfl⟩, hfr.trans fun _ _ => .inr (.refl _)⟩
    refine brelse_ok (s := v.setSuper k y.idle) ?_
    have hbb := hb.bufs b
    rw [Option.toList_some, List.singleton_append, List.count_cons_self] at hbb
    change v.bufs b ≠ 0
    omega

theorem Books.idle (h : Books ds bs s) (hk : k < SUPER_NR) (hf : (s.supers k).type = .none) (hy : y.type = .none) : Books ds bs (s.setSuper k y) := by
  have hold : ∀ {α : Type} (p : Option α), (s.supers k).live p = none := fun _ => if_pos hf
  have hnew : ∀ {α : Type} (p : Option α), y.live p = none := fun _ => if_pos hy
  refine h.setSuper hk (fun i => ?_) (fun b => ?_) ?_ ?_ ?_
  · unfold Super.points
    rw [hold, hold, hnew, hnew]
  · unfold Super.pointsBuf
    rw [hold, hnew]
  · intro i hi
    rw [hnew, hnew] at hi
    rcases hi with hi | hi <;> cases hi
  · intro i _ _ hm
    unfold State.mounts at hm
    rw [hold] at hm
    cases hm
  · rintro rfl
    have := (roots_used h.root).1
    exact absurd hf this

/-! ## What `read_super` finds -/

theorem readSuper_known (h : getSuper s dev = some k) :
    readSuper s dev = .ok (some k, s.setSuper k { s.supers k with count := (s.supers k).count + 1 }) := by
  unfold readSuper
  rw [h]

def freeSuper (s : State) : Option Nat := findFrom (fun k => (s.supers k).type = .none) SUPER_NR 0

theorem getFreeSuper_spec (h : Table s) :
    getFreeSuper s = .error .panic ∨ ∃ k < SUPER_NR, freeSuper s = some k ∧ (s.supers k).type = .none ∧ getFreeSuper s = .ok k := by
  unfold getFreeSuper freeSuper
  cases hf : findFrom (fun k => (s.supers k).type = .none) SUPER_NR 0 with
  | none => exact .inl rfl
  | some k =>
    obtain ⟨-, hk, ht⟩ := findFrom_some hf
    have ht : (s.supers k).type = .none := of_decide_eq_true ht
    refine .inr ⟨k, hk, rfl, ht, ?_⟩
    dsimp only
    rw [assert_ok (h.idle hk ht).count]
    rfl

theorem readSuper_unknown (ht : Table s) (hg : getSuper s dev = none) (h1 : ∀ desc zone, s.disk dev ≠ .minix desc zone)
    (h2 : ∀ lba, s.disk dev ≠ .iso9660 lba) (hc : ∀ k, freeSuper s = some k → (s.supers k).iroot = none ∧ (s.supers k).buf = none) :
    readSuper s dev = .error .panic ∨ readSuper s dev = .ok (none, s) := by
  unfold readSuper
  rw [hg]
  rcases getFreeSuper_spec ht with he | ⟨k, hk, hf, hk0, he⟩
  · rw [he]
    exact .inl rfl
  · rw [he]
    right
    obtain ⟨hidle1, hidle2, hidle3⟩ := ht.idle hk hk0
    obtain ⟨hc1, hc2⟩ := hc k hf
    dsimp only [bind, Except.bind]
    rw [minixSuper_no h1]
    dsimp only
    rw [if_neg (fun h => nomatch h), isoSuper_no h2]
    dsimp only
    have hidle : ∀ z : Super, z.type = .none → z.count = 0 → ({ z with count := z.count + 1 } : Super).idle = z := by
      rintro ⟨⟩ h1 h2
      cases h1
      cases h2
      rfl
    have hput := putSuper_once (s := s) (k := k) (y := { s.supers k with count := (s.supers k).count + 1 }) (congrArg (· + 1) hidle2) hidle3
    rw [hidle _ hidle1 hidle2, setSuper_self] at hput
    rw [hput]
    rw [hc1]
    dsimp only [iput, bind, Except.bind]
    rw [hc2]
    rfl

theorem readSuper_new (h : Books ds bs s) (ht : Table s) (hg : getSuper s dev = none)
    (hd : (∃ desc zone, s.disk dev = .minix desc zone) ∨ ∃ lba, s.disk dev = .iso9660 lba) (hv : (s.disk dev).Valid) :
    Sat Bad (readSuper s dev) fun p => ∃ k u y r b, p = (some k, u.setSuper k y) ∧ k < SUPER_NR ∧ (s.supers k).type = .none ∧
      New s ds bs dev k { s.supers k with count := (s.supers k).count + 1 } u y r b := by
  unfold readSuper
  rw [hg]
  rcases getFreeSuper_spec ht with he | ⟨k, hk, -, hk0, he⟩
  · rw [he]
    exact sat_panic
  · rw [he]
    dsimp only [bind, Except.bind]
    rcases hd with ⟨desc, zone, hd⟩ | ⟨lba, hd⟩
    · rw [hd] at hv
      refine (minixSuper_new h ht hk hk0 hg hd hv).bind fun p _ hq => ?_
      obtain ⟨h1, u, y, r, b, h2, hnew⟩ := hq
      rw [h1, if_pos rfl, h2]
      exact ⟨k, u, y, r, b, rfl, hk, hk0, hnew⟩
    · rw [minixSuper_no (by rw [hd]; exact fun _ _ h => nomatch h)]
      refine (isoSuper_new h hd).bind fun p _ hq => ?_
      obtain ⟨h1, u, y, r, b, h2, hnew⟩ := hq
      rw [h1, if_pos rfl, h2]
      exact ⟨k, u, y, r, b, rfl, hk, hk0, hnew⟩

end Onix.Mount
