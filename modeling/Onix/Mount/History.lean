/-
The table of superblocks over whole runs of `mkfs`, `mount` and `umount`: what a slot that is not in use holds, what a call that fails leaves
behind, and what a filesystem that is mounted and unmounted does.
-/
import Onix.Mount.Mkfs

namespace Onix.Mount

open List Function Onix.Lib

variable {s t u : State} {a : Act} {i j k n dev : Nat} {ret : Int}

/-! ## Runs -/

def Empty (s : State) : Prop := ∀ k < SUPER_NR, (s.supers k).type = .none → (s.supers k).imount = none ∧ (s.supers k).iroot = none ∧ (s.supers k).buf = none

/-- After the boot the slots that are not in use are as they were set up. -/
structure Start (s : State) : Prop where
  rest : Rest s
  empty : Empty s

def mounts : Machine State Act Stop where
  start := Start
  enabled := enabled
  step := step

/-- No device that is not recognised is read into a slot that still points somewhere, or is to be unmounted. -/
def Orderly (s : State) (a : Act) : Prop :=
  match a with
  | .mount dev dir => ∀ d ∈ reads s (.mount dev dir), Fits s d
  | .umount target => ∀ d ∈ reads s (.umount target), getSuper s d ≠ none ∨ (s.disk d).Known
  | _ => True

/-- No superblock that was filled is put for the last time: nothing is formatted, and what is to be unmounted is mounted and in use. -/
def Spares (s : State) (a : Act) : Prop :=
  match a with
  | .mkfs dev _ => ¬ Formats s dev
  | .umount target => ∀ d ∈ reads s (.umount target), InUse s target d
  | _ => True

def Act.Tight : Act → Prop
  | .mkfs dev _ => dev.leaks = []
  | .mount dev dir => dev.leaks = [] ∧ dir.leaks = []
  | .umount target => target.leaks = []
  | .open path => path.leaks = []
  | .close _ => True
  | .write _ _ => True

theorem InUse.found {target : Path} (h : InUse s target dev) : getSuper s dev ≠ none := by
  intro hg
  unfold InUse at h
  rw [hg] at h
  exact h

theorem Empty.nextClean (h : Empty s) : NextClean s := by
  unfold NextClean
  cases hf : freeSuper s with
  | none => trivial
  | some k =>
    obtain ⟨-, h1, h2⟩ := findFrom_some hf
    exact (h k (by omega) (of_decide_eq_true h2)).2

theorem Spares.orderly (h : Spares s a) (he : Empty s) : Orderly s a := by
  cases a with
  | mount dev dir => exact fun d _ => .inr (.inr he.nextClean)
  | umount target => exact fun d hd => .inl (h d hd).found
  | _ => trivial

/-! ## What one call keeps -/

theorem Rest.disk {c : Nat → Content} (h : Rest s) : Rest { s with disk := c } :=
  ⟨⟨h.books.count, h.books.bufs, h.books.inode, h.books.range, h.books.marked, h.books.root⟩,
    h.table.inodes h.books rfl (fun _ _ _ => .refl _) fun _ _ _ => .inl (.refl _)⟩

theorem Books.keep {ds : List Nat} {bs : List Buf} (h : Books (i :: ds) bs s) :
    Books ds bs { s with held := update s.held i (s.held i + 1) } := by
  refine ⟨fun j hj => ?_, h.bufs, h.inode, h.range, h.marked, h.root⟩
  have hc := h.count j hj
  by_cases hji : j = i
  · subst hji
    rw [count_cons_self] at hc
    dsimp only
    rw [update_self]
    change (s.inodes j).count = s.held j + 1 + s.refs j + ds.count j
    omega
  · rw [count_cons_of_ne (Ne.symm hji)] at hc
    dsimp only
    rw [update_of_ne hji]
    exact hc

theorem Books.unkeep {ds : List Nat} {bs : List Buf} (h : Books ds bs s) (hi : 0 < s.held i) :
    Books (i :: ds) bs { s with held := update s.held i (s.held i - 1) } := by
  refine ⟨fun j hj => ?_, h.bufs, h.inode, h.range, h.marked, h.root⟩
  have hc := h.count j hj
  by_cases hji : j = i
  · subst hji
    rw [count_cons_self]
    dsimp only
    rw [update_self]
    change (s.inodes j).count = s.held j - 1 + s.refs j + (ds.count j + 1)
    omega
  · rw [count_cons_of_ne (Ne.symm hji)]
    dsimp only
    rw [update_of_ne hji]
    exact hc

theorem Rest.after (h : Rest s) (he : enabled s a) (ho : Orderly s a) (hc : call s a = .ok (ret, t)) : Rest t := by
  cases a with
  | mkfs dev args => exact ((sysMkfs_spec (w := False) h he.2 False.elim).of_ok hc).1.rest
  | mount dev dir =>
    obtain ⟨hv, hp, hd⟩ := he
    rcases (sysMount_spec (w := False) h hp hd False.elim hv ho).of_ok hc with ⟨-, hr, -⟩ | ⟨-, d, k, m, -, hatt⟩
    · exact hr.rest
    · exact hatt.rest
  | umount target =>
    obtain ⟨hv, hp⟩ := he
    rcases (sysUmount_spec (w := False) h hp False.elim hv ho).of_ok hc with ⟨-, hr, -⟩ | ⟨-, d, k, m, -, -, hdet⟩
    · exact hr.rest
    · exact hdet.rest
  | «open» path =>
    obtain ⟨hb, -, -, ht⟩ := Path.walk_spec h.books h.table he.2
    unfold call at hc
    dsimp only at hc
    cases hx : path.found with
    | none =>
      have hslots : path.slots = [] := Path.slots_none hx
      rw [hx] at hc
      cases hc
      rw [hslots] at hb
      exact ⟨hb, ht⟩
    | some x =>
      have hslots : path.slots = [x.slot] := Path.slots_some hx
      rw [hx] at hc
      cases hc
      rw [hslots] at hb
      exact ⟨Books.keep hb, ht.inodes hb rfl (fun _ _ _ => .refl _) fun _ _ _ => .inl (.refl _)⟩
  | close i =>
    obtain ⟨-, hi, hpos⟩ := he
    have hb := h.books.unkeep hpos
    have ht : Table { s with held := update s.held i (s.held i - 1) } :=
      h.table.inodes h.books rfl (fun _ _ _ => .refl _) fun _ _ _ => .inl (.refl _)
    obtain ⟨v, hv, hone, hfr, hbv⟩ := iput_spec hb hi
    unfold call at hc
    dsimp only [bind, Except.bind] at hc
    rw [hv] at hc
    cases hc
    exact ⟨hbv, ht.frees hb hbv hone.toFrame hfr⟩
  | write dev content =>
    cases hc
    exact h.disk

theorem Rest.fills (h : Rest s) (he : enabled s a) (hsp : Spares s a) (ho : Orderly s a) (hc : call s a = .ok (ret, t)) (k : Nat) :
    t.supers k = s.supers k ∨ (t.supers k).type ≠ .none := by
  cases a with
  | mkfs dev args => exact .inl (congrFun (((sysMkfs_spec (w := False) h he.2 False.elim).of_ok hc).2 hsp) k)
  | mount dev dir =>
    obtain ⟨hv, hp, hd⟩ := he
    rcases (sysMount_spec (w := False) h hp hd False.elim hv ho).of_ok hc with ⟨-, -, hsup⟩ | ⟨-, d, l, m, -, hatt⟩
    · exact .inl (congrFun hsup k)
    · by_cases hk : k = l
      · subst hk
        exact .inr hatt.used
      · exact .inl (hatt.others k hk)
  | umount target =>
    obtain ⟨hv, hp⟩ := he
    rcases (sysUmount_spec (w := False) h hp False.elim hv ho).of_ok hc with ⟨-, -, hsup | ⟨d, hd, hg⟩⟩ | ⟨-, d, l, m, hd, hn, -⟩
    · exact .inl (congrFun hsup k)
    · exact absurd hg (hsp d hd).found
    · exact absurd (hsp d hd) hn
  | «open» path =>
    obtain ⟨-, hf, -⟩ := Path.walk_spec h.books h.table he.2
    unfold call at hc
    dsimp only at hc
    cases hx : path.found with
    | none =>
      rw [hx] at hc
      cases hc
      exact .inl (congrFun hf.supers k)
    | some x =>
      rw [hx] at hc
      cases hc
      exact .inl (congrFun hf.supers k)
  | close i =>
    obtain ⟨-, hi, hpos⟩ := he
    obtain ⟨v, hv, hone, -⟩ := iput_spec (h.books.unkeep hpos) hi
    unfold call at hc
    dsimp only [bind, Except.bind] at hc
    rw [hv] at hc
    cases hc
    exact .inl (congrFun hone.supers k)
  | write dev content =>
    cases hc
    exact .inl rfl

theorem call_of_step (h : step s a = .ok t) : ∃ ret, call s a = .ok (ret, t) := by
  obtain ⟨p, h1, h2⟩ := bind_ok h
  cases h2
  exact ⟨p.1, h1⟩

theorem reach_rest (h : mounts.Reach Orderly s) : Rest s := by
  refine h.inv (I := Rest) (fun _ (hs : Start _) => hs.rest) fun s a t hs ho hst => ?_
  obtain ⟨ret, hc⟩ := call_of_step hst.2
  exact hs.after hst.1 ho hc

theorem reach_empty (h : mounts.Reach Spares s) : Rest s ∧ Empty s := by
  refine h.inv (I := fun s => Rest s ∧ Empty s) (fun _ (hs : Start _) => ⟨hs.rest, hs.empty⟩) fun s a t hs hsp hst => ?_
  obtain ⟨ret, hc⟩ := call_of_step hst.2
  have ho := hsp.orderly hs.2
  refine ⟨hs.1.after hst.1 ho hc, fun k hk ht => ?_⟩
  rcases hs.1.fills hst.1 hsp ho hc k with he | hne
  · rw [he] at ht ⊢
    exact hs.2 k hk ht
  · exact absurd ht hne

/-! ## The table -/

/-- What is as before: after `read_super` has failed, after `mount`, `umount` or `mkfs` has failed, and after `mount` and `umount` of the same
device have succeeded. -/
structure Undone (s : State) : Prop where
  read : ∀ d t, (s.disk d).Valid → Fits s d → readSuper s d = .ok (none, t) → Same s t
  stop : ∀ a e, (∀ dev args, a ≠ .mkfs dev args) → enabled s a → Orderly s a → call s a = .error e → e = .panic
  fail : ∀ a ret t, enabled s a → Orderly s a → a.Tight → call s a = .ok (ret, t) → ret < 0 → Same s t
  pair : ∀ dev dir target t u, enabled s (.mount dev dir) → Orderly s (.mount dev dir) → (Act.mount dev dir).Tight → call s (.mount dev dir) = .ok (0, t) →
    enabled t (.umount target) → (Act.umount target).Tight → reads t (.umount target) = reads s (.mount dev dir) →
    call t (.umount target) = .ok (0, u) → Same s u

theorem Attached.detached {w : Prop} {d l m o : Nat} (hs : Rest s) (ha : Attached w s t d k m) (hd : Detached w t u d l o) : Keeps s u := by
  -- both are about one slot
  obtain ⟨hl, hlu, hld⟩ := getSuper_some hd.found
  obtain rfl : l = k := ha.rest.table.distinct l hl k ha.slot hlu ha.used (hld.trans ha.ofDev.symm)
  have hom : o = m := Option.some.inj (hd.on.symm.trans ha.on)
  refine ⟨hd.held.trans ha.held, fun j _ => ?_, fun i hi hne => ?_⟩
  · by_cases hj : j = l
    · rw [hj]
      exact .inr ⟨ha.idle, hd.idle⟩
    · exact .inl ((hd.others j hj).trans (ha.others j hj))
  · have him : i ≠ o := fun h => hne (by rw [h, hom]; exact ha.free)
    have hti : (t.inodes i).type ≠ .none := fun hn => by
      have h1 := (ha.rest.books.inode i hi).free.1 hn
      have h2 := ha.rest.books.count i hi
      have h3 := hs.books.count i hi
      have h4 : s.refs i ≤ t.refs i := by
        have hsup : t.supers = (s.setSuper l (t.supers l)).supers := by
          funext j
          by_cases hj : j = l
          · subst hj
            rw [setSuper_same]
          · rw [setSuper_other _ _ hj]
            exact ha.others j hj
        have h5 := refs_setSuper s (t.supers l) ha.slot i
        have h6 : (s.supers l).points i = 0 := by
          unfold Super.points Super.live
          rw [if_pos ha.idle.type, if_pos ha.idle.type, if_neg (fun h => nomatch h)]
        rw [refs_congr hsup i]
        omega
      rw [ha.held] at h2
      exact hne ((hs.books.inode i hi).free.2 (by omega))
    have hai := (ha.inodes i hi hne).resolve_left hti
    exact (hd.inodes i hi hti him).imp_right hai.trans

theorem Rest.undone (h : Rest s) : Undone s := by
  refine ⟨fun d t hv hf hr => ?_, fun a e hm he ho hc => ?_, fun a ret t he ho hti hc hneg => ?_, ?_⟩
  · cases (readSuper_spec h.books h.table hv hf).of_ok hr with
    | unknown => exact ⟨fun _ _ => rfl, fun _ _ => rfl, fun _ => rfl, fun _ _ => rfl⟩
  · by_contra hne
    cases a with
    | mkfs dev args => exact hm dev args rfl
    | mount dev dir => exact (sysMount_spec (w := False) h he.2.1 he.2.2 False.elim he.1 ho).not_bad hc hne
    | umount target => exact (sysUmount_spec (w := False) h he.2 False.elim he.1 ho).not_bad hc hne
    | «open» path =>
      unfold call at hc
      dsimp only at hc
      split at hc <;> cases hc
    | close i =>
      obtain ⟨-, hi, hpos⟩ := he
      obtain ⟨v, hv, -⟩ := iput_spec (h.books.unkeep hpos) hi
      unfold call at hc
      dsimp only [bind, Except.bind] at hc
      rw [hv] at hc
      cases hc
    | write dev content => cases hc
  · cases a with
    | mkfs dev args =>
      have hr := ((sysMkfs_spec (w := True) h he.2 fun _ => hti).of_ok hc).1
      exact hr.keeps.same h.books hr.rest.books (hr.heldBufs trivial)
    | mount dev dir =>
      rcases (sysMount_spec (w := True) h he.2.1 he.2.2 (fun _ => hti) he.1 ho).of_ok hc with ⟨-, hr, -⟩ | ⟨h0, -⟩
      · exact hr.keeps.same h.books hr.rest.books (hr.heldBufs trivial)
      · exact absurd h0 (Int.ne_of_lt hneg)
    | umount target =>
      rcases (sysUmount_spec (w := True) h he.2 (fun _ => hti) he.1 ho).of_ok hc with ⟨-, hr, -⟩ | ⟨h0, -⟩
      · exact hr.keeps.same h.books hr.rest.books (hr.heldBufs trivial)
      · exact absurd h0 (Int.ne_of_lt hneg)
    | «open» path =>
      have hu : Under True s (path.walk s) := Path.under h.books h.table he.2 fun _ => hti
      obtain ⟨hb, -⟩ := Path.walk_spec h.books h.table he.2
      unfold call at hc
      dsimp only at hc
      cases hx : path.found with
      | some x =>
        rw [hx] at hc
        cases hc
        cases hneg
      | none =>
        rw [Path.slots_none hx] at hb
        rw [hx] at hc
        cases hc
        exact Keeps.same ⟨hu.held, fun k _ => .inl (congrFun hu.supers k), hu.grows.frees (.refl _)⟩ h.books hb (hu.heldBufs trivial)
    | close i =>
      obtain ⟨v, -, hv⟩ := bind_ok hc
      cases hv
      cases hneg
    | write dev content =>
      cases hc
      cases hneg
  · intro dev dir target t u he ho hti hc he2 hti2 hreads hc2
    rcases (sysMount_spec (w := True) h he.2.1 he.2.2 (fun _ => hti) he.1 ho).of_ok hc with ⟨hneg, -⟩ | ⟨-, d, k, m, hd, ha⟩
    · cases hneg
    · have hfit : ∀ d ∈ reads t (.umount target), getSuper t d ≠ none ∨ (t.disk d).Known := by
        intro d' hd'
        rw [hreads, hd] at hd'
        cases hd'
        obtain ⟨j, hj⟩ := getSuper_exists ha.slot ha.used
        rw [ha.ofDev] at hj
        rw [hj]
        exact .inl fun h => nomatch h
      rcases (sysUmount_spec (w := True) ha.rest he2.2 (fun _ => hti2) he2.1 hfit).of_ok hc2 with ⟨hneg, -⟩ | ⟨-, d', l, o, hd', -, hdet⟩
      · cases hneg
      · rw [hreads, hd] at hd'
        cases hd'
        exact (ha.detached h hdet).same h.books hdet.rest.books ((hdet.heldBufs trivial).trans (ha.heldBufs trivial))

/-- As long as no superblock that was filled is put for the last time, the slots that are not in use hold nothing. As long as no device that is
not recognised is read into a slot that still points somewhere, what fails is undone, and so is what is mounted and unmounted. -/
theorem mount_table (s : State) : (mounts.Reach Spares s → Empty s) ∧ (mounts.Reach Orderly s → Undone s) :=
  ⟨fun h => (reach_empty h).2, fun h => (reach_rest h).undone⟩

/-! ## A tree with nothing mounted in it -/

instance : ∀ c : Content, Decidable c.Valid
  | .minix desc _ => inferInstanceAs (Decidable (1 ≤ desc.inodes))
  | .unreadable | .unknown | .iso9660 _ => inferInstanceAs (Decidable True)

instance (x : Found) (s : State) : Decidable (x.Ok s) :=
  match h : x.fresh with
  | none => decidable_of_iff (x.slot < INODE_NR ∧ (s.inodes x.slot).type ≠ .none) (by simp [Found.Ok, h])
  | some y =>
    match hk : y.super with
    | none => isFalse (by simp [Found.Ok, h, hk])
    | some k => decidable_of_iff (x.slot < INODE_NR ∧ findFrom (fun i => (s.inodes i).type = .none) INODE_NR 0 = some x.slot ∧ y.type ≠ .none ∧
        y.op = some y.type ∧ y.count = 1 ∧ y.mount = 0 ∧ y.buf ≠ none ∧ k < SUPER_NR ∧ (s.supers k).type ≠ .none ∧
        y.dev = (s.supers k).dev ∧ ∀ i < INODE_NR, (s.inodes i).super = some k → (s.inodes i).nr ≠ y.nr) (by simp [Found.Ok, h, hk])

instance (p : Path) (s : State) : Decidable (p.Ok s) :=
  match h : p.found with
  | none => isTrue (by simp [Path.Ok, h])
  | some x => decidable_of_iff (x.Ok s) (by simp [Path.Ok, h])

instance (s : State) : ∀ a : Act, Decidable (mounts.enabled s a)
  | .mkfs dev args => inferInstanceAs (Decidable ((∀ d ∈ reads s (.mkfs dev args), (s.disk d).Valid) ∧ dev.Ok s))
  | .mount dev dir => inferInstanceAs (Decidable ((∀ d ∈ reads s (.mount dev dir), (s.disk d).Valid) ∧ dev.Ok s ∧ dir.Ok (dev.walk s)))
  | .umount target => inferInstanceAs (Decidable ((∀ d ∈ reads s (.umount target), (s.disk d).Valid) ∧ target.Ok s))
  | .open path => inferInstanceAs (Decidable ((∀ d ∈ reads s (.open path), (s.disk d).Valid) ∧ path.Ok s))
  | .close i => inferInstanceAs (Decidable ((∀ d ∈ reads s (.close i), (s.disk d).Valid) ∧ i < INODE_NR ∧ 0 < s.held i))
  | .write dev c => inferInstanceAs (Decidable ((∀ d ∈ reads s (.write dev c), (s.disk d).Valid) ∧ True))

/-- Only the root is in memory, and a task is there. Device 3 holds a filesystem, device 4 nothing that is recognised. -/
def boot : State where
  inodes i := if i = 0 then ⟨.minix, 1, 0, 1, 3, 1, .dir, some ⟨1024, 1, 4⟩, some 0, some .minix⟩ else ⟨.none, 0, 0, 0, 0, 0, .other, none, none, none⟩
  supers k := if k = 0 then ⟨.minix, 1, 1, some 0, some 0, some (minixBlock 1), ⟨64, 200, 1, 1, 6⟩⟩ else ⟨.none, 0, 0, none, none, none, ⟨0, 0, 0, 0, 0⟩⟩
  bufs b := if b = ⟨1024, 1, 4⟩ ∨ b = minixBlock 1 then 1 else 0
  disk d := if d = 3 then .minix ⟨64, 200, 1, 1, 6⟩ 6 else .unknown
  blocks _ := 200
  held i := if i = 0 then 1 else 0
  heldBufs _ := 0

theorem boot_start : Start boot := by
  have hempty : ∀ i, i ≠ 0 → boot.inodes i = ⟨.none, 0, 0, 0, 0, 0, .other, none, none, none⟩ := fun i hi => if_neg hi
  have hidle : ∀ k, k ≠ 0 → boot.supers k = ⟨.none, 0, 0, none, none, none, ⟨0, 0, 0, 0, 0⟩⟩ := fun k hk => if_neg hk
  have h0 : (0 : Nat) ∈ superSlots := mem_superSlots.2 (by decide)
  have hone : ∀ {α : Type} (f : Nat → Option α) (x : Option α), f 0 = x → (∀ k, k ≠ 0 → f k = none) → f = update (fun _ => none) 0 x := by
    intro α f x h1 h2
    funext k
    by_cases hk : k = 0
    · subst hk
      rw [update_self, h1]
    · rw [update_of_ne hk, h2 k hk]
  have hroots : boot.roots = update (fun _ => none) 0 (some 0) := hone _ _ rfl fun k hk => by
    unfold State.roots
    rw [hidle k hk]
    rfl
  have hmounts : boot.mounts = update (fun _ => none) 0 (some 0) := hone _ _ rfl fun k hk => by
    unfold State.mounts
    rw [hidle k hk]
    rfl
  have hsuper : boot.superBufs = update (fun _ => none) 0 (some (minixBlock 1)) := hone _ _ rfl fun k hk => by
    unfold State.superBufs
    rw [hidle k hk]
    rfl
  have hinode : boot.inodeBufs = update (fun _ => none) 0 (some ⟨1024, 1, 4⟩) := hone _ _ rfl fun i hi => by
    unfold State.inodeBufs
    rw [hempty i hi]
  have hsound : ∀ i, (boot.inodes i).Sound := by
    intro i
    by_cases hi : i = 0
    · subst hi
      exact ⟨⟨nofun, nofun⟩, nofun, fun _ => ⟨rfl, nofun⟩⟩
    · rw [hempty i hi]
      exact ⟨⟨fun _ => rfl, fun _ => rfl⟩, fun _ => ⟨rfl, rfl, rfl, rfl⟩, fun h => absurd rfl h⟩
  refine ⟨⟨⟨fun i _ => ?_, fun b => ?_, fun i _ => hsound i, fun k _ i hi => ?_, fun i _ hm => ?_, rfl⟩, ⟨fun k _ => ?_, ?_, fun i _ hne => ?_, rfl⟩⟩, ?_⟩
  · unfold State.refs
    rw [hroots, hmounts, tally_single h0, count_nil]
    by_cases hi : i = 0
    · subst hi
      rfl
    · rw [hempty i hi, if_neg fun h => hi (Option.some.inj h).symm]
      exact (if_neg hi).symm
  · unfold State.bufRefs
    rw [hinode, hsuper, tally_single (mem_inodeSlots.2 (by decide)), tally_single h0, count_nil]
    change (if b = ⟨1024, 1, 4⟩ ∨ b = minixBlock 1 then 1 else 0) = 0 + _ + 0
    by_cases h1 : b = ⟨1024, 1, 4⟩
    · subst h1
      rfl
    · by_cases h2 : b = minixBlock 1
      · subst h2
        rfl
      · rw [if_neg (not_or.2 ⟨h1, h2⟩), if_neg fun h => h1 (Option.some.inj h).symm, if_neg fun h => h2 (Option.some.inj h).symm]
  · have hk : k = 0 := by
      by_contra hk
      unfold State.roots State.mounts at hi
      rw [hidle k hk] at hi
      rcases hi with hi | hi <;> cases hi
    subst hk
    rcases hi with hi | hi <;> cases hi <;> decide
  · have hi : i = 0 := by
      by_contra hi
      rw [hempty i hi] at hm
      exact hm rfl
    subst hi
    exact ⟨0, by decide, rfl⟩
  · by_cases hk : k = 0
    · subst hk
      exact .inr ⟨nofun, rfl, ⟨0, rfl, rfl, nofun⟩, ⟨0, rfl, rfl, fun h => absurd rfl h⟩⟩
    · rw [hidle k hk]
      exact .inl ⟨rfl, rfl, rfl⟩
  · intro j _ k _ hj hk _
    have hzero : ∀ l, (boot.supers l).type ≠ .none → l = 0 := fun l hl => by
      by_contra h
      rw [hidle l h] at hl
      exact hl rfl
    rw [hzero j hj, hzero k hk]
  · have hi : i = 0 := by
      by_contra hi
      rw [hempty i hi] at hne
      exact hne rfl
    subst hi
    exact ⟨0, by decide, rfl, nofun, rfl⟩
  · intro k _ hk
    have hk0 : k ≠ 0 := by
      rintro rfl
      cases hk
    rw [hidle k hk0]
    exact ⟨rfl, rfl, rfl⟩

/-- The block file of a device, which is read into slot 1, and a directory, which is read into slot 2. -/
def device (dev : Nat) : Path := ⟨some ⟨1, some ⟨.minix, 1, dev, 7 + dev, 1, 0, .block, some ⟨1024, 1, 4⟩, some 0, some .minix⟩⟩, []⟩

def directory : Path := ⟨some ⟨2, some ⟨.minix, 1, 6, 20, 1, 0, .dir, some ⟨1024, 1, 5⟩, some 0, some .minix⟩⟩, []⟩

/-- Device 3 is mounted and unmounted. -/
theorem mount_table_mounted : ∃ t u, call boot (.mount (device 3) directory) = .ok (0, t) ∧ call t (.umount (device 3)) = .ok (0, u) ∧
    (t.supers 1).type = .minix ∧ Same boot u := by
  have hr : mounts.Reach Orderly boot := ⟨boot, boot_start, .refl _⟩
  have h1 : (match call boot (.mount (device 3) directory) with
    | .ok (ret, t) => ret == 0 && (t.supers 1).type == .minix && decide (mounts.enabled t (.umount (device 3))) &&
        reads t (.umount (device 3)) == some 3 && (match call t (.umount (device 3)) with
        | .ok (ret, _) => ret == 0
        | .error _ => false)
    | .error _ => false) = true := by decide +kernel
  cases hm : call boot (.mount (device 3) directory) with
  | error e =>
    rw [hm] at h1
    cases h1
  | ok p =>
    obtain ⟨ret, t⟩ := p
    rw [hm] at h1
    simp only [Bool.and_eq_true, beq_iff_eq, decide_eq_true_eq] at h1
    obtain ⟨⟨⟨⟨h2, h3⟩, h4⟩, h5⟩, h6⟩ := h1
    subst h2
    cases hu : call t (.umount (device 3)) with
    | error e =>
      rw [hu] at h6
      cases h6
    | ok q =>
      obtain ⟨ret, u⟩ := q
      rw [hu] at h6
      obtain rfl : ret = 0 := beq_iff_eq.1 h6
      have hread : reads boot (.mount (device 3) directory) = some 3 := by decide +kernel
      have he : mounts.enabled boot (.mount (device 3) directory) := by decide +kernel
      refine ⟨t, u, rfl, hu, h3, (((mount_table boot).2 hr).pair (device 3) directory (device 3) t u he ?_ ⟨rfl, rfl⟩ hm h4
        rfl (h5.trans hread.symm) hu)⟩
      intro d hd
      cases hd
      exact .inr (.inl trivial)

/-- A filesystem has been made on device 3: its slot still holds a root and a buffer, and to mount device 4 gives them back once more. -/
theorem slot_stale : ∃ s, mounts.Reach Machine.Any s ∧ (s.supers 1).type = .none ∧ (s.supers 1).iroot ≠ none ∧ (s.supers 1).buf ≠ none ∧
    enabled s (.mount (device 4) directory) ∧ call s (.mount (device 4) directory) = .error .assertion := by
  have h : ((mounts.trace Machine.Any boot [.mkfs (device 3) 0]).map fun s => decide ((s.supers 1).type = .none ∧ (s.supers 1).iroot ≠ none ∧
      (s.supers 1).buf ≠ none) && decide (mounts.enabled s (.mount (device 4) directory)) && (match call s (.mount (device 4) directory) with
        | .error .assertion => true
        | _ => false)) = some true := by decide +kernel
  obtain ⟨s, hs, hf⟩ := Option.map_eq_some_iff.1 h
  simp only [Bool.and_eq_true, decide_eq_true_eq] at hf
  obtain ⟨⟨⟨h1, h2, h3⟩, h4⟩, h5⟩ := hf
  refine ⟨s, Machine.trace_reach boot_start hs, h1, h2, h3, h4, ?_⟩
  split at h5
  · assumption
  · cases h5

end Onix.Mount
