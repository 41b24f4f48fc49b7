/-
Path resolution balances references. Whatever a call ends with, the inodes in memory are counted as before but for the one it returns or
keeps, and for the old working directory when `sys_chdir` puts another in its place; a buffer is counted as before but for the inodes in
memory, each of which has a reference to the one it was read from, and for the references that were lost.
-/
import Onix.Namei.Paths

namespace Onix.Namei

open Finset Onix.Lib

variable {B : Base} {refs : List Ino} {held : List Buf} {s t : State} {i j : Ino} {c : Call} {o : Outcome}

/-! ## A state between two calls -/

def one (x : Option Ino) (i : Ino) : Nat := if x = some i then 1 else 0

theorem one_self (p : Ino) : one (some p) p = 1 := if_pos rfl

theorem one_ne (h : j ≠ i) : one (some i) j = 0 := if_neg fun heq => h (Option.some.inj heq).symm

def Roots.holds (r : Roots) (i : Ino) : Nat :=
  one (some r.iroot) i + one (some r.ipwd) i + tally Finset.univ r.superRoot i + tally Finset.univ r.superMount i

/-- A free slot has no count, the inodes on the lists of superblocks are in use, and the references of the task and of superblocks are
counted. -/
structure State.InOrder (s : State) : Prop where
  free : ∀ i, (s.slot i).type = .none → (s.slot i).count = 0
  listed : ∀ k i, i ∈ (s.super k).inodeList → (s.slot i).type ≠ .none
  held : ∀ i, s.roots.holds i ≤ (s.slot i).count

def State.base (s : State) : Base :=
  ⟨fun i => (s.slot i).count, fun b => s.bufs b - s.inodeBufs b - s.lost.count b, fun i => (s.slot i).ident, s.roots⟩

theorem State.InOrder.ledger (h : s.InOrder) : Ledger s.base [] [] s where
  counts _ := rfl
  bufs b := by
    show (s.bufs b : Int) = (s.bufs b - s.inodeBufs b - s.lost.count b : Int) + s.inodeBufs b + (0 : Nat) + s.lost.count b
    omega
  free := h.free
  listed := h.listed
  same _ _ := rfl
  roots := rfl

theorem State.InOrder.rooted (h : s.InOrder) : s.base.Rooted where
  iroot := by
    have hone : one (some s.roots.iroot) s.base.roots.iroot = 1 := one_self _
    refine Nat.lt_of_lt_of_le ?_ (h.held _)
    unfold Roots.holds
    omega
  ipwd := by
    have hone : one (some s.roots.ipwd) s.base.roots.ipwd = 1 := one_self _
    refine Nat.lt_of_lt_of_le ?_ (h.held _)
    unfold Roots.holds
    omega
  superRoot k i hi := by
    refine Nat.lt_of_lt_of_le ?_ (h.held i)
    have hpos : 0 < tally univ s.roots.superRoot i := tally_pos.2 ⟨k, mem_univ k, hi⟩
    unfold Roots.holds
    omega
  superMount k i hi := by
    refine Nat.lt_of_lt_of_le ?_ (h.held i)
    have hpos : 0 < tally univ s.roots.superMount i := tally_pos.2 ⟨k, mem_univ k, hi⟩
    unfold Roots.holds
    omega

/-! ## What a call leaves -/

/-- `t` is what a call that began at `s` and ended with `o` may leave. -/
structure Balanced (s t : State) (o : Outcome) : Prop where
  counts : ∀ i, (t.slot i).count + one o.given i = (s.slot i).count + one o.kept i
  bufs : ∀ b, t.bufs b + s.inodeBufs b + s.lost.count b = s.bufs b + t.inodeBufs b + t.lost.count b
  same : ∀ i, one o.given i < (s.slot i).count → (t.slot i).ident = (s.slot i).ident
  fails : o.ret < 0 → o.kept = none ∧ o.given = none
  order : t.InOrder

theorem count_toList (x : Option Ino) (i : Ino) : x.toList.count i = one x i := by
  unfold one
  cases x with
  | none => rfl
  | some j =>
    by_cases hj : j = i
    · subst hj
      simp
    · rw [Option.toList_some, List.count_singleton, if_neg fun h => hj (Option.some.inj h)]
      simp [hj]

theorem Ledger.balanced (hs : s.InOrder) (h : Ledger s.base (o.kept.toList ++ []) [] t) (hgiven : o.given = none)
    (hfails : o.ret < 0 → o.kept = none) : Balanced s t o where
  counts i := by
    have hc := h.counts i
    rw [List.append_nil, count_toList] at hc
    rw [hgiven]
    exact hc
  bufs b := by
    have hb := h.bufs b
    change (t.bufs b : Int) = (s.bufs b - s.inodeBufs b - s.lost.count b : Int) + t.inodeBufs b + (0 : Nat) + t.lost.count b at hb
    omega
  same i hi := by
    rw [hgiven] at hi
    exact h.same i hi
  fails hneg := ⟨hfails hneg, hgiven⟩
  order :=
    { free := h.free
      listed := h.listed
      held := fun i => by
        have hroots : t.roots = s.roots := h.roots
        have hc := h.counts i
        have hheld := hs.held i
        rw [hroots]
        change (t.slot i).count = (s.slot i).count + _ at hc
        omega }

/-! ## After a reference that is not there -/

theorem loose_apart : Apart State.loose := ⟨fun _ _ => rfl, fun _ _ _ => rfl, fun _ _ => rfl⟩

theorem iput_loose (hs : s.loose = true) : Leads (iput (some i)) s fun _ t => t.loose = true :=
  (loose_apart.iput _).mono fun _ _ ht => ht.trans hs

/-! ## The system calls -/

theorem opStat_eq (i : Ino) : Leads (opStat i) s fun _ t => t = s := by
  refine Leads.get (Leads.demand fun op _ => ?_)
  cases op with
  | minix => exact Leads.get (Leads.demand fun _ _ => Leads.pure rfl)
  | iso9660 => exact Leads.get (Leads.demand fun _ _ => Leads.pure rfl)
  | none => exact Leads.fail
  | pipe => exact Leads.fail
  | socket => exact Leads.fail

theorem iput_namei (h : s.loose = true ∨ Ledger B (i :: refs) held s) :
    Leads (iput (some i)) s fun _ t => t.loose = true ∨ Ledger B refs held t := by
  rcases h with hl | h
  · exact (iput_loose hl).mono fun _ _ ht => .inl ht
  · exact (iput_leads (x := some i) h).mono fun _ _ ht => .inr ht

theorem sysStat_leads (hB : B.Rooted) (h : Ledger B refs held s) (path : List Char) :
    Leads (sysStat path) s fun _ t => t.loose = true ∨ Ledger B refs held t := by
  refine (namei_leads hB h path).bind fun x t ht => ?_
  cases x with
  | none => exact Leads.pure ht
  | some i =>
    refine (opStat_eq i).bind ?_
    rintro _ _ rfl
    exact (iput_namei ht).bind fun _ u hu => Leads.pure hu

theorem mkdirIn_leads (hB : B.Rooted) (h : Ledger B refs held s) (mode : Nat) (dir : Ino) (name : List Char) :
    Leads (sysMkdir.mkdirIn mode dir name) s fun _ => Ledger B refs held := by
  refine Leads.ite (fun _ => Leads.pure h) fun _ => (opPermission_leads h _).bind fun ok t ht => ?_
  exact Leads.ite (fun _ => Leads.pure ht) fun _ => opMkdir_leads hB ht mode

theorem sysMkdir_leads (hB : B.Rooted) (h : Ledger B refs held s) (path : List Char) (mode : Nat) :
    Leads (sysMkdir path mode) s fun _ => Ledger B refs held := by
  refine (named_leads hB h path).bind fun x t ht => ?_
  cases x with
  | none => exact Leads.pure ht
  | some x =>
    refine (mkdirIn_leads hB ht mode x.1 x.2).bind fun ret u hu => ?_
    exact (iput_leads (x := some x.1) hu).bind fun _ v hv => Leads.pure hv

theorem sysLink_leads (hB : B.Rooted) (h : Ledger B refs held s) (oldname newname : List Char) :
    Leads (sysLink oldname newname) s fun _ => Ledger B refs held := by
  refine (named_leads hB h oldname).bind fun x t ht => ?_
  cases x with
  | none => exact Leads.fail
  | some x =>
    refine (named_leads hB ht newname).bind fun y u hu => ?_
    cases y with
    | none => exact (iput_leads (x := some x.1) hu).bind fun _ v hv => Leads.pure hv
    | some y =>
      refine (opLink_leads hB hu x.1 x.2).bind fun ret v hv => ?_
      have hswap : Ledger B (x.1 :: y.1 :: refs) held v := hv.swapRefs
      refine (iput_leads (x := some x.1) hswap).bind fun _ w hw => ?_
      exact (iput_leads (x := some y.1) hw).bind fun _ z hz => Leads.pure hz

/-! ## `sys_chdir` -/

def Base.lower (B : Base) (p : Ino) : Base := { B with count := fun j => B.count j - one (some p) j }

theorem Ledger.lower {p : Ino} (h : Ledger B refs held s) (hp : 0 < B.count p) : Ledger (B.lower p) (p :: refs) held s where
  counts j := by
    have hc := h.counts j
    show (s.slot j).count = B.count j - one (some p) j + _
    by_cases hj : j = p
    · subst hj
      rw [one_self, List.count_cons_self]
      omega
    · rw [one_ne hj, count_cons_ne hj]
      exact hc
  bufs := h.bufs
  free := h.free
  listed := h.listed
  same j hj := h.same j (Nat.lt_of_lt_of_le hj (Nat.sub_le _ _))
  roots := h.roots

def State.chdir (s : State) (i : Ino) : State := { s with task := { s.task with ipwd := i } }

theorem chdir_balanced {p : Ino} (hs : s.InOrder) (hp : p = s.task.ipwd) (h : Ledger (s.base.lower p) (i :: refs) [] t)
    (hrefs : refs = []) : Balanced s (t.chdir i) ⟨0, some i, some p⟩ := by
  subst hrefs hp
  have hpos : 0 < (s.slot s.task.ipwd).count := hs.rooted.ipwd
  have hcounts : ∀ j, (t.slot j).count + one (some s.task.ipwd) j = (s.slot j).count + one (some i) j := by
    intro j
    have hc := h.counts j
    rw [show i :: [] = (some i).toList from rfl, count_toList] at hc
    change (t.slot j).count = (s.slot j).count - one (some s.task.ipwd) j + one (some i) j at hc
    by_cases hj : j = s.task.ipwd
    · subst hj
      rw [one_self] at hc ⊢
      omega
    · rw [one_ne hj] at hc ⊢
      omega
  refine ⟨hcounts, ?_, ?_, fun hneg => absurd hneg (Int.lt_irrefl 0), ⟨h.free, h.listed, ?_⟩⟩
  · intro b
    have hb := h.bufs b
    change (t.bufs b : Int) = (s.bufs b - s.inodeBufs b - s.lost.count b : Int) + t.inodeBufs b + (0 : Nat) + t.lost.count b at hb
    show t.bufs b + s.inodeBufs b + s.lost.count b = s.bufs b + t.inodeBufs b + t.lost.count b
    omega
  · intro j hj
    exact h.same j (Nat.sub_pos_of_lt hj)
  · intro j
    have hc := hcounts j
    have hheld := hs.held j
    have hiroot : t.roots.iroot = s.roots.iroot := congrArg Roots.iroot h.roots
    have hroot : t.roots.superRoot = s.roots.superRoot := congrArg Roots.superRoot h.roots
    have hmount : t.roots.superMount = s.roots.superMount := congrArg Roots.superMount h.roots
    show one (some t.roots.iroot) j + one (some i) j + tally univ t.roots.superRoot j + tally univ t.roots.superMount j ≤
      (t.slot j).count
    change one (some s.roots.iroot) j + one (some s.task.ipwd) j + tally univ s.roots.superRoot j +
      tally univ s.roots.superMount j ≤ _ at hheld
    rw [hiroot, hroot, hmount]
    omega

theorem sysChdir_leads (hs : s.InOrder) (path : List Char) : Leads (sysChdir path) s fun r t =>
    t.loose = true ∨ Balanced s t ⟨r.1, r.2.map Prod.snd, r.2.map Prod.fst⟩ ∧
      ∀ x, r.2 = some x → x.1 = s.task.ipwd ∧ x.2 = t.task.ipwd := by
  have hkept : ∀ {t : State} {ret : Int}, Ledger s.base [] [] t → Balanced s t ⟨ret, none, none⟩ := by
    intro t ret ht
    exact Ledger.balanced (o := ⟨ret, none, none⟩) hs ht rfl fun _ => rfl
  refine (namei_leads hs.rooted hs.ledger path).bind fun x t ht => ?_
  cases x with
  | none => exact Leads.pure (ht.imp_right fun ht => ⟨hkept ht, nofun⟩)
  | some i =>
    refine Leads.get (Leads.ensure fun _ => Leads.ite (fun _ => ?_) fun _ => Leads.ite (fun _ => ?_) fun _ => ?_)
    · exact (iput_namei ht).bind fun _ u hu => Leads.pure (hu.imp_right fun hu => ⟨hkept hu, nofun⟩)
    · exact (iput_namei ht).bind fun _ u hu => Leads.pure (hu.imp_right fun hu => ⟨hkept hu, nofun⟩)
    · rcases ht with hl | ht
      · refine (iput_loose hl).bind fun _ u hu => ?_
        exact Leads.bind (R := fun _ v => v.loose = true) (Leads.modify hu) fun _ v hv => Leads.pure (.inl hv)
      · have hp : t.task.ipwd = s.task.ipwd := congrArg Roots.ipwd ht.roots
        have hlow := ht.lower (p := t.task.ipwd) (by rw [hp]; exact hs.rooted.ipwd)
        refine (iput_leads (x := some t.task.ipwd) hlow).bind fun _ u hu => ?_
        refine Leads.bind (R := fun _ v => v = u.chdir i) (Leads.modify rfl) ?_
        rintro _ _ rfl
        refine Leads.pure (.inr ⟨chdir_balanced hs hp hu rfl, fun x hx => ?_⟩)
        cases hx
        exact ⟨hp, rfl⟩

/-! ## The calls -/

def Moved (s t : State) (c : Call) (o : Outcome) : Prop :=
  ∀ i, o.given = some i → (∃ path, c = .sysChdir path) ∧ i = s.task.ipwd ∧ o.kept = some t.task.ipwd

theorem run_leads (hs : s.InOrder) (c : Call) : Leads c.run s fun o t => t.loose = true ∨ Balanced s t o ∧ Moved s t c o := by
  have hB := hs.rooted
  have hL := hs.ledger
  have hret : ∀ {t : State} {c : Call} (ret : Int), Ledger s.base [] [] t → Balanced s t (.ofRet ret) ∧ Moved s t c (.ofRet ret) := by
    intro t c ret ht
    exact ⟨Ledger.balanced (o := .ofRet ret) hs ht rfl fun _ => rfl, nofun⟩
  have hptr : ∀ {t : State} {c : Call} (x : Option Ino), Ledger s.base (x.toList ++ []) [] t →
      Balanced s t (.ofPtr x) ∧ Moved s t c (.ofPtr x) := by
    intro t c x ht
    refine ⟨Ledger.balanced (o := .ofPtr x) hs ht rfl fun hneg => ?_, nofun⟩
    cases x with
    | none => rfl
    | some i => exact absurd hneg (Int.lt_irrefl 0)
  cases c with
  | named path => exact (named_leads hB hL path).bind fun x t ht => Leads.pure (.inr (hptr _ ht))
  | namei path => exact (namei_leads hB hL path).bind fun x t ht => Leads.pure (ht.imp_right fun ht => hptr x ht)
  | minixOpen dir name flags mode =>
    refine (minixOpen_leads hB hL flags mode).bind fun x t ⟨ht, hneg⟩ => Leads.pure (.inr ⟨?_, nofun⟩)
    exact Ledger.balanced (o := ⟨x.1, x.2, none⟩) hs ht rfl hneg
  | minixMkdir dir name mode => exact (minixMkdir_leads hB hL mode).bind fun ret t ht => Leads.pure (.inr (hret ret ht))
  | minixRmdir dir name => exact (minixRmdir_leads hB hL).bind fun ret t ht => Leads.pure (.inr (hret ret ht))
  | minixLink odir oldname ndir newname => exact (minixLink_leads hB hL odir oldname).bind fun ret t ht => Leads.pure (.inr (hret ret ht))
  | minixUnlink dir name => exact (minixUnlink_leads hB hL).bind fun ret t ht => Leads.pure (.inr (hret ret ht))
  | minixMknod dir name mode dev => exact (minixMknod_leads hB hL mode dev).bind fun ret t ht => Leads.pure (.inr (hret ret ht))
  | sysStat path => exact (sysStat_leads hB hL path).bind fun r t ht => Leads.pure (ht.imp_right fun ht => hret r.1 ht)
  | sysChdir path =>
    refine (sysChdir_leads hs path).bind fun r t ht => Leads.pure (ht.imp_right fun ⟨hbal, hmove⟩ => ⟨hbal, fun i hi => ?_⟩)
    cases hr : r.2 with
    | none =>
      rw [hr] at hi
      cases hi
    | some x =>
      rw [hr] at hi
      cases hi
      obtain ⟨hold, hnew⟩ := hmove x hr
      exact ⟨⟨path, rfl⟩, hold, congrArg some hnew⟩
  | sysMkdir path mode => exact (sysMkdir_leads hB hL path mode).bind fun ret t ht => Leads.pure (.inr (hret ret ht))
  | sysLink oldname newname => exact (sysLink_leads hB hL oldname newname).bind fun ret t ht => Leads.pure (.inr (hret ret ht))

/-- Calls one after the other, none of which returns an inode without a reference. -/
inductive Runs : State → List Outcome → State → Prop
  | nil {s : State} : Runs s [] s
  | cons {s t u : State} {c : Call} {o : Outcome} {os : List Outcome} (hrun : c.run s = .ok (o, t)) (hl : t.loose = false)
      (hrest : Runs t os u) : Runs s (o :: os) u

/-- However many calls are made, the count of an inode changes by what they keep of it and what they give back. -/
theorem runs_conserve {os : List Outcome} (h : Runs s os t) (hs : s.InOrder) : t.InOrder ∧
    ∀ i, (t.slot i).count + (os.map fun o => one o.given i).sum = (s.slot i).count + (os.map fun o => one o.kept i).sum := by
  induction h with
  | nil => exact ⟨hs, fun _ => rfl⟩
  | @cons s t u c o os hrun hl hrest ih =>
    rcases run_leads hs c o t hrun with h | ⟨hbal, -⟩
    · rw [hl] at h
      cases h
    · obtain ⟨hu, hcounts⟩ := ih hbal.order
      refine ⟨hu, fun i => ?_⟩
      have h1 := hbal.counts i
      have h2 := hcounts i
      simp only [List.map_cons, List.sum_cons]
      omega

/-- A call that ends leaves every count as it was, but for what it keeps and gives. -/
theorem references_balance (hs : s.InOrder) (hrun : c.run s = .ok (o, t)) (hl : t.loose = false) : Balanced s t o ∧ Moved s t c o := by
  rcases run_leads hs c o t hrun with h | h
  · rw [hl] at h
    cases h
  · exact h

/-! ## A directory with another one in it -/

/-- The superblock, the inodes of `/` and `/a` and the entries of `/`. -/
def diskA (b : Buf) : List Nat :=
  if b = ⟨1, 1, 1024⟩ then [64, 0, 100, 0, 1, 0, 1, 0, 6, 0]
  else if b = ⟨1, 4, 1024⟩ then
    [0xED, 0x41, 0, 0, 48, 0, 0, 0, 0, 0, 0, 0, 0, 3, 10, 0, 0, 0, 0, 0, 0, 0, 0, 0, 0, 0, 0, 0, 0, 0, 0, 0,
      0xED, 0x41, 0, 0, 32, 0, 0, 0, 0, 0, 0, 0, 0, 2, 11]
  else if b = ⟨1, 10, 1024⟩ then
    [1, 0, 46, 0, 0, 0, 0, 0, 0, 0, 0, 0, 0, 0, 0, 0, 1, 0, 46, 46, 0, 0, 0, 0, 0, 0, 0, 0, 0, 0, 0, 0, 2, 0, 97]
  else []

def stateA : State where
  slot i :=
    if i = 0 then ⟨.minix, 1, 1, 4, 0, 0x41ED, some ⟨1, 4, 1024⟩, some ⟨⟨1, 4, 1024⟩, 0⟩, some 0, some .minix⟩
    else ⟨.none, -100, 0, 0, 0, 0, none, none, none, none⟩
  super k := if k = 0 then ⟨.minix, 1, some ⟨⟨1, 1, 1024⟩, 0⟩, some 0, some 0, [0]⟩ else ⟨.none, -100, none, none, none, []⟩
  bufs b := if b = ⟨1, 1, 1024⟩ ∨ b = ⟨1, 4, 1024⟩ then 1 else 0
  data b n := BitVec.ofNat 8 ((diskA b).getD n 0)
  task := ⟨0, 0, 0, 0, 0o22⟩
  faulty _ := false
  reads := 0
  patience := 0
  lost := []
  loose := false

theorem stateA_inOrder : stateA.InOrder where
  free := by decide +kernel
  listed := by decide +kernel
  held := by decide +kernel

/-- What is seen of a run: the inode that is kept, the count of `/`, that of the buffer of both inodes, and what is lost and loose. -/
def seen (c : Call) (s : State) : Option (Option Ino × Nat × Nat × List Buf × Bool) :=
  match c.run s with
  | .ok (o, t) => some (o.kept, (t.slot 0).count, t.bufs ⟨1, 4, 1024⟩, t.lost, t.loose)
  | .error _ => none

theorem of_seen {kept : Option Ino} {n m : Nat} {lost : List Buf} {loose : Bool} (h : seen c s = some (kept, n, m, lost, loose)) :
    ∃ o t, c.run s = .ok (o, t) ∧ o.kept = kept ∧ (t.slot 0).count = n ∧ t.bufs ⟨1, 4, 1024⟩ = m ∧ t.lost = lost ∧ t.loose = loose := by
  unfold seen at h
  cases hr : c.run s with
  | error e =>
    rw [hr] at h
    cases h
  | ok x =>
    rw [hr] at h
    cases h
    exact ⟨x.1, x.2, rfl, rfl, rfl, rfl, rfl, rfl⟩

theorem seen_namei : seen (.namei ['a']) stateA = some (some 1, 4, 2, [], false) := by decide +kernel

theorem runs_conserve_namei : ∃ o t, Runs stateA [o] t ∧ t.InOrder := by
  obtain ⟨o, t, hrun, -, -, -, -, hloose⟩ := of_seen seen_namei
  have h : Runs stateA [o] t := .cons hrun hloose .nil
  exact ⟨o, t, h, (runs_conserve h stateA_inOrder).1⟩

theorem seen_chdir : seen (.sysChdir ['a']) stateA = some (some 1, 3, 2, [], false) := by decide +kernel

/-- `namei` counts the buffer of an inode that it brings into memory, and `sys_chdir` gives back the old working directory. -/
theorem counts_change :
    stateA.InOrder ∧
    (∃ o t, Call.run (.namei ['a']) stateA = .ok (o, t) ∧ t.lost = [] ∧ t.loose = false ∧ t.bufs ⟨1, 4, 1024⟩ ≠ stateA.bufs ⟨1, 4, 1024⟩) ∧
    ∃ o t, Call.run (.sysChdir ['a']) stateA = .ok (o, t) ∧ t.lost = [] ∧ t.loose = false ∧
      (t.slot 0).count ≠ (stateA.slot 0).count + one o.kept 0 := by
  refine ⟨stateA_inOrder, ?_, ?_⟩
  · obtain ⟨o, t, hrun, -, -, hbufs, hlost, hloose⟩ := of_seen seen_namei
    refine ⟨o, t, hrun, hlost, hloose, ?_⟩
    rw [hbufs]
    decide
  · obtain ⟨o, t, hrun, hkept, hcount, -, hlost, hloose⟩ := of_seen seen_chdir
    refine ⟨o, t, hrun, hlost, hloose, ?_⟩
    rw [hcount, hkept]
    decide

/-- `namei` of `a`. -/
theorem references_balance_namei : ∃ o t, Call.run (.namei ['a']) stateA = .ok (o, t) ∧ Balanced stateA t o ∧ Moved stateA t (.namei ['a']) o := by
  obtain ⟨o, t, hrun, -, -, -, -, hloose⟩ := of_seen seen_namei
  exact ⟨o, t, hrun, references_balance stateA_inOrder hrun hloose⟩

end Onix.Namei
