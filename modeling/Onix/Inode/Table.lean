/-
What each call keeps of the table. A slot is free, being read by one task, loaded, or about to be freed by one task with no reference
left; a reference that a call has in hand counts as one of its task.
-/
import Mathlib.Algebra.BigOperators.Group.Finset.Piecewise
import Mathlib.Algebra.Order.BigOperators.Group.Finset
import Onix.Inode.Model

namespace Onix.Inode

open Option Except List Function Onix.Lib
open Minix (Desc)

variable {T : Type} [DecidableEq T] [Fintype T]
variable {x' y' : Option Nat}

/-- `x`: the slot of a reference in hand; `y`: the slot that is being freed. -/
structure Inv (x y : Option Nat) (s : State T) : Prop where
  nodup : ∀ d, (s.list d).Nodup
  list : ∀ d i, i ∈ s.list d ↔ (s.slot i).node = some d
  dev : ∀ i d, (s.slot i).node = some d → (s.slot i).dev = d
  unique : ∀ i j, (s.slot i).node ≠ none → (s.slot j).node ≠ none → (s.slot i).dev = (s.slot j).dev → (s.slot i).nr = (s.slot j).nr → i = j
  number : ∀ i, (s.slot i).node ≠ none → 0 < (s.slot i).nr
  built : ∀ i, (s.slot i).minix = true → Loaded s i
  unset : ∀ i, (s.slot i).minix = false → (s.slot i).buf = none ∧ (s.slot i).desc = none ∧ (s.slot i).super = none ∧ (s.slot i).op = false
  free : ∀ i, (s.slot i).minix = false → (s.slot i).node = none → (s.slot i).count = 0
  raw : ∀ i, (s.slot i).minix = false → (s.slot i).node ≠ none → ∃ t b new, s.pc t = .reading i b new
  reading : ∀ t i b new, s.pc t = .reading i b new → (s.slot i).minix = false ∧ (s.slot i).node ≠ none ∧ (s.slot i).count = 1 ∧
    ∃ sp, s.super (s.slot i).dev = some sp ∧ b = (sp.place (s.slot i).dev (s.slot i).nr).1
  counted : ∀ i, (s.slot i).count = s.base i + ∑ t, s.share i t + if x = some i then 1 else 0
  dying : ∀ t i b k, s.pc t = .releasing i b k → (s.slot i).minix = true ∧ (s.slot i).count = 0 ∧ y ≠ some i
  once : ∀ t u i b c k l, s.pc t = .releasing i b k → s.pc u = .releasing i c l → t = u
  zero : ∀ i, (s.slot i).minix = true → (s.slot i).count = 0 → y = some i ∨ ∃ t b k, s.pc t = .releasing i b k
  root : ∀ d sp, s.super d = some sp → 0 < s.base sp.iroot
  mount : ∀ i, (s.slot i).mount ≠ none → 0 < s.base i

variable {x y : Option Nat} {s u : State T} {t v : T} {i j d nr : Nat} {k : Next} {new : Option Nat} {p : Pc} {b : Buf}

/-! ## Sums of references -/

theorem sum_change {f g : T → Nat} (t : T) (h : ∀ v, v ≠ t → g v = f v) : ∑ v, g v + f t = ∑ v, f v + g t := by
  rw [← Finset.add_sum_erase Finset.univ g (Finset.mem_univ t), ← Finset.add_sum_erase Finset.univ f (Finset.mem_univ t)]
  have hrest : ∑ v ∈ Finset.univ.erase t, g v = ∑ v ∈ Finset.univ.erase t, f v :=
    Finset.sum_congr rfl fun v hv => h v (Finset.ne_of_mem_erase hv)
  omega

omit [DecidableEq T] in
theorem share_le (s : State T) (i : Nat) (t : T) : s.share i t ≤ ∑ v, s.share i v :=
  Finset.single_le_sum (fun _ _ => Nat.zero_le _) (Finset.mem_univ t)

theorem two_shares (s : State T) (i : Nat) (h : t ≠ v) : s.share i t + s.share i v ≤ ∑ w, s.share i w := by
  rw [← Finset.add_sum_erase Finset.univ _ (Finset.mem_univ t)]
  have h1 : s.share i v ≤ ∑ w ∈ Finset.univ.erase t, s.share i w :=
    Finset.single_le_sum (f := fun w => s.share i w) (fun _ _ => Nat.zero_le _) (Finset.mem_erase.2 ⟨h.symm, Finset.mem_univ v⟩)
  omega

omit [DecidableEq T] in
theorem Inv.used (h : Inv x y s) (hi : 0 < s.base i ∨ 0 < s.share i t ∨ x = some i) : 0 < (s.slot i).count := by
  rw [h.counted i]
  have h1 := share_le s i t
  rcases hi with e | e | e
  · omega
  · omega
  · rw [if_pos e]
    omega

theorem Inv.loaded (h : Inv x y s) (hi : 0 < s.base i ∨ i ∈ s.refs t ∨ (∃ b k, s.pc t = .writing i b k) ∨ x = some i) : Loaded s i := by
  refine h.built i (by_contra fun hm => ?_)
  have hm : (s.slot i).minix = false := Bool.eq_false_iff.2 hm
  have hshare : 0 < s.base i ∨ 0 < s.share i t ∨ x = some i := by
    rcases hi with e | e | ⟨b, k, e⟩ | e
    · exact .inl e
    · refine .inr (.inl ?_)
      unfold State.share
      have := count_pos_iff.2 e
      omega
    · refine .inr (.inl ?_)
      unfold State.share
      rw [e]
      show 0 < _ + if i = i then 1 else 0
      rw [if_pos rfl]
      omega
    · exact .inr (.inr e)
  have hused := h.used hshare
  by_cases hn : (s.slot i).node = none
  · exact absurd (h.free i hm hn) (by omega)
  · obtain ⟨v, b, new, hv⟩ := h.raw i hm hn
    obtain ⟨-, -, h1, -⟩ := h.reading v i b new hv
    have hc := h.counted i
    have hread : 1 ≤ s.share i v := by
      unfold State.share
      rw [hv]
      show 1 ≤ _ + if i = i then 1 else 0
      rw [if_pos rfl]
      omega
    have hv1 := share_le s i v
    rcases hi with e | e | ⟨b', k, e⟩ | e
    · omega
    · -- the reader has none besides
      by_cases htv : t = v
      · subst htv
        have h2 : 2 ≤ s.share i t := by
          unfold State.share
          rw [hv]
          have := count_pos_iff.2 e
          show 2 ≤ _ + if i = i then 1 else 0
          rw [if_pos rfl]
          omega
        omega
      · have h2 := two_shares s i htv
        have h3 : 1 ≤ s.share i t := by
          unfold State.share
          have := count_pos_iff.2 e
          omega
        omega
    · have htv : t ≠ v := fun htv => by
        rw [htv, hv] at e
        cases e
      have h2 := two_shares s i htv
      have h3 : 1 ≤ s.share i t := by
        unfold State.share
        rw [e]
        show 1 ≤ _ + if i = i then 1 else 0
        rw [if_pos rfl]
        omega
      omega
    · rw [if_pos e] at hc
      omega

theorem Inv.lifecycle (h : Inv none none s) : Lifecycle s := by
  have hfree : ∀ i, Free s i ↔ (s.slot i).minix = false ∧ (s.slot i).node = none := fun i =>
    ⟨fun f => ⟨f.minix, f.node⟩, fun ⟨h1, h2⟩ => ⟨h1, h.free i h1 h2, h.unset i h1, h2⟩⟩
  have hnode : ∀ i, ¬ Free s i → (s.slot i).node ≠ none := fun i hi hn => by
    rw [hfree] at hi
    have hm : (s.slot i).minix = true := by
      by_contra hm
      exact hi ⟨Bool.eq_false_iff.2 hm, hn⟩
    cases (h.built i hm).node.symm.trans hn
  refine ⟨fun i j hi hj => h.unique i j (hnode i hi) (hnode j hj), fun t i hi => h.loaded (.inr (.inl hi)), fun i => ?_, fun i => ?_,
    fun t i b k hk => (h.dying t i b k hk).2.1⟩
  · rw [h.counted i]
    rfl
  · constructor
    · intro hf
      refine ⟨hf.count, fun t b k hk => ?_⟩
      cases hf.minix.symm.trans (h.dying t i b k hk).1
    · rintro ⟨hc, hno⟩
      rw [hfree]
      have hm : (s.slot i).minix = false := by
        by_contra hm
        rcases h.zero i (Bool.eq_true_of_not_eq_false hm) hc with e | ⟨t, b, k, e⟩
        · cases e
        · exact hno t b k e
      refine ⟨hm, by_contra fun hn => ?_⟩
      obtain ⟨t, b, new, ht⟩ := h.raw i hm hn
      have := (h.reading t i b new ht).2.2.1
      omega

/-! ## Changes of a slot -/

omit [Fintype T] [DecidableEq T] in
@[simp] theorem setSlot_self (s : State T) (i : Nat) (a : Slot) : (s.setSlot i a).slot i = a := Function.update_self ..

omit [Fintype T] [DecidableEq T] in
theorem setSlot_ne {a : Slot} (h : j ≠ i) : (s.setSlot i a).slot j = s.slot j := Function.update_of_ne h ..

omit [Fintype T] in
theorem goto_self (s : State T) (t : T) (p : Pc) : (s.goto t p).pc t = p := Function.update_self ..

omit [Fintype T] in
theorem goto_ne (h : v ≠ t) : (s.goto t p).pc v = s.pc v := Function.update_of_ne h ..

theorem place_inj {sp : Super} {dev dev' a c : Nat} (ha : 0 < a) (hc : 0 < c) (h : sp.place dev a = sp.place dev' c) : a = c := by
  unfold Super.place inodeBlock blockInodes at h
  simp only [Prod.mk.injEq, Buf.mk.injEq] at h
  omega

omit [Fintype T] [DecidableEq T] in
theorem Loaded.same (h : Loaded s j) (hs : u.slot j = s.slot j) (hsuper : u.super = s.super) (hdisk : u.disk = s.disk) : Loaded u j := by
  obtain ⟨h1, h2, h3, h4, h5⟩ := h
  constructor <;> rw [hs]
  · exact h1
  · exact h2
  · exact h3
  · rw [hsuper, hdisk]
    exact h4
  · exact h5

structure SlotInv (x y : Option Nat) (s : State T) (i : Nat) : Prop where
  list : ∀ d, i ∈ s.list d ↔ (s.slot i).node = some d
  dev : ∀ d, (s.slot i).node = some d → (s.slot i).dev = d
  number : (s.slot i).node ≠ none → 0 < (s.slot i).nr
  built : (s.slot i).minix = true → Loaded s i
  unset : (s.slot i).minix = false → (s.slot i).buf = none ∧ (s.slot i).desc = none ∧ (s.slot i).super = none ∧ (s.slot i).op = false
  free : (s.slot i).minix = false → (s.slot i).node = none → (s.slot i).count = 0
  raw : (s.slot i).minix = false → (s.slot i).node ≠ none → ∃ t b new, s.pc t = .reading i b new
  reading : ∀ t b new, s.pc t = .reading i b new → (s.slot i).minix = false ∧ (s.slot i).node ≠ none ∧ (s.slot i).count = 1 ∧
    ∃ sp, s.super (s.slot i).dev = some sp ∧ b = (sp.place (s.slot i).dev (s.slot i).nr).1
  counted : (s.slot i).count = s.base i + ∑ t, s.share i t + if x = some i then 1 else 0
  dying : ∀ t b k, s.pc t = .releasing i b k → (s.slot i).minix = true ∧ (s.slot i).count = 0 ∧ y ≠ some i
  once : ∀ t u b c k l, s.pc t = .releasing i b k → s.pc u = .releasing i c l → t = u
  zero : (s.slot i).minix = true → (s.slot i).count = 0 → y = some i ∨ ∃ t b k, s.pc t = .releasing i b k
  mount : (s.slot i).mount ≠ none → 0 < s.base i

/-- Nothing changes for the slot `j`. -/
structure Still (s u : State T) (j : Nat) : Prop where
  slot : u.slot j = s.slot j
  list : ∀ d, j ∈ u.list d ↔ j ∈ s.list d
  reading : ∀ t b new, u.pc t = .reading j b new ↔ s.pc t = .reading j b new
  releasing : ∀ t b k, u.pc t = .releasing j b k ↔ s.pc t = .releasing j b k
  share : ∀ t, u.share j t = s.share j t

omit [DecidableEq T] in
theorem Inv.still (h : Inv x y s) (hs : Still s u j) (hsuper : u.super = s.super) (hdisk : u.disk = s.disk)
    (hbase : u.base = s.base) (hx : x' = some j ↔ x = some j) (hy : y' = some j ↔ y = some j) : SlotInv x' y' u j := by
  constructor <;> simp only [hs.slot, hs.list, hs.reading, hs.releasing, hs.share, hsuper, hbase, hx, hy, ne_eq]
  · exact fun d => h.list d j
  · exact h.dev j
  · exact h.number j
  · exact fun hj => (h.built j hj).same hs.slot hsuper hdisk
  · exact h.unset j
  · exact h.free j
  · exact h.raw j
  · exact fun t => h.reading t j
  · exact h.counted j
  · exact fun t => h.dying t j
  · exact fun t v => h.once t v j
  · exact h.zero j
  · exact h.mount j

omit [DecidableEq T] in
theorem Inv.change (h : Inv x y s) (hs : ∀ j, j ≠ i → Still s u j) (hnodup : ∀ d, (u.list d).Nodup) (hsuper : u.super = s.super)
    (hdisk : u.disk = s.disk) (hbase : u.base = s.base) (hx : ∀ j, j ≠ i → (x' = some j ↔ x = some j)) (hy : ∀ j, j ≠ i → (y' = some j ↔ y = some j))
    (hone : ∀ j, j ≠ i → (u.slot i).node ≠ none → (s.slot j).node ≠ none → (u.slot i).dev = (s.slot j).dev → (u.slot i).nr ≠ (s.slot j).nr)
    (hi : SlotInv x' y' u i) : Inv x' y' u := by
  have hall : ∀ j, SlotInv x' y' u j := fun j => by
    by_cases hj : j = i
    · rw [hj]
      exact hi
    · exact h.still (hs j hj) hsuper hdisk hbase (hx j hj) (hy j hj)
  refine ⟨hnodup, fun d j => (hall j).list d, fun j => (hall j).dev, fun j l hj hl hdev hnr => ?_, fun j => (hall j).number, fun j => (hall j).built,
    fun j => (hall j).unset, fun j => (hall j).free, fun j => (hall j).raw, fun t j => (hall j).reading t, fun j => (hall j).counted,
    fun t j => (hall j).dying t, fun t v j => (hall j).once t v, fun j => (hall j).zero, ?_, fun j => (hall j).mount⟩
  · by_cases hji : j = i <;> by_cases hli : l = i
    · rw [hji, hli]
    · subst hji
      rw [(hs l hli).slot] at hl hdev hnr
      exact absurd hnr (hone l hli hj hl hdev)
    · subst hli
      rw [(hs j hji).slot] at hj hdev hnr
      exact absurd hnr.symm (hone j hji hl hj hdev.symm)
    · rw [(hs j hji).slot] at hj hdev hnr
      rw [(hs l hli).slot] at hl hdev hnr
      exact h.unique j l hj hl hdev hnr
  · rw [hsuper, hbase]
    exact h.root

omit [DecidableEq T] in
theorem Inv.count {c : Nat} (h : Inv x y s) (hm : (s.slot i).minix = true) (hpos : 0 < (s.slot i).count)
    (hc : c = s.base i + ∑ t, s.share i t + if x' = some i then 1 else 0) (hx : ∀ j, j ≠ i → (x' = some j ↔ x = some j))
    (hy : ∀ j, j ≠ i → (y' = some j ↔ y = some j)) (hzero : c = 0 → y' = some i) :
    Inv x' y' (s.setSlot i { s.slot i with count := c }) := by
  -- nobody frees a slot with references
  have hno : ∀ t b k, s.pc t ≠ .releasing i b k := fun t b k hk => by
    have := (h.dying t i b k hk).2.1
    omega
  have hnr : ∀ t b new, s.pc t ≠ .reading i b new := fun t b new hk => by
    cases hm.symm.trans (h.reading t i b new hk).1
  have hni : (s.slot i).node ≠ none := by
    rw [(h.built i hm).node]
    nofun
  refine h.change (fun j hj => ⟨setSlot_ne hj, fun _ => .rfl, fun _ _ _ => .rfl, fun _ _ _ => .rfl, fun _ => rfl⟩) h.nodup rfl rfl rfl hx hy
    (fun j hj _ hn hdev hnum => ?_) ?_
  · rw [setSlot_self] at hdev hnum
    exact hj (h.unique i j hni hn hdev hnum).symm
  constructor <;> try rw [setSlot_self]
  · exact fun d => h.list d i
  · exact h.dev i
  · exact h.number i
  · intro _
    obtain ⟨h1, h2, h3, h4, h5⟩ := h.built i hm
    constructor <;> rw [setSlot_self]
    · exact h1
    · exact h2
    · exact h3
    · exact h4
    · exact h5
  · exact h.unset i
  · exact fun hf => absurd (hm.symm.trans hf) nofun
  · exact h.raw i
  · exact fun t b new hj => absurd hj (hnr t b new)
  · exact hc
  · exact fun t b k hj => absurd hj (hno t b k)
  · exact fun t v => h.once t v i
  · exact fun _ h0 => .inl (hzero h0)
  · exact h.mount i

omit [DecidableEq T] in
theorem Inv.setDirty {w : Bool} (h : Inv x y s) : Inv x y (s.setDirty b w) :=
  ⟨h.nodup, h.list, h.dev, h.unique, h.number, fun i hi => ⟨(h.built i hi).minix, (h.built i hi).op, (h.built i hi).super, (h.built i hi).desc,
    (h.built i hi).node⟩, h.unset, h.free, h.raw, h.reading, h.counted, h.dying, h.once, h.zero, h.root, h.mount⟩

/-! ## Handing out -/

omit [Fintype T] in
theorem share_other (h : v ≠ t) (l : List Nat) : ((s.goto t p).setRefs t l).share i v = s.share i v := by
  unfold State.share State.setRefs
  dsimp only
  rw [Function.update_of_ne h, goto_ne h]
  rfl

def Pc.slot : Pc → Option Nat
  | .idle => none
  | .reading i _ _ | .writing i _ _ | .releasing i _ _ => some i

omit [Fintype T] in
theorem Still.step (hslot : u.slot j = s.slot j) (hlist : ∀ d, j ∈ u.list d ↔ j ∈ s.list d) (hrefs : u.refs = s.refs)
    (hpc : u.pc = Function.update s.pc t p) (hs : (s.pc t).slot ≠ some j) (hp : p.slot ≠ some j) : Still s u j := by
  have hholds : ∀ q : Pc, q.slot ≠ some j → q.holds j = 0 := fun q hq => by
    cases q with
    | idle => rfl
    | reading i b new => exact if_neg fun e => hq (congrArg some e)
    | writing i b k => exact if_neg fun e => hq (congrArg some e)
    | releasing i b k => rfl
  have hne : ∀ v, v ≠ t → u.pc v = s.pc v := fun v hv => by rw [hpc, Function.update_of_ne hv]
  have hself : u.pc t = p := by rw [hpc, Function.update_self]
  refine ⟨hslot, hlist, fun v b new => ?_, fun v b k => ?_, fun v => ?_⟩
  · by_cases hv : v = t
    · rw [hv, hself]
      exact iff_of_false (fun e => hp (congrArg Pc.slot e)) fun e => hs (congrArg Pc.slot e)
    · rw [hne v hv]
  · by_cases hv : v = t
    · rw [hv, hself]
      exact iff_of_false (fun e => hp (congrArg Pc.slot e)) fun e => hs (congrArg Pc.slot e)
    · rw [hne v hv]
  · unfold State.share
    rw [hrefs]
    by_cases hv : v = t
    · rw [hv, hself, hholds _ hp, hholds _ hs]
    · rw [hne v hv]

theorem Inv.move {l : List Nat} (h : Inv x y s) (hr : ∀ i b new, s.pc t ≠ .reading i b new) (hp : ∀ i b new, p ≠ .reading i b new)
    (hc : ∀ i, (s.share i t + if x = some i then 1 else 0) = (l.count i + p.holds i) + if x' = some i then 1 else 0)
    (hnew : ∀ i b k, p = .releasing i b k → y = some i ∧ (s.slot i).minix = true ∧ (s.slot i).count = 0)
    (hdy : ∀ i, y' = some i ↔ (y = some i ∧ ∀ b k, p ≠ .releasing i b k) ∨ ∃ b k, s.pc t = .releasing i b k) :
    Inv x' y' ((s.goto t p).setRefs t l) := by
  have hself : ((s.goto t p).setRefs t l).pc t = p := goto_self s t p
  have hpc : ∀ v, v ≠ t → ((s.goto t p).setRefs t l).pc v = s.pc v := fun v hv => goto_ne hv
  have hsum : ∀ i, ∑ v, ((s.goto t p).setRefs t l).share i v + s.share i t = ∑ v, s.share i v + (l.count i + p.holds i) := fun i => by
    have h1 := sum_change (f := fun v => s.share i v) (g := fun v => ((s.goto t p).setRefs t l).share i v) t fun v hv => share_other hv l
    have h2 : ((s.goto t p).setRefs t l).share i t = l.count i + p.holds i := by
      unfold State.share
      rw [hself]
      unfold State.setRefs
      dsimp only
      rw [update_self]
    rw [h2] at h1
    exact h1
  refine ⟨h.nodup, h.list, h.dev, h.unique, h.number, fun i hi => ⟨(h.built i hi).minix, (h.built i hi).op, (h.built i hi).super,
    (h.built i hi).desc, (h.built i hi).node⟩, h.unset, h.free, fun i h1 h2 => ?_, fun v i b new hv => ?_, fun i => ?_, fun v i b k hv => ?_,
    fun v w i b c k l' hv hw => ?_, fun i h1 h2 => ?_, h.root, h.mount⟩
  · obtain ⟨v, b, new, hv⟩ := h.raw i h1 h2
    have hvt : v ≠ t := fun e => hr i b new (e ▸ hv)
    exact ⟨v, b, new, (hpc v hvt).trans hv⟩
  · by_cases hvt : v = t
    · subst hvt
      exact absurd (hself.symm.trans hv) (hp i b new)
    · exact h.reading v i b new ((hpc v hvt).symm.trans hv)
  · have h1 := hsum i
    have h2 := hc i
    show (s.slot i).count = s.base i + _ + _
    rw [h.counted i]
    omega
  · by_cases hvt : v = t
    · subst hvt
      have hp' : p = .releasing i b k := hself.symm.trans hv
      obtain ⟨h1, h2, h3⟩ := hnew i b k hp'
      refine ⟨h2, h3, fun e => ?_⟩
      rcases (hdy i).1 e with ⟨-, h4⟩ | ⟨c, l', h4⟩
      · exact h4 b k hp'
      · exact (h.dying v i c l' h4).2.2 h1
    · have hv := (hpc v hvt).symm.trans hv
      obtain ⟨h1, h2, h3⟩ := h.dying v i b k hv
      refine ⟨h1, h2, fun e => ?_⟩
      rcases (hdy i).1 e with ⟨h4, -⟩ | ⟨c, l', h4⟩
      · exact h3 h4
      · exact hvt (h.once v t i b c k l' hv h4)
  · by_cases hvt : v = t <;> by_cases hwt : w = t
    · rw [hvt, hwt]
    · subst hvt
      have h1 := (hnew i b k (hself.symm.trans hv)).1
      exact absurd h1 (h.dying w i c l' ((hpc w hwt).symm.trans hw)).2.2
    · subst hwt
      have h1 := (hnew i c l' (hself.symm.trans hw)).1
      exact absurd h1 (h.dying v i b k ((hpc v hvt).symm.trans hv)).2.2
    · exact h.once v w i b c k l' ((hpc v hvt).symm.trans hv) ((hpc w hwt).symm.trans hw)
  · rcases h.zero i h1 h2 with e | ⟨v, b, k, hv⟩
    · by_cases hrel : ∃ b k, p = .releasing i b k
      · obtain ⟨b, k, hp'⟩ := hrel
        exact .inr ⟨t, b, k, hself.trans hp'⟩
      · exact .inl ((hdy i).2 (.inl ⟨e, fun b k hp' => hrel ⟨b, k, hp'⟩⟩))
    · by_cases hvt : v = t
      · subst hvt
        exact .inl ((hdy i).2 (.inr ⟨b, k, hv⟩))
      · exact .inr ⟨v, b, k, (hpc v hvt).trans hv⟩

omit [Fintype T] in
theorem goto_refs (s : State T) (t : T) (p : Pc) : (s.goto t p).setRefs t (s.refs t) = s.goto t p := by
  unfold State.setRefs State.goto
  rw [Function.update_eq_self]

theorem Inv.goto (h : Inv x y s) (hr : ∀ i b new, s.pc t ≠ .reading i b new) (hp : ∀ i b new, p ≠ .reading i b new)
    (hc : ∀ i, ((s.pc t).holds i + if x = some i then 1 else 0) = p.holds i + if x' = some i then 1 else 0)
    (hnew : ∀ i b k, p = .releasing i b k → y = some i ∧ (s.slot i).minix = true ∧ (s.slot i).count = 0)
    (hdy : ∀ i, y' = some i ↔ (y = some i ∧ ∀ b k, p ≠ .releasing i b k) ∨ ∃ b k, s.pc t = .releasing i b k) : Inv x' y' (s.goto t p) := by
  rw [← goto_refs]
  refine h.move hr hp (fun i => ?_) hnew hdy
  have := hc i
  unfold State.share
  omega

/-- All of a slot but its mode and size is as it was. -/
structure Same (a c : Slot) : Prop where
  node : c.node = a.node
  dev : c.dev = a.dev
  nr : c.nr = a.nr
  minix : c.minix = a.minix
  mount : c.mount = a.mount
  count : c.count = a.count
  buf : c.buf = a.buf
  desc : c.desc = a.desc
  super : c.super = a.super
  op : c.op = a.op

theorem Same.attr (a : Slot) (mode size : Nat) : Same a { a with mode := mode, size := size } := ⟨rfl, rfl, rfl, rfl, rfl, rfl, rfl, rfl, rfl, rfl⟩

omit [DecidableEq T] in
theorem Inv.same (h : Inv x y s) (hs : ∀ i, Same (s.slot i) (u.slot i)) (hlist : u.list = s.list) (hsuper : u.super = s.super)
    (hbase : u.base = s.base) (hpc : u.pc = s.pc) (hrefs : u.refs = s.refs) (hb : ∀ i, (s.slot i).minix = true → Loaded u i) : Inv x y u := by
  have hshare : ∀ i t, u.share i t = s.share i t := fun i t => by
    unfold State.share
    rw [hpc, hrefs]
  constructor
  · rw [hlist]
    exact h.nodup
  · intro d i
    rw [hlist, (hs i).node]
    exact h.list d i
  · intro i d
    rw [(hs i).node, (hs i).dev]
    exact h.dev i d
  · intro i j
    rw [(hs i).node, (hs j).node, (hs i).dev, (hs j).dev, (hs i).nr, (hs j).nr]
    exact h.unique i j
  · intro i
    rw [(hs i).node, (hs i).nr]
    exact h.number i
  · intro i
    rw [(hs i).minix]
    exact hb i
  · intro i
    rw [(hs i).minix, (hs i).buf, (hs i).desc, (hs i).super, (hs i).op]
    exact h.unset i
  · intro i
    rw [(hs i).minix, (hs i).node, (hs i).count]
    exact h.free i
  · intro i
    rw [(hs i).minix, (hs i).node, hpc]
    exact h.raw i
  · intro t i b new
    rw [(hs i).minix, (hs i).node, (hs i).count, (hs i).dev, (hs i).nr, hpc, hsuper]
    exact h.reading t i b new
  · intro i
    rw [(hs i).count, hbase, h.counted i]
    simp only [hshare]
  · intro t i b k
    rw [(hs i).minix, (hs i).count, hpc]
    exact h.dying t i b k
  · rw [hpc]
    exact h.once
  · intro i
    rw [(hs i).minix, (hs i).count, hpc]
    exact h.zero i
  · rw [hsuper, hbase]
    exact h.root
  · intro i
    rw [(hs i).mount, hbase]
    exact h.mount i

omit [DecidableEq T] in
theorem Inv.newInode {mode : Nat} (h : Inv x y s) (hl : Loaded s i) (hu : newInode s i mode = .ok u) : Inv x y u := by
  obtain ⟨sp, hsp, hbuf, hdesc, hdisk⟩ := hl.desc
  unfold Inode.newInode at hu
  rw [hbuf, hdesc] at hu
  obtain ⟨pl, hpl⟩ : ∃ pl, pl = sp.place (s.slot i).dev (s.slot i).nr := ⟨_, rfl⟩
  rw [← hpl] at hu
  have hslot : u.slot = Function.update s.slot i { s.slot i with mode := mode, size := 0 } := by rw [← ok.inj hu]; rfl
  have hdisk : u.disk = Function.update s.disk pl.1 (Function.update (s.disk pl.1) pl.2 ⟨mode, 0⟩) := by rw [← ok.inj hu]
  have hsuper : u.super = s.super := by rw [← ok.inj hu]; rfl
  have hs : ∀ j, Same (s.slot j) (u.slot j) := fun j => by
    rw [hslot]
    by_cases hj : j = i
    · subst hj
      rw [Function.update_self]
      exact .attr _ mode 0
    · rw [Function.update_of_ne hj]
      exact ⟨rfl, rfl, rfl, rfl, rfl, rfl, rfl, rfl, rfl, rfl⟩
  have hni : (s.slot i).node ≠ none := by
    rw [hl.node]
    nofun
  refine h.same hs (by rw [← ok.inj hu]; rfl) hsuper (by rw [← ok.inj hu]; rfl) (by rw [← ok.inj hu]; rfl)
    (by rw [← ok.inj hu]; rfl) fun j hj => ?_
  have hlj := h.built j hj
  obtain ⟨sp', hsp', hbuf', hdesc', hdisk'⟩ := hlj.desc
  refine ⟨(hs j).minix.trans hj, (hs j).op.trans hlj.op, by rw [(hs j).super, (hs j).dev]; exact hlj.super, ⟨sp', ?_⟩,
    by rw [(hs j).node, (hs j).dev]; exact hlj.node⟩
  rw [(hs j).dev, (hs j).nr, (hs j).buf, (hs j).desc, hsuper]
  refine ⟨hsp', hbuf', hdesc', ?_⟩
  rw [hslot, hdisk]
  by_cases hji : j = i
  · subst hji
    cases hsp.symm.trans hsp'
    rw [← hpl, Function.update_self, Function.update_self, Function.update_self]
  · have hne : sp'.place (s.slot j).dev (s.slot j).nr ≠ pl := fun e => by
      have hnj : (s.slot j).node ≠ none := by
        rw [hlj.node]
        nofun
      have hdev : (s.slot j).dev = (s.slot i).dev := congrArg (fun q => q.1.dev) (e.trans hpl)
      rw [hdev] at hsp'
      cases hsp.symm.trans hsp'
      exact hji (h.unique j i hnj hni hdev (place_inj (h.number j hnj) (h.number i hni) (e.trans hpl)))
    rw [Function.update_of_ne hji, ← hdisk']
    by_cases h1 : (sp'.place (s.slot j).dev (s.slot j).nr).1 = pl.1
    · rw [h1, Function.update_self, Function.update_of_ne fun h2 => hne (Prod.ext h1 h2)]
    · rw [Function.update_of_ne h1]

omit [DecidableEq T] in
theorem Inv.freed (h : Inv none (some i) s) (hm : (s.slot i).minix = true) (hc : (s.slot i).count = 0) (hn : (s.slot i).node = some d)
    (hslot : u.slot = Function.update s.slot i
      { s.slot i with node := none, minix := false, buf := none, desc := none, super := none, op := false })
    (hlist : u.list = Function.update s.list d ((s.list d).erase i)) (hsuper : u.super = s.super) (hdisk : u.disk = s.disk) (hbase : u.base = s.base)
    (hpc : u.pc = s.pc) (hrefs : u.refs = s.refs) : Inv none none u := by
  have hself : u.slot i = { s.slot i with node := none, minix := false, buf := none, desc := none, super := none, op := false } := by
    rw [hslot, Function.update_self]
  have hshare : ∀ j v, u.share j v = s.share j v := fun j v => by
    unfold State.share
    rw [hpc, hrefs]
  have hmem : ∀ e j, j ∈ u.list e ↔ j ∈ s.list e ∧ j ≠ i := fun e j => by
    rw [hlist]
    by_cases he : e = d
    · subst he
      rw [Function.update_self, (h.nodup e).mem_erase_iff, and_comm]
    · rw [Function.update_of_ne he]
      refine (and_iff_left_of_imp fun hj hji => ?_).symm
      rw [h.list, hji, hn] at hj
      exact he (some.inj hj).symm
  refine h.change (i := i) (fun j hj => ⟨?_, fun e => ?_, fun v b new => ?_, fun v b k => ?_, hshare j⟩) (fun e => ?_) hsuper hdisk hbase
    (fun _ _ => .rfl) (fun j hj => ⟨nofun, fun e => absurd (some.inj e).symm hj⟩) (fun j _ hi => ?_) ?_
  · rw [hslot, Function.update_of_ne hj]
  · rw [hmem, and_iff_left hj]
  · rw [hpc]
  · rw [hpc]
  · rw [hlist]
    by_cases he : e = d
    · subst he
      rw [Function.update_self]
      exact (h.nodup e).erase i
    · rw [Function.update_of_ne he]
      exact h.nodup e
  · rw [hself] at hi
    exact absurd rfl hi
  constructor <;> try rw [hself]
  · exact fun e => iff_of_false (fun hj => ((hmem e i).1 hj).2 rfl) nofun
  · exact fun _ => nofun
  · exact fun hj => absurd rfl hj
  · exact nofun
  · exact fun _ => ⟨rfl, rfl, rfl, rfl⟩
  · exact fun _ _ => hc
  · exact fun _ hj => absurd rfl hj
  · intro v b new hv
    rw [hpc] at hv
    cases hm.symm.trans (h.reading v i b new hv).1
  · rw [hbase]
    simp only [hshare]
    exact h.counted i
  · intro v b k hv
    rw [hpc] at hv
    exact absurd rfl (h.dying v i b k hv).2.2
  · rw [hpc]
    exact fun v w => h.once v w i
  · exact nofun
  · rw [hbase]
    exact h.mount i

/-! ## The calls -/

theorem Inv.handOut (h : Inv (some i) y s) (ht : s.pc t = .idle) (hu : handOut s t i new = .ok u) : Inv none y u := by
  have hl : Loaded s i := h.loaded (t := t) (.inr (.inr (.inr rfl)))
  have h1 : Inv none y ((s.goto t .idle).setRefs t (i :: s.refs t)) := by
    refine h.move (by rw [ht]; nofun) nofun (fun j => ?_) nofun fun j => ?_
    · unfold State.share
      rw [ht]
      show _ + 0 + _ = _ + 0 + 0
      by_cases hj : i = j
      · subst hj
        rw [count_cons_self, if_pos rfl]
      · rw [count_cons_of_ne hj, if_neg fun e => hj (some.inj e)]
    · rw [ht]
      exact ⟨fun e => .inl ⟨e, nofun⟩, fun e => e.elim And.left fun ⟨_, _, e⟩ => nomatch e⟩
  unfold Inode.handOut at hu
  split at hu
  · cases hu
    exact h1
  · exact h1.newInode (i := i) ⟨hl.minix, hl.op, hl.super, hl.desc, hl.node⟩ hu

theorem Inv.closed (h : Inv none none s) (ht : s.pc t = .idle) (hu : closed s t k = .ok u) : Inv none none u := by
  unfold Inode.closed at hu
  split at hu
  · cases hu
    exact h.goto (by rw [ht]; nofun) nofun (fun i => by rw [ht]) nofun fun i => ⟨nofun, fun e => e.elim And.left fun ⟨_, _, e⟩ => by
      rw [ht] at e
      cases e⟩
  · rename_i d new
    split at hu
    · cases hu
    · rename_i sp hsp
      have hb := h.root d sp hsp
      have hl : Loaded s sp.iroot := h.loaded (t := t) (.inl hb)
      have hpos := h.used (t := t) (.inl hb)
      have h1 : Inv (some sp.iroot) none (s.setSlot sp.iroot { s.slot sp.iroot with count := (s.slot sp.iroot).count + 1 }) := by
        refine h.count hl.minix hpos ?_ (fun j hj => ⟨fun e => absurd (some.inj e).symm hj, nofun⟩) (fun _ _ => .rfl)
          fun e => absurd e (Nat.succ_ne_zero _)
        rw [if_pos rfl, h.counted, if_neg nofun]
      exact h1.handOut ht hu

theorem Inv.release (h : Inv none (some i) s) (hm : (s.slot i).minix = true) (hc : (s.slot i).count = 0) (ht : s.pc t = .idle)
    (hu : release s t i k = .ok u) : Inv none none u := by
  have hl := h.built i hm
  obtain ⟨s1, h1, hu⟩ := bind_ok hu
  obtain ⟨s2, h2, hu⟩ := bind_ok hu
  unfold listRemove at h1
  rw [hl.node] at h1
  cases h1
  unfold putFreeInode at h2
  split at h2
  · cases h2
  cases h2
  refine Inv.closed ?_ ?_ hu
  · refine h.freed hm hc hl.node ?_ rfl rfl rfl rfl rfl rfl
    funext j
    by_cases hj : j = i
    · subst hj
      simp only [State.setSlot, update_self]
    · simp only [State.setSlot, update_of_ne hj]
  · exact ht

theorem Inv.drop (h : Inv (some i) none s) (ht : s.pc t = .idle) (hu : drop s t i k = .ok u) : Inv none none u := by
  have hl : Loaded s i := h.loaded (t := t) (.inr (.inr (.inr rfl)))
  have hpos := h.used (t := t) (.inr (.inr rfl))
  have hc := h.counted i
  rw [if_pos rfl] at hc
  unfold Inode.drop at hu
  dsimp only at hu
  rw [if_neg (by omega)] at hu
  have hcount : (s.slot i).count - 1 = s.base i + ∑ v, s.share i v + if (none : Option Nat) = some i then 1 else 0 := by
    rw [if_neg nofun]
    omega
  have hx : ∀ j, j ≠ i → ((none : Option Nat) = some j ↔ some i = some j) := fun j hj => ⟨nofun, fun e => absurd (some.inj e).symm hj⟩
  split at hu
  · rename_i hne
    have h1 : Inv none none (s.setSlot i { s.slot i with count := (s.slot i).count - 1 }) :=
      h.count hl.minix hpos hcount hx (fun _ _ => .rfl) fun e => absurd e (by omega)
    exact h1.closed ht hu
  · rename_i hone
    have h1 : Inv none (some i) (s.setSlot i { s.slot i with count := (s.slot i).count - 1 }) :=
      h.count hl.minix hpos hcount hx (fun j hj => ⟨fun e => absurd (some.inj e).symm hj, nofun⟩) fun _ => rfl
    have hm1 : ((s.setSlot i { s.slot i with count := (s.slot i).count - 1 }).slot i).minix = true := by
      rw [setSlot_self]
      exact hl.minix
    have hc1 : ((s.setSlot i { s.slot i with count := (s.slot i).count - 1 }).slot i).count = 0 := by
      rw [setSlot_self]
      show (s.slot i).count - 1 = 0
      omega
    split at hu
    · exact h1.release hm1 hc1 ht hu
    rename_i b hb
    split at hu
    · cases hu
      have hidle : (s.setSlot i { s.slot i with count := (s.slot i).count - 1 }).pc t = .idle := ht
      refine h1.goto (by rw [hidle]; nofun) nofun (fun j => ?_) (fun j b' k' e => ?_) fun j => ?_
      · rw [hidle]
        rfl
      · cases e
        exact ⟨rfl, hm1, hc1⟩
      · rw [hidle]
        refine ⟨nofun, fun e => ?_⟩
        rcases e with ⟨e, hno⟩ | ⟨_, _, e⟩
        · cases e
          exact absurd rfl (hno b k)
        · cases e
    · exact h1.release hm1 hc1 ht hu

theorem Inv.iput (h : Inv (some i) none s) (ht : s.pc t = .idle) (hu : iput s t i k = .ok u) : Inv none none u := by
  unfold Inode.iput at hu
  dsimp only at hu
  split at hu
  · cases hu
  split at hu
  · cases hu
  split at hu
  · cases hu
  split at hu
  · cases hu
    refine h.goto (by rw [ht]; nofun) nofun (fun j => ?_) nofun fun j => ?_
    · rw [ht]
      show 0 + _ = (if i = j then 1 else 0) + 0
      by_cases hj : i = j
      · subst hj
        rw [if_pos rfl, if_pos rfl]
      · rw [if_neg hj, if_neg fun e => hj (some.inj e)]
    · rw [ht]
      exact ⟨nofun, fun e => e.elim And.left fun ⟨_, _, e⟩ => nomatch e⟩
  · exact h.drop ht hu

theorem Inv.fitInode (h : Inv (some i) none s) (ht : s.pc t = .idle) (hu : fitInode s t i new = .ok u) : Inv none none u := by
  unfold Inode.fitInode at hu
  split at hu
  · exact h.handOut ht hu
  · exact h.iput ht hu

/-! ## Looking for a slot -/

omit [Fintype T] [DecidableEq T] in
theorem findInode_some (h : findInode s d nr = some i) : i ∈ s.list d ∧ (s.slot i).nr = nr := by
  have h1 := find?_some h
  exact ⟨mem_of_find?_eq_some h, of_decide_eq_true h1⟩

omit [Fintype T] [DecidableEq T] in
theorem findInode_none (h : findInode s d nr = none) (hi : i ∈ s.list d) : (s.slot i).nr ≠ nr := fun e =>
  find?_eq_none.1 h i hi (decide_eq_true e)

omit [Fintype T] [DecidableEq T] in
theorem getFreeInode_ok (h : getFreeInode s = .ok i) : (s.slot i).minix = false := by
  unfold getFreeInode at h
  split at h
  · cases h
  rename_i j hj
  dsimp only at h
  split at h
  · cases h
    have := find?_some hj
    simpa using this
  · cases h

theorem Inv.claimed {sp : Super} (h : Inv none none s) (ht : s.pc t = .idle) (hm : (s.slot i).minix = false) (hn : (s.slot i).node = none)
    (hsp : s.super d = some sp) (hnr : 0 < nr) (hfind : findInode s d nr = none)
    (hslot : u.slot = update s.slot i { s.slot i with node := some d, dev := d, nr := nr, count := (s.slot i).count + 1 })
    (hlist : u.list = update s.list d (i :: s.list d)) (hsuper : u.super = s.super) (hdisk : u.disk = s.disk) (hbase : u.base = s.base)
    (hpc : u.pc = update s.pc t (.reading i ⟨d, inodeBlock sp.desc nr⟩ new)) (hrefs : u.refs = s.refs) : Inv none none u := by
  have hself : u.slot i = { s.slot i with node := some d, dev := d, nr := nr, count := (s.slot i).count + 1 } := by
    rw [hslot, update_self]
  have hpct : u.pc t = .reading i ⟨d, inodeBlock sp.desc nr⟩ new := by rw [hpc, update_self]
  have hpcv : ∀ v, v ≠ t → u.pc v = s.pc v := fun v hv => by rw [hpc, update_of_ne hv]
  have hc0 := h.free i hm hn
  have hnot : ∀ e, i ∉ s.list e := fun e he => by cases hn.symm.trans ((h.list e i).1 he)
  have hmem : ∀ e j, j ∈ u.list e ↔ j = i ∧ e = d ∨ j ∈ s.list e := fun e j => by
    rw [hlist]
    by_cases he : e = d
    · subst he
      rw [update_self, mem_cons, and_iff_left rfl]
    · rw [update_of_ne he, or_iff_right fun e' => he e'.2]
  refine h.change (i := i) (fun j hj => .step (t := t) ?_ (fun e => ?_) hrefs hpc ?_ ?_) (fun e => ?_) hsuper hdisk hbase (fun _ _ => .rfl)
    (fun _ _ => .rfl) (fun j _ _ hj hd hnum => ?_) ?_
  · rw [hslot, update_of_ne hj]
  · rw [hmem, or_iff_right fun e' => hj e'.1]
  · rw [ht]
    nofun
  · exact fun e => hj (some.inj e).symm
  · rw [hlist]
    by_cases he : e = d
    · subst he
      rw [update_self]
      exact nodup_cons.2 ⟨hnot e, h.nodup e⟩
    · rw [update_of_ne he]
      exact h.nodup e
  · -- no other slot of the device has the number
    rw [hself] at hd hnum
    obtain ⟨e, he⟩ := ne_none_iff_exists'.1 hj
    have hde : e = d := (h.dev j e he).symm.trans hd.symm
    subst hde
    exact findInode_none hfind ((h.list e j).2 he) hnum.symm
  constructor <;> try rw [hself]
  · intro e
    rw [hmem, or_iff_left (hnot e), and_iff_right rfl, some.injEq, eq_comm]
  · exact fun e he => some.inj he
  · exact fun _ => hnr
  · exact fun hj => absurd (hm.symm.trans hj) nofun
  · exact fun _ => h.unset i hm
  · exact fun _ => nofun
  · exact fun _ _ => ⟨t, _, _, hpct⟩
  · intro v b new' hv
    by_cases hvt : v = t
    · subst hvt
      cases hpct.symm.trans hv
      rw [hsuper]
      exact ⟨hm, nofun, congrArg (· + 1) hc0, sp, hsp, rfl⟩
    · rw [hpcv v hvt] at hv
      exact absurd hn (h.reading v i b new' hv).2.1
  · have h1 := sum_change (f := fun v => s.share i v) (g := fun v => u.share i v) t fun v hv => by
      unfold State.share
      rw [hpcv v hv, hrefs]
    have h2 : u.share i t = s.share i t + if i = i then 1 else 0 := by
      unfold State.share
      rw [hpct, hrefs, ht]
      rfl
    rw [if_pos rfl] at h2
    have h3 := h.counted i
    rw [hbase]
    show (s.slot i).count + 1 = _
    omega
  · intro v b k hv
    have hvt : v ≠ t := fun e => by
      rw [e, hpct] at hv
      cases hv
    rw [hpcv v hvt] at hv
    cases hm.symm.trans (h.dying v i b k hv).1
  · intro v w b c k l hv hw
    have hvt : v ≠ t := fun e => by
      rw [e, hpct] at hv
      cases hv
    rw [hpcv v hvt] at hv
    cases hm.symm.trans (h.dying v i b k hv).1
  · exact fun hj => absurd (hm.symm.trans hj) nofun
  · rw [hbase]
    exact h.mount i

end Onix.Inode
