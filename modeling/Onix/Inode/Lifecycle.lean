/-
The life of a slot over whole runs: while no `iget` finds or takes a slot that another task is reading into or about to free, there is
one slot for an inode, what is handed out is loaded, and a slot is free exactly when it has no references.
-/
import Onix.Inode.Table

namespace Onix.Inode

open Option List Function Onix.Lib
open Minix (Desc)

variable {T : Type} [DecidableEq T] [Fintype T]

variable {x y : Option Nat} {s u : State T} {t v : T} {i j d nr : Nat} {k : Next} {new : Option Nat} {p : Pc} {b : Buf} {a : Act T}

/-! ## The buffer comes -/

theorem Inv.filled (h : Inv none none s) (ht : s.pc t = .reading i b new)
    (hslot : u.slot = update s.slot i { s.slot i with
      buf := some b, desc := some (b, ((s.slot i).nr - 1) % blockInodes), mode := (s.disk b (((s.slot i).nr - 1) % blockInodes)).mode,
      size := (s.disk b (((s.slot i).nr - 1) % blockInodes)).size, super := some (s.slot i).dev, minix := true, op := true })
    (hlist : u.list = s.list) (hsuper : u.super = s.super) (hdisk : u.disk = s.disk) (hbase : u.base = s.base)
    (hpc : u.pc = update s.pc t .idle) (hrefs : u.refs = s.refs) : Inv (some i) none u := by
  obtain ⟨hm, hn, hc, sp, hsp, hb⟩ := h.reading t i b new ht
  have hself := congrFun hslot i
  rw [update_self] at hself
  have hpct : u.pc t = .idle := by rw [hpc, update_self]
  have hpcv : ∀ v, v ≠ t → u.pc v = s.pc v := fun v hv => by rw [hpc, update_of_ne hv]
  -- it is the only task that reads the slot
  have hone : ∀ v b' new', v ≠ t → s.pc v ≠ .reading i b' new' := fun v b' new' hv e => by
    have h1 := two_shares s i hv
    have h2 := h.counted i
    have h3 : ∀ w b' new', s.pc w = .reading i b' new' → 1 ≤ s.share i w := fun w b' new' hw => by
      unfold State.share
      rw [hw]
      show 1 ≤ _ + if i = i then 1 else 0
      rw [if_pos rfl]
      omega
    have h4 := h3 v b' new' e
    have h5 := h3 t b new ht
    omega
  have hfree : ∀ v b' k, u.pc v ≠ .releasing i b' k := fun v b' k hv => by
    have hvt : v ≠ t := fun e => by
      subst e
      cases hpct.symm.trans hv
    rw [hpcv v hvt] at hv
    cases hm.symm.trans (h.dying v i b' k hv).1
  refine h.change (i := i) (fun j hj => .step (t := t) ?_ (fun e => ?_) hrefs hpc ?_ nofun) (fun e => ?_) hsuper hdisk hbase
    (fun j hj => ⟨fun e => absurd (some.inj e).symm hj, nofun⟩) (fun _ _ => .rfl) (fun j hj _ hl hdev hnum => ?_) ?_
  · rw [hslot, update_of_ne hj]
  · rw [hlist]
  · rw [ht]
    exact fun e => hj (some.inj e).symm
  · rw [hlist]
    exact h.nodup e
  · rw [hself] at hdev hnum
    exact hj (h.unique i j hn hl hdev hnum).symm
  constructor <;> try rw [hself]
  · rw [hlist]
    exact fun e => h.list e i
  · exact h.dev i
  · exact h.number i
  · intro _
    obtain ⟨e, he⟩ := ne_none_iff_exists'.1 hn
    have hplace : (b, ((s.slot i).nr - 1) % blockInodes) = sp.place (s.slot i).dev (s.slot i).nr := by
      rw [hb]
      rfl
    refine ⟨by rw [hself], by rw [hself], by rw [hself], ⟨sp, ?_⟩, by rw [hself]; exact he.trans (congrArg some (h.dev i e he).symm)⟩
    rw [hself, hsuper, hdisk]
    rw [← hplace]
    exact ⟨hsp, rfl, rfl, rfl⟩
  · exact nofun
  · exact nofun
  · exact nofun
  · intro v b' new' hv
    have hvt : v ≠ t := fun e => by
      subst e
      cases hpct.symm.trans hv
    rw [hpcv v hvt] at hv
    exact absurd hv (hone v b' new' hvt)
  · have h1 := sum_change (f := fun v => s.share i v) (g := fun v => u.share i v) t fun v hv => by
      unfold State.share
      rw [hpcv v hv, hrefs]
    have h2 : s.share i t = u.share i t + if i = i then 1 else 0 := by
      unfold State.share
      rw [hpct, hrefs, ht]
      rfl
    rw [if_pos rfl] at h2
    have h3 := h.counted i
    rw [if_pos rfl, hbase]
    show (s.slot i).count = _
    omega
  · exact fun v b' k hv => absurd hv (hfree v b' k)
  · exact fun v w b' c k l hv => absurd hv (hfree v b' k)
  · intro _ h0
    have h0 : (s.slot i).count = 0 := h0
    omega
  · rw [hbase]
    exact h.mount i

/-! ## Steps -/

theorem Inv.iget (h : Inv none none s) (he : enabled s (.iget t d nr new)) (hx : Exclusive s (.iget t d nr new)) (hu : iget s t d nr new = .ok u) :
    Inv none none u := by
  obtain ⟨ht, hnr⟩ := he
  unfold Exclusive at hx
  dsimp only at hx
  unfold Inode.iget at hu
  split at hu
  · cases hu
  rename_i sp hsp
  split at hu
  · rename_i i hf
    rw [hf] at hx
    obtain ⟨hi, -⟩ := findInode_some hf
    have hn : (s.slot i).node ≠ none := by
      rw [(h.list d i).1 hi]
      nofun
    -- it is not being read, so it is loaded; nobody is about to free it, so it has references
    have hm : (s.slot i).minix = true := by
      by_contra hm
      obtain ⟨v, b, new', hv⟩ := h.raw i (Bool.eq_false_iff.2 hm) hn
      exact (hx v).1 b new' hv
    have hpos : 0 < (s.slot i).count := by
      by_contra h0
      rcases h.zero i hm (by omega) with e | ⟨v, b, k, hv⟩
      · cases e
      · exact (hx v).2 b k hv
    have h1 : Inv (some i) none (s.setSlot i { s.slot i with count := (s.slot i).count + 1 }) := by
      refine h.count hm hpos ?_ (fun j hj => ⟨fun e => absurd (some.inj e).symm hj, nofun⟩) (fun _ _ => .rfl)
        fun e => absurd e (Nat.succ_ne_zero _)
      rw [if_pos rfl, h.counted, if_neg nofun]
    exact h1.fitInode ht hu
  · rename_i hf
    rw [hf] at hx
    split at hu
    · cases hu
    obtain ⟨i, hi, hu⟩ := bind_ok hu
    obtain ⟨s1, h1, hu⟩ := bind_ok hu
    cases hu
    have hm := getFreeInode_ok hi
    have hn : (s.slot i).node = none := by
      by_contra hn
      obtain ⟨v, b, new', hv⟩ := h.raw i hm hn
      exact hx i hi v b new' hv
    unfold listPush at h1
    split at h1
    · cases h1
    split at h1
    · cases h1
    cases h1
    refine h.claimed ht hm hn hsp hnr hf ?_ rfl rfl rfl rfl rfl rfl
    funext j
    by_cases hj : j = i
    · subst hj
      simp only [State.goto, State.setSlot, update_self]
    · simp only [State.goto, State.setSlot, update_of_ne hj]

theorem Inv.put (h : Inv none none s) (he : enabled s (.put t i)) (hu : Inode.iput (s.setRefs t ((s.refs t).erase i)) t i .put = .ok u) :
    Inv none none u := by
  obtain ⟨ht, hi⟩ := he
  have hgoto : (s.goto t .idle).setRefs t ((s.refs t).erase i) = s.setRefs t ((s.refs t).erase i) := by
    unfold State.goto State.setRefs
    rw [← ht, update_eq_self]
  have h1 : Inv (some i) none (s.setRefs t ((s.refs t).erase i)) := by
    rw [← hgoto]
    refine h.move (by rw [ht]; nofun) nofun (fun j => ?_) nofun fun j => ?_
    · unfold State.share
      rw [ht]
      show _ + 0 + 0 = _ + 0 + _
      by_cases hj : i = j
      · subst hj
        have := count_pos_iff.2 hi
        rw [count_erase_self, if_pos rfl]
        omega
      · rw [count_erase_of_ne fun e => hj e.symm, if_neg fun e => hj (some.inj e)]
    · rw [ht]
      exact ⟨nofun, fun e => e.elim And.left fun ⟨_, _, e⟩ => nomatch e⟩
  exact h1.iput ht hu

theorem Inv.resume {ok : Bool} (h : Inv none none s) (hu : resume s t ok = .ok u) : Inv none none u := by
  unfold Inode.resume at hu
  split at hu
  · cases hu
    exact h
  · rename_i i b new ht
    split at hu
    · unfold Inode.loaded at hu
      refine Inv.fitInode ?_ ?_ hu
      · exact h.filled ht rfl rfl rfl rfl rfl rfl rfl
      · exact goto_self ..
    · cases hu
  · rename_i i b k ht
    have h1 : Inv (some i) none (s.goto t .idle) := by
      refine h.goto (by rw [ht]; nofun) nofun (fun j => ?_) nofun fun j => ?_
      · rw [ht]
        show (if i = j then 1 else 0) + 0 = 0 + _
        by_cases hj : i = j
        · rw [if_pos hj, if_pos (congrArg some hj)]
        · rw [if_neg hj, if_neg fun e => hj (some.inj e)]
      · rw [ht]
        exact ⟨nofun, fun e => e.elim And.left fun ⟨_, _, e⟩ => nomatch e⟩
    split at hu
    · exact h1.setDirty.drop (goto_self ..) hu
    · exact h1.drop (goto_self ..) hu
  · rename_i i b k ht
    obtain ⟨hm, hc, -⟩ := h.dying t i b k ht
    have h1 : Inv none (some i) (s.goto t .idle) := by
      refine h.goto (by rw [ht]; nofun) nofun (fun j => ?_) nofun fun j => ?_
      · rw [ht]
        rfl
      · rw [ht]
        refine ⟨fun e => .inr ⟨b, k, by rw [some.inj e]⟩, fun e => ?_⟩
        rcases e with ⟨e, -⟩ | ⟨_, _, e⟩
        · cases e
        · cases e
          rfl
    split at hu
    · exact h1.setDirty.release hm hc (goto_self ..) hu
    · exact h1.release hm hc (goto_self ..) hu

omit [DecidableEq T] in
theorem Start.inv (h : Start s) : Inv none none s := by
  have hslot : ∀ i, (0 < s.base i ∧ Loaded s i) ∨ (s.base i = 0 ∧ Free s i) := fun i => by
    have h1 := h.slots i
    split at h1
    · rename_i hb
      exact .inl ⟨hb, h1⟩
    · rename_i hb
      exact .inr ⟨by omega, h1⟩
  have hnode : ∀ i, (s.slot i).node ≠ none → 0 < s.base i ∧ Loaded s i := fun i hi => (hslot i).resolve_right fun e => hi e.2.node
  have hfree : ∀ i, (s.slot i).minix = false → Free s i := fun i hi => ((hslot i).resolve_left fun e => by
    cases hi.symm.trans e.2.minix).2
  refine ⟨fun d => (h.lists d).1, fun d => (h.lists d).2, fun i d hi => ?_, fun i j hi hj => h.unique i j (hnode i hi).1 (hnode j hj).1,
    fun i hi => h.number i (hnode i hi).1, fun i hi => ?_, fun i hi => (hfree i hi).unset, fun i hi _ => (hfree i hi).count,
    fun i hi hn => absurd (hfree i hi).node hn, fun t i b new ht => ?_, fun i => ?_, fun t i b k ht => ?_, fun t v i b c k l ht => ?_,
    fun i hi h0 => ?_, h.root, h.mount⟩
  · have hl := (hnode i (by rw [hi]; nofun)).2.node
    exact some.inj (hl.symm.trans hi)
  · rcases hslot i with ⟨-, e⟩ | ⟨-, e⟩
    · exact e
    · cases hi.symm.trans e.minix
  · cases (h.idle t).symm.trans ht
  · have hz : ∑ t, s.share i t = 0 := Finset.sum_eq_zero fun t _ => by
      unfold State.share
      rw [h.refs, h.idle]
      rfl
    rw [hz, h.count, if_neg nofun]
    rfl
  · cases (h.idle t).symm.trans ht
  · cases (h.idle t).symm.trans ht
  · rcases hslot i with ⟨hb, -⟩ | ⟨-, e⟩
    · rw [h.count] at h0
      omega
    · cases hi.symm.trans e.minix

theorem step_inv (h : Inv none none s) (hx : Exclusive s a) (hs : (inodes T).Steps s a u) : Inv none none u := by
  obtain ⟨he, hu⟩ := hs
  cases a with
  | iget t d nr new => exact h.iget he hx hu
  | put t i => exact h.put he hu
  | resume t ok => exact h.resume hu

theorem reach_inv (h : (inodes T).Reach Exclusive s) : Inv none none s :=
  h.inv (I := Inv none none) (fun _ => Start.inv) fun _ _ _ => step_inv

def mounted : State Bool where
  slot i := if i = 0 then ⟨some 1, true, 1, 1, 1, some ⟨1, 4⟩, some (⟨1, 4⟩, 0), some 1, true, 0, 0, none⟩
    else ⟨none, false, 0, 0, 0, none, none, none, false, 0, 0, none⟩
  list d := if d = 1 then [0] else []
  super d := if d = 1 then some ⟨⟨64, 64, 1, 1, 6⟩, 0⟩ else none
  dirty _ := false
  disk _ _ := ⟨0, 0⟩
  pc _ := .idle
  refs _ := []
  base i := if i = 0 then 1 else 0

theorem mounted_start : Start mounted := by
  have hroot : ∀ i, 0 < mounted.base i → i = 0 := fun i hi => by
    by_contra h0
    unfold mounted at hi
    dsimp only at hi
    rw [if_neg h0] at hi
    cases hi
  have hslot : ∀ i, i ≠ 0 → mounted.slot i = ⟨none, false, 0, 0, 0, none, none, none, false, 0, 0, none⟩ := fun i hi => if_neg hi
  constructor
  · exact fun _ => rfl
  · exact fun _ => rfl
  · intro i
    by_cases hi : i = 0
    · rw [hi]
      rfl
    · rw [hslot i hi]
      exact (if_neg hi).symm
  · intro i
    split
    · rename_i hi
      rw [hroot i hi]
      exact ⟨rfl, rfl, rfl, ⟨_, rfl, rfl, rfl, rfl⟩, rfl⟩
    · rename_i hi
      have hi0 : i ≠ 0 := fun e => hi (by rw [e]; exact Nat.one_pos)
      constructor <;> rw [hslot i hi0]
      exact ⟨rfl, rfl, rfl, rfl⟩
  · intro d
    by_cases hd : d = 1
    · subst hd
      refine ⟨nodup_singleton 0, fun i => ?_⟩
      by_cases hi : i = 0
      · rw [hi]
        exact ⟨fun _ => rfl, fun _ => mem_singleton.2 rfl⟩
      · rw [hslot i hi]
        exact ⟨fun e => absurd (mem_singleton.1 e) hi, nofun⟩
    · have hl : mounted.list d = [] := if_neg hd
      refine ⟨hl ▸ nodup_nil, fun i => ?_⟩
      rw [hl]
      refine ⟨nofun, fun e => ?_⟩
      by_cases hi : i = 0
      · rw [hi] at e
        exact absurd (some.inj e).symm hd
      · rw [hslot i hi] at e
        cases e
  · intro i j hi hj _ _
    rw [hroot i hi, hroot j hj]
  · intro d sp hd
    have hd : (if d = 1 then some (Super.mk ⟨64, 64, 1, 1, 6⟩ 0) else none) = some sp := hd
    split at hd
    · cases hd
      exact Nat.one_pos
    · cases hd
  · intro i hi
    unfold mounted at hi
    dsimp only at hi
    split at hi
    · exact absurd rfl hi
    · exact absurd rfl hi
  · intro i hi
    rw [hroot i hi]
    exact Nat.one_pos

theorem mounted_reach {P : State Bool → Act Bool → Prop} : (inodes Bool).Reach P mounted := ⟨mounted, mounted_start, .refl _⟩

end Onix.Inode
