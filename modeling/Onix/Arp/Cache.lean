/-
The ARP cache in every run: one entry for each next hop, each packet for an unresolved address in one queue
until a reply or the end of its entry takes it out.
-/
import Onix.Arp.Model

namespace Onix.Arp

open List Onix.Lib
open Onix.Tcp (IpAddr ipAddrIsany ipAddrCmp)

/-! ## The list of entries -/

/-- One entry for each next hop of each interface, in the order `list_insert_sort` reads the keys. -/
structure Inv (s : Sys) : Prop where
  nodup : s.list.Nodup
  single : ∀ i ∈ s.list, ∀ j ∈ s.list, ∀ n hop, (s.entry i).For n hop → (s.entry j).For n hop → i = j
  sorted : IntSorted (fun i => (s.entry i).expires) s.list

def Sys.waiting (s : Sys) (n : Nat) (hop : IpAddr) : List Packet :=
  (s.list.filter fun i => (s.entry i).For n hop).flatMap fun i => (s.entry i).pbufs.map fun p => ⟨p, n, hop⟩

def forHop (n : Nat) (hop : IpAddr) (x : Packet) : Bool := x.netif = n ∧ x.hop = hop

/-- Each packet that was given for an unresolved next hop left its queue, in order, or still waits. -/
def Account (s : Sys) : Prop :=
  ∀ n hop, s.asked.filter (forHop n hop) = (s.out.map Prod.fst).filter (forHop n hop) ++ s.waiting n hop

variable {s t : Sys} {i j n new p : Nat} {hop : IpAddr} {e : Entry} {junk time : BitVec 32} {m : Msg}

theorem set_entry_self (s : Sys) (i : Nat) (e : Entry) : (s.set i e).entry i = e := Function.update_self ..

theorem set_entry_ne (s : Sys) {i j : Nat} (e : Entry) (h : j ≠ i) : (s.set i e).entry j = s.entry j := Function.update_of_ne h ..

theorem Entry.For.eq {n' : Nat} {hop' : IpAddr} (h : e.For n hop) (h' : e.For n' hop') : n = n' ∧ hop = hop' :=
  ⟨h.2.trans h'.2.symm, h.1.symm.trans h'.1⟩

theorem waiting_of_mem (h : Inv s) (hi : i ∈ s.list) (hf : (s.entry i).For n hop) :
    s.waiting n hop = (s.entry i).pbufs.map fun p => ⟨p, n, hop⟩ := by
  have hfil : (s.list.filter fun j => (s.entry j).For n hop) = [i] := by
    have hcongr : (s.list.filter fun j => (s.entry j).For n hop) = s.list.filter fun j => j = i := by
      refine filter_congr fun j hj => ?_
      rw [decide_eq_decide]
      constructor
      · intro hj'
        exact h.single j hj i hi n hop hj' hf
      · rintro rfl
        exact hf
    rw [hcongr, filter_eq, count_eq_one_of_mem h.nodup hi]
    rfl
  unfold Sys.waiting
  rw [hfil, flatMap_singleton]

theorem waiting_of_none (h : ∀ i ∈ s.list, ¬ (s.entry i).For n hop) : s.waiting n hop = [] := by
  have hfil : (s.list.filter fun j => (s.entry j).For n hop) = [] := by
    rw [filter_eq_nil_iff]
    exact fun j hj hf => h j hj (of_decide_eq_true hf)
  unfold Sys.waiting
  rw [hfil]
  rfl

theorem waiting_same (hs : Inv s) (ht : Inv t)
    (hlist : ∀ i, (i ∈ s.list ∧ (s.entry i).For n hop) ↔ (i ∈ t.list ∧ (t.entry i).For n hop))
    (hpbufs : ∀ i ∈ s.list, (s.entry i).For n hop → (t.entry i).pbufs = (s.entry i).pbufs) : t.waiting n hop = s.waiting n hop := by
  by_cases hex : ∃ i ∈ s.list, (s.entry i).For n hop
  · obtain ⟨i, hi, hf⟩ := hex
    obtain ⟨hi', hf'⟩ := (hlist i).1 ⟨hi, hf⟩
    rw [waiting_of_mem hs hi hf, waiting_of_mem ht hi' hf', hpbufs i hi hf]
  · rw [waiting_of_none fun i hi hf => hex ⟨i, hi, hf⟩, waiting_of_none fun i hi hf => ?_]
    obtain ⟨hi', hf'⟩ := (hlist i).2 ⟨hi, hf⟩
    exact hex ⟨i, hi', hf'⟩

theorem Inv.set (h : Inv s) (hn : e.netif = (s.entry i).netif) (ha : e.ipaddr = (s.entry i).ipaddr)
    (hx : e.expires = (s.entry i).expires) : Inv (s.set i e) ∧
    ∀ j n hop, ((s.set i e).entry j).For n hop ↔ (s.entry j).For n hop := by
  have hfor : ∀ j n hop, ((s.set i e).entry j).For n hop ↔ (s.entry j).For n hop := by
    intro j n hop
    by_cases hj : j = i
    · subst hj
      rw [set_entry_self]
      unfold Entry.For
      rw [hn, ha]
    · rw [set_entry_ne s e hj]
  refine ⟨⟨h.nodup, fun j hj k hk n hop hfj hfk => ?_, ?_⟩, hfor⟩
  · exact h.single j hj k hk n hop ((hfor j n hop).1 hfj) ((hfor k n hop).1 hfk)
  · have hkey : (fun j => ((s.set i e).entry j).expires) = fun j => (s.entry j).expires := by
      funext j
      by_cases hj : j = i
      · subst hj
        rw [set_entry_self, hx]
      · rw [set_entry_ne s e hj]
    rw [hkey]
    exact h.sorted

theorem Account.set (h : Inv s) (ha : Account s) (hn : e.netif = (s.entry i).netif) (hip : e.ipaddr = (s.entry i).ipaddr)
    (hx : e.expires = (s.entry i).expires) (hp : e.pbufs = (s.entry i).pbufs) : Account (s.set i e) := by
  obtain ⟨ht, hfor⟩ := h.set hn hip hx
  intro n hop
  have hw : (s.set i e).waiting n hop = s.waiting n hop := by
    refine waiting_same h ht (fun j => ⟨fun hj => ⟨hj.1, (hfor j n hop).2 hj.2⟩, fun hj => ⟨hj.1, (hfor j n hop).1 hj.2⟩⟩) ?_
    intro j _ _
    by_cases hj : j = i
    · subst hj
      rw [set_entry_self, hp]
    · rw [set_entry_ne s e hj]
  rw [hw]
  exact ha n hop

variable {l : List Nat}

theorem insertSort_inv (hl : l.Nodup) (hi : i ∉ l) (hsub : IntSorted (fun j => (s.entry j).expires) l)
    (hsingle : ∀ j ∈ i :: l, ∀ k ∈ i :: l, ∀ n hop, (s.entry j).For n hop → (s.entry k).For n hop → j = k) : Inv (s.insertSort i l) := by
  have hperm : (listInsertSort (fun j => (s.entry j).expires) i l).Perm (i :: l) := listInsertSort_perm i l
  refine ⟨?_, fun j hj k hk => ?_, listInsertSort_intSorted hsub⟩
  · exact hperm.nodup_iff.2 (nodup_cons.2 ⟨hi, hl⟩)
  · exact hsingle j (hperm.mem_iff.1 hj) k (hperm.mem_iff.1 hk)

theorem mem_insertSort : j ∈ (s.insertSort i l).list ↔ j = i ∨ j ∈ l := mem_listInsertSort

def Sorted (s : Sys) : Prop := s.list.Pairwise fun i j => (s.entry i).expires ≤ (s.entry j).expires

/-- The `int` reading puts `y` on the side of `x` where it belongs. -/
def SameOrder (x y : BitVec 32) : Prop := y.toInt ≤ x.toInt ↔ y ≤ x

/-- The cache is in order and accounts for every packet. -/
structure Good (s : Sys) : Prop where
  sorted : Sorted s
  account : Account s

theorem insertSort_sorted (hint : IntSorted (fun j => (s.entry j).expires) l)
    (hsub : l.Pairwise fun i j => (s.entry i).expires ≤ (s.entry j).expires)
    (hx : ∀ j ∈ l, SameOrder (s.entry i).expires (s.entry j).expires) : Sorted (s.insertSort i l) := by
  refine (listInsertSort_pairwise hint hsub).2 fun j hj => ⟨fun hle => (hx j hj).1 hle, fun hlt => ?_⟩
  have hlt : (s.entry i).expires.toInt < (s.entry j).expires.toInt := hlt
  have hno : ¬ (s.entry j).expires ≤ (s.entry i).expires := fun hle => by
    have hint := (hx j hj).2 hle
    omega
  show (s.entry i).expires ≤ (s.entry j).expires
  rw [BitVec.le_def] at hno ⊢
  omega

theorem Good.set (h : Inv s) (hg : Good s) (hn : e.netif = (s.entry i).netif) (hip : e.ipaddr = (s.entry i).ipaddr)
    (hx : e.expires = (s.entry i).expires) (hp : e.pbufs = (s.entry i).pbufs) : Good (s.set i e) := by
  refine ⟨?_, Account.set h hg.account hn hip hx hp⟩
  have hkey : ∀ j, ((s.set i e).entry j).expires = (s.entry j).expires := by
    intro j
    by_cases hj : j = i
    · subst hj
      rw [set_entry_self, hx]
    · rw [set_entry_ne s e hj]
  unfold Sorted
  simp only [hkey]
  exact hg.sorted

/-! ## Looking an entry up -/

/-- What `arp_lookup` leaves when it finds or makes the entry `i`. -/
structure Found (s : Sys) (netif : Nat) (hop : IpAddr) (new : Nat) (t : Sys) (i : Nat) : Prop where
  inv : Inv t
  old : ∀ j ∈ s.list, j ∈ t.list ∧ t.entry j = s.entry j
  mem : ∀ j ∈ t.list, j ∈ s.list ∨ (j = i ∧ i = new ∧ (t.entry i).pbufs = [] ∧ (t.entry i).expires = 0)
  here : i ∈ t.list
  own : (t.entry i).For netif hop
  rest : t.list.erase i = s.list.erase i
  waiting : ∀ n hop, t.waiting n hop = s.waiting n hop
  same : t.ifs = s.ifs ∧ t.netif = s.netif ∧ t.log = s.log ∧ t.asked = s.asked ∧ t.out = s.out

def Fits (s : Sys) (netif : Nat) (hop : IpAddr) : Prop :=
  (∀ i ∈ s.list, ¬ (s.entry i).For netif hop) → ∀ j ∈ s.list, SameOrder 0 (s.entry j).expires

theorem erase_listInsertSort {key : Nat → BitVec 32} : ∀ {l : List Nat}, i ∉ l → (listInsertSort key i l).erase i = l
  | [], _ => by simp [listInsertSort]
  | y :: l, h => by
    obtain ⟨hy, hl⟩ := not_or.1 (mt mem_cons.2 h)
    unfold listInsertSort
    split
    · exact erase_cons_head i _
    · rw [erase_cons_tail (by simpa using fun e => hy e.symm), erase_listInsertSort hl]

variable {netif : Nat}

theorem get_spec (h : Inv s) (hnew : new ∉ s.list) (hno : ∀ i ∈ s.list, ¬ (s.entry i).For netif hop) :
    Found s netif hop new (arpEntryGet s netif hop new junk) new ∧
    (Sorted s → (∀ j ∈ s.list, SameOrder 0 (s.entry j).expires) → Sorted (arpEntryGet s netif hop new junk)) := by
  have hold : ∀ j ∈ s.list, (s.set new ⟨ethBroadcast, hop, 0, 1, junk, 0, [], netif⟩).entry j = s.entry j := by
    intro j hj
    exact set_entry_ne s _ fun hjn => hnew (hjn ▸ hj)
  have hself := set_entry_self s new ⟨ethBroadcast, hop, 0, 1, junk, 0, [], netif⟩
  generalize hu : s.set new ⟨ethBroadcast, hop, 0, 1, junk, 0, [], netif⟩ = u at hold hself
  have hint : IntSorted (fun j => (u.entry j).expires) s.list := by
    refine h.sorted.imp_of_mem fun ha hb hab => ?_
    dsimp only at hab ⊢
    rw [hold _ ha, hold _ hb]
    exact hab
  have hfresh : ∀ n hop', (u.entry new).For n hop' → n = netif ∧ hop' = hop := by
    intro n hop' hf
    rw [hself] at hf
    exact ⟨hf.2, hf.1.symm⟩
  have hinv : Inv (u.insertSort new s.list) := by
    refine insertSort_inv h.nodup hnew hint fun j hj k hk n hop' hfj hfk => ?_
    rcases mem_cons.1 hj with hjn | hj' <;> rcases mem_cons.1 hk with hkn | hk'
    · rw [hjn, hkn]
    · rw [hjn] at hfj
      obtain ⟨rfl, rfl⟩ := hfresh n hop' hfj
      rw [hold k hk'] at hfk
      exact absurd hfk (hno k hk')
    · rw [hkn] at hfk
      obtain ⟨rfl, rfl⟩ := hfresh n hop' hfk
      rw [hold j hj'] at hfj
      exact absurd hfj (hno j hj')
    · rw [hold j hj'] at hfj
      rw [hold k hk'] at hfk
      exact h.single j hj' k hk' n hop' hfj hfk
  have hget : arpEntryGet s netif hop new junk = u.insertSort new s.list := by
    unfold arpEntryGet
    rw [hu]
  have hown : (u.entry new).For netif hop := by
    rw [hself]
    exact ⟨rfl, rfl⟩
  rw [hget]
  refine ⟨⟨hinv, fun j hj => ⟨mem_insertSort.2 (.inr hj), hold j hj⟩, fun j hj => ?_, mem_insertSort.2 (.inl rfl), hown,
    ?_, fun n hop' => ?_, ?_⟩, fun hs hfit => ?_⟩
  · rcases mem_insertSort.1 hj with rfl | hj
    · refine .inr ⟨rfl, rfl, ?_, ?_⟩
      · show (u.entry j).pbufs = []
        rw [hself]
      · show (u.entry j).expires = 0
        rw [hself]
    · exact .inl hj
  · exact (erase_listInsertSort hnew).trans (erase_of_not_mem hnew).symm
  · by_cases hkey : n = netif ∧ hop' = hop
    · obtain ⟨rfl, rfl⟩ := hkey
      rw [waiting_of_none hno, waiting_of_mem hinv (mem_insertSort.2 (.inl rfl)) hown]
      show (u.entry new).pbufs.map _ = []
      rw [hself]
      rfl
    · refine waiting_same h hinv (fun j => ⟨fun hj => ⟨mem_insertSort.2 (.inr hj.1), ?_⟩, fun hj => ?_⟩) fun j hj _ => ?_
      · show (u.entry j).For n hop'
        rw [hold j hj.1]
        exact hj.2
      · obtain ⟨hmem, hf⟩ := hj
        have hf : (u.entry j).For n hop' := hf
        rcases mem_insertSort.1 hmem with rfl | hmem
        · exact absurd (hfresh n hop' hf) hkey
        · rw [hold j hmem] at hf
          exact ⟨hmem, hf⟩
      · exact congrArg Entry.pbufs (hold j hj)
  · subst hu
    exact ⟨rfl, rfl, rfl, rfl, rfl⟩
  · refine insertSort_sorted hint ?_ fun j hj => ?_
    · refine hs.imp_of_mem fun ha hb hab => ?_
      rw [hold _ ha, hold _ hb]
      exact hab
    · rw [hself, hold j hj]
      exact hfit j hj

theorem Found.account (h : Found s netif hop new t i) (ha : Account s) : Account t := by
  intro n hop'
  obtain ⟨-, -, -, hasked, hout⟩ := h.same
  rw [hasked, hout, h.waiting]
  exact ha n hop'

theorem lookup_spec (h : Inv s) (hnew : new ∉ s.list) (addr : IpAddr) :
    (s.nextHop netif addr = 0 ∧ arpLookup s netif addr new junk = (s, none)) ∨
    (s.nextHop netif addr ≠ 0 ∧ ∃ t i, arpLookup s netif addr new junk = (t, some i) ∧ Found s netif (s.nextHop netif addr) new t i ∧
      (Good s → Fits s netif (s.nextHop netif addr) → Good t)) := by
  unfold arpLookup
  generalize s.nextHop netif addr = hop
  by_cases h0 : hop = 0
  · exact .inl ⟨h0, if_pos (decide_eq_true h0)⟩
  · refine .inr ⟨h0, ?_⟩
    have hno0 : ¬ ipAddrIsany hop = true := fun hc => h0 (of_decide_eq_true hc)
    rw [if_neg hno0]
    cases hf : s.list.find? fun i => decide ((s.entry i).For netif hop) with
    | some i =>
      have hown : (s.entry i).For netif hop := by simpa using find?_some hf
      exact ⟨s, i, rfl, ⟨h, fun j hj => ⟨hj, rfl⟩, fun j hj => .inl hj, mem_of_find?_eq_some hf, hown, rfl, fun _ _ => rfl,
        rfl, rfl, rfl, rfl, rfl⟩, fun hg _ => hg⟩
    | none =>
      have hno : ∀ i ∈ s.list, ¬ (s.entry i).For netif hop := by simpa using find?_eq_none.1 hf
      obtain ⟨hfound, hsort⟩ : Found s netif hop new (arpEntryGet s netif hop new junk) new ∧ _ := get_spec h hnew hno
      exact ⟨_, new, rfl, hfound, fun hg hfit => ⟨hsort hg.sorted (hfit hno), hfound.account hg.account⟩⟩

/-! ## Packets leave -/

theorem mem_waiting {x : Packet} (hx : x ∈ s.waiting n hop) : x.netif = n ∧ x.hop = hop := by
  obtain ⟨i, -, hi⟩ := mem_flatMap.1 hx
  obtain ⟨p, -, rfl⟩ := mem_map.1 hi
  exact ⟨rfl, rfl⟩

theorem Account.leave {f : Fate} (ha : Account s) (hasked : t.asked = s.asked)
    (hout : t.out = s.out ++ (s.waiting n hop).map fun x => (x, f)) (hnone : t.waiting n hop = [])
    (hrest : ∀ n' hop', ¬ (n' = n ∧ hop' = hop) → t.waiting n' hop' = s.waiting n' hop') : Account t := by
  intro n' hop'
  have hfst : ((s.waiting n hop).map fun x => (x, f)).map Prod.fst = s.waiting n hop := by
    rw [map_map]
    exact map_id _
  rw [hasked, hout, map_append, hfst, filter_append, ha n' hop']
  by_cases hkey : n' = n ∧ hop' = hop
  · obtain ⟨rfl, rfl⟩ := hkey
    have hall : (s.waiting n' hop').filter (forHop n' hop') = s.waiting n' hop' :=
      filter_eq_self.2 fun x hx => decide_eq_true (mem_waiting hx)
    rw [hall, hnone, append_nil]
  · have hno : (s.waiting n hop).filter (forHop n' hop') = [] := by
      rw [filter_eq_nil_iff]
      intro x hx hf
      obtain ⟨h1, h2⟩ := mem_waiting hx
      have hf : x.netif = n' ∧ x.hop = hop' := of_decide_eq_true hf
      exact hkey ⟨hf.1.symm.trans h1, hf.2.symm.trans h2⟩
    rw [hno, append_nil, hrest n' hop' hkey]

theorem sendLoop_spec (h : Inv s) (hi : i ∈ s.list) (hf : (s.entry i).For netif hop) :
    Inv (sendLoop s netif i) ∧ (Good s → Good (sendLoop s netif i)) ∧ (sendLoop s netif i).waiting netif hop = [] ∧
    (sendLoop s netif i).asked = s.asked ∧
    (sendLoop s netif i).out = s.out ++ (s.waiting netif hop).map (fun x => (x, .sent (s.entry i).hwaddr)) ∧
    (sendLoop s netif i).log = s.log ++ (s.waiting netif hop).map fun x => .output netif x.pbuf (s.entry i).hwaddr := by
  have hset := h.set (i := i) (e := { s.entry i with pbufs := [] }) rfl rfl rfl
  have hinv : Inv (sendLoop s netif i) := ⟨hset.1.nodup, hset.1.single, hset.1.sorted⟩
  have hw := waiting_of_mem h hi hf
  have hself : (sendLoop s netif i).entry i = { s.entry i with pbufs := [] } := set_entry_self ..
  have hfor : ∀ j n hop, ((sendLoop s netif i).entry j).For n hop ↔ (s.entry j).For n hop := hset.2
  have hnone : (sendLoop s netif i).waiting netif hop = [] := by
    rw [waiting_of_mem hinv hi ((hfor i netif hop).2 hf), hself]
    rfl
  have hout : (sendLoop s netif i).out = s.out ++ (s.waiting netif hop).map (fun x => (x, .sent (s.entry i).hwaddr)) := by
    obtain ⟨hip, hn⟩ := hf
    rw [hw, map_map]
    show s.out ++ (s.entry i).pbufs.map (fun p => (⟨p, (s.entry i).netif, (s.entry i).ipaddr⟩, .sent (s.entry i).hwaddr)) = _
    rw [hip, ← hn]
    rfl
  refine ⟨hinv, fun hg => ⟨?_, ?_⟩, hnone, rfl, hout, ?_⟩
  · have hkey : ∀ j, ((sendLoop s netif i).entry j).expires = (s.entry j).expires := by
      intro j
      by_cases hj : j = i
      · subst hj
        rw [hself]
      · exact congrArg Entry.expires (set_entry_ne s _ hj)
    unfold Sorted
    simp only [hkey]
    exact hg.sorted
  · refine hg.account.leave rfl hout hnone fun n' hop' hkey => ?_
    refine waiting_same h hinv (fun j => ⟨fun hj => ⟨hj.1, (hfor j n' hop').2 hj.2⟩, fun hj => ⟨hj.1, (hfor j n' hop').1 hj.2⟩⟩) ?_
    intro j _ hj
    have hji : j ≠ i := by
      rintro rfl
      exact hkey (hj.eq hf)
    exact congrArg Entry.pbufs (set_entry_ne s _ hji)
  · rw [hw, map_map]
    rfl

theorem put_spec (h : Inv s) (hi : i ∈ s.list) :
    Inv (arpEntryPut s i) ∧ (Good s → Good (arpEntryPut s i)) ∧
    (arpEntryPut s i).out = s.out ++ (s.waiting (s.entry i).netif (s.entry i).ipaddr).map (fun x => (x, .released)) ∧
    ∀ j ∈ (arpEntryPut s i).list, j ∈ s.list ∧ j ≠ i := by
  have hf : (s.entry i).For (s.entry i).netif (s.entry i).ipaddr := ⟨rfl, rfl⟩
  have hmem : ∀ j, j ∈ (arpEntryPut s i).list ↔ j ≠ i ∧ j ∈ s.list := fun j => h.nodup.mem_erase_iff
  have hsub : (arpEntryPut s i).list.Sublist s.list := erase_sublist
  have hinv : Inv (arpEntryPut s i) := ⟨h.nodup.erase i,
    fun j hj k hk => h.single j ((hmem j).1 hj).2 k ((hmem k).1 hk).2, h.sorted.sublist hsub⟩
  have hout : (arpEntryPut s i).out = s.out ++ (s.waiting (s.entry i).netif (s.entry i).ipaddr).map fun x => (x, .released) := by
    rw [waiting_of_mem h hi hf, map_map]
    rfl
  refine ⟨hinv, fun hg => ⟨hg.sorted.sublist hsub, hg.account.leave rfl hout ?_ fun n' hop' hkey => ?_⟩, hout,
    fun j hj => ⟨((hmem j).1 hj).2, ((hmem j).1 hj).1⟩⟩
  · refine waiting_of_none fun j hj hfj => ?_
    obtain ⟨hne, hj⟩ := (hmem j).1 hj
    exact hne (h.single j hj i hi _ _ hfj hf)
  · refine waiting_same h hinv (fun j => ⟨fun hj => ⟨(hmem j).2 ⟨?_, hj.1⟩, hj.2⟩, fun hj => ⟨((hmem j).1 hj.1).2, hj.2⟩⟩)
      fun _ _ _ => rfl
    rintro rfl
    exact hkey (hj.2.eq hf)

/-! ## Queries and rounds -/

theorem query_spec (h : Inv s) (i : Nat) (time : BitVec 32) : Inv (arpQuery s i time) ∧ (Good s → Good (arpQuery s i time)) ∧
    (arpQuery s i time).list = s.list ∧ (arpQuery s i time).asked = s.asked ∧ (arpQuery s i time).out = s.out ∧
    (arpQuery s i time).log = s.log ∧ ∀ j n hop, ((arpQuery s i time).entry j).For n hop ↔ (s.entry j).For n hop := by
  unfold arpQuery
  dsimp only
  split
  · exact ⟨h, fun hg => hg, rfl, rfl, rfl, rfl, fun _ _ _ => .rfl⟩
  · obtain ⟨hinv, hfor⟩ := h.set (i := i) (e := { s.entry i with
      query := time, retry := (s.entry i).retry + 1,
      hwaddr := if 2 < (s.entry i).retry + 1 then ethBroadcast else (s.entry i).hwaddr }) rfl rfl rfl
    exact ⟨hinv, fun hg => hg.set h rfl rfl rfl rfl, rfl, rfl, rfl, rfl, hfor⟩

/-- What a round of `arp_thread` has done so far: packets are released, each with its entry. -/
structure Swept (s t : Sys) : Prop where
  inv : Inv t
  good : Good s → Good t
  list : ∀ j ∈ t.list, j ∈ s.list
  keys : ∀ j n hop, (t.entry j).For n hop ↔ (s.entry j).For n hop
  asked : t.asked = s.asked
  log : t.log = s.log
  released : ∃ l : List Packet, t.out = s.out ++ l.map (fun x => (x, .released)) ∧
    ∀ x ∈ l, ∀ j ∈ t.list, ¬ (t.entry j).For x.netif x.hop

theorem refreshEntry_swept (h : Inv s) (hi : i ∈ s.list) (time : BitVec 32) : Swept s (refreshEntry time s i) := by
  have hsame : Swept s s := ⟨h, fun hg => hg, fun _ hj => hj, fun _ _ _ => .rfl, rfl, rfl, [], by simp, fun _ hx => nomatch hx⟩
  have hput : Swept s (arpEntryPut s i) := by
    obtain ⟨hinv, hgood, hout, hmem⟩ := put_spec h hi
    refine ⟨hinv, hgood, fun j hj => (hmem j hj).1, fun _ _ _ => .rfl, rfl, rfl, _, hout, fun x hx j hj hf => ?_⟩
    obtain ⟨h1, h2⟩ := mem_waiting hx
    obtain ⟨hj', hne⟩ := hmem j hj
    rw [h1, h2] at hf
    exact hne (h.single j hj' i hi _ _ hf ⟨rfl, rfl⟩)
  have hquery : Swept s (arpQuery s i time) := by
    obtain ⟨hinv, hgood, hlist, hasked, hout, hlog, hfor⟩ := query_spec h i time
    refine ⟨hinv, hgood, fun j hj => ?_, hfor, hasked, hlog, [], by simpa using hout, fun _ hx => nomatch hx⟩
    rw [hlist] at hj
    exact hj
  unfold refreshEntry
  dsimp only
  split
  · exact hsame
  split
  · exact hput
  split
  · exact hput
  · exact hquery

theorem Swept.trans {u : Sys} (h1 : Swept s t) (h2 : Swept t u) : Swept s u := by
  refine ⟨h2.inv, fun hg => h2.good (h1.good hg), fun j hj => h1.list j (h2.list j hj),
    fun j n hop => (h2.keys j n hop).trans (h1.keys j n hop), h2.asked.trans h1.asked, h2.log.trans h1.log, ?_⟩
  obtain ⟨l1, ho1, hr1⟩ := h1.released
  obtain ⟨l2, ho2, hr2⟩ := h2.released
  refine ⟨l1 ++ l2, by rw [ho2, ho1, map_append, append_assoc], fun x hx j hj => ?_⟩
  rcases mem_append.1 hx with hx | hx
  · rw [h2.keys]
    exact hr1 x hx j (h2.list j hj)
  · exact hr2 x hx j hj

theorem refreshEntry_mem (hj : j ∈ s.list) (hne : j ≠ i) (time : BitVec 32) : j ∈ (refreshEntry time s i).list := by
  have hput : j ∈ (arpEntryPut s i).list := (mem_erase_of_ne hne).2 hj
  have hquery : j ∈ (arpQuery s i time).list := by
    unfold arpQuery
    dsimp only
    split <;> exact hj
  unfold refreshEntry
  dsimp only
  split
  · exact hj
  split
  · exact hput
  split
  · exact hput
  · exact hquery

theorem sweep (time : BitVec 32) : ∀ (l : List Nat) (s : Sys), Inv s → l.Nodup → (∀ i ∈ l, i ∈ s.list) →
    Swept s (l.foldl (refreshEntry time) s)
  | [], s, h, _, _ => ⟨h, fun hg => hg, fun _ hj => hj, fun _ _ _ => .rfl, rfl, rfl, [], by simp, fun _ hx => nomatch hx⟩
  | i :: l, s, h, hnd, hl => by
    obtain ⟨hil, hnd⟩ := nodup_cons.1 hnd
    have hone := refreshEntry_swept h (hl i (mem_cons_self ..)) time
    refine hone.trans (sweep time l _ hone.inv hnd fun j hj => ?_)
    have hji : j ≠ i := by
      rintro rfl
      exact hil hj
    exact refreshEntry_mem (hl j (mem_cons_of_mem _ hj)) hji time

/-! ## Replies -/

def Accepted (s : Sys) (netif : Nat) (m : Msg) : Prop :=
  m.hwtype = 1 ∧ m.proto = 0x0800 ∧ (s.netif netif).ipaddr = m.ipdst ∧ m.opcode = 2 ∧
    m.ipsrc &&& (s.netif netif).netmask = (s.netif netif).ipaddr &&& (s.netif netif).netmask ∧ m.ipsrc ≠ 0

/-- What a step does to the packets of unresolved addresses: an output transmits its packet or asks for the
next hop; a reply transmits what waits for its sender, in order, to the MAC it gives; a round releases
packets, each with its entry. -/
def Flow (s : Sys) (a : Act) (t : Sys) : Prop :=
  match a with
  | .output netif p addr _ _ _ => t.out = s.out ∧
      ((t.asked = s.asked ++ [⟨p, netif, s.nextHop netif addr⟩] ∧ t.log = s.log) ∨
        (t.asked = s.asked ∧ ∃ mac, t.log = s.log ++ [.output netif p mac] ∨ t.log = s.log ++ [.input netif p mac]))
  | .input netif m _ _ _ => t.asked = s.asked ∧
      ((¬ Accepted s netif m ∧ t = s) ∨ (Accepted s netif m ∧ t.waiting netif m.ipsrc = [] ∧
        t.out = s.out ++ (s.waiting netif m.ipsrc).map (fun x => (x, .sent m.hwsrc)) ∧
        t.log = s.log ++ (s.waiting netif m.ipsrc).map fun x => .output netif x.pbuf m.hwsrc))
  | .tick _ => t.asked = s.asked ∧ t.log = s.log ∧ ∃ l : List Packet, t.out = s.out ++ l.map (fun x => (x, .released)) ∧
      ∀ x ∈ l, ∀ j ∈ t.list, ¬ (t.entry j).For x.netif x.hop
  | .config _ _ => t.asked = s.asked ∧ t.log = s.log ∧ t.out = s.out

/-- The entry `i` gets the key `x` and goes to its place; nothing else changes. -/
structure Renewed (s : Sys) (i : Nat) (mac : Mac) (x : BitVec 32) (t : Sys) : Prop where
  inv : Inv t
  good : Account s → ((s.list.erase i).Pairwise fun j k => (s.entry j).expires ≤ (s.entry k).expires) →
    (∀ j ∈ s.list.erase i, SameOrder x (s.entry j).expires) → Good t
  mem : ∀ j, j ∈ t.list ↔ j ∈ s.list
  keys : ∀ j n hop, (t.entry j).For n hop ↔ (s.entry j).For n hop
  hwaddr : (t.entry i).hwaddr = mac
  waiting : ∀ n hop, t.waiting n hop = s.waiting n hop
  same : t.log = s.log ∧ t.asked = s.asked ∧ t.out = s.out

theorem renew_spec {x : BitVec 32} {mac : Mac} (h : Inv s) (hi : i ∈ s.list) : Renewed s i mac x (renew s i mac x) := by
  have hself := set_entry_self s i { s.entry i with hwaddr := mac, expires := x, retry := 0, used := 0 }
  have hother : ∀ j, j ≠ i → (s.set i { s.entry i with hwaddr := mac, expires := x, retry := 0, used := 0 }).entry j = s.entry j :=
    fun j hj => set_entry_ne s _ hj
  have hrenew : renew s i mac x =
      (s.set i { s.entry i with hwaddr := mac, expires := x, retry := 0, used := 0 }).insertSort i (s.list.erase i) := rfl
  have hsame : (renew s i mac x).log = s.log ∧ (renew s i mac x).asked = s.asked ∧ (renew s i mac x).out = s.out := ⟨rfl, rfl, rfl⟩
  generalize s.set i { s.entry i with hwaddr := mac, expires := x, retry := 0, used := 0 } = u at *
  have hmem : ∀ j, j ∈ s.list.erase i ↔ j ≠ i ∧ j ∈ s.list := fun j => h.nodup.mem_erase_iff
  have hfor : ∀ j n hop', (u.entry j).For n hop' ↔ (s.entry j).For n hop' := by
    intro j n hop'
    by_cases hj : j = i
    · rw [hj, hself]
      exact .rfl
    · rw [hother j hj]
  have hsub : IntSorted (fun j => (u.entry j).expires) (s.list.erase i) := by
    refine (h.sorted.sublist erase_sublist).imp_of_mem fun ha hb hab => ?_
    dsimp only at hab ⊢
    rw [hother _ ((hmem _).1 ha).1, hother _ ((hmem _).1 hb).1]
    exact hab
  have hall : ∀ j, j ∈ i :: s.list.erase i → j ∈ s.list := by
    intro j hj
    rcases mem_cons.1 hj with rfl | hj
    · exact hi
    · exact ((hmem j).1 hj).2
  have hinv : Inv (u.insertSort i (s.list.erase i)) := by
    refine insertSort_inv (h.nodup.erase i) (fun hc => ((hmem i).1 hc).1 rfl) hsub fun j hj k hk n hop' hfj hfk => ?_
    exact h.single j (hall j hj) k (hall k hk) n hop' ((hfor j n hop').1 hfj) ((hfor k n hop').1 hfk)
  have hin : ∀ j, j ∈ (u.insertSort i (s.list.erase i)).list ↔ j ∈ s.list := by
    intro j
    rw [mem_insertSort, hmem]
    constructor
    · rintro (rfl | hj)
      · exact hi
      · exact hj.2
    · intro hj
      by_cases hji : j = i
      · exact .inl hji
      · exact .inr ⟨hji, hj⟩
  have hwait : ∀ n hop', (u.insertSort i (s.list.erase i)).waiting n hop' = s.waiting n hop' := by
    intro n hop'
    refine waiting_same h hinv (fun j => and_congr (hin j).symm (hfor j n hop').symm) fun j _ _ => ?_
    show (u.entry j).pbufs = _
    by_cases hj : j = i
    · rw [hj, hself]
    · rw [hother j hj]
  rw [hrenew] at hsame ⊢
  refine ⟨hinv, fun hacc hpw hfit => ⟨insertSort_sorted hsub ?_ fun j hj => ?_, fun n hop' => ?_⟩, hin, hfor, ?_, hwait, hsame⟩
  · refine hpw.imp_of_mem fun ha hb hab => ?_
    rw [hother _ ((hmem _).1 ha).1, hother _ ((hmem _).1 hb).1]
    exact hab
  · rw [hself, hother j ((hmem j).1 hj).1]
    exact hfit j hj
  · rw [hwait, hsame.2.1, hsame.2.2]
    exact hacc n hop'
  · exact congrArg Entry.hwaddr hself

/-- What every step needs: the next hop of a packet is an address, and each key that is new in the list is
read by `list_insert_sort` as what it is. -/
def Proper (s : Sys) : Act → Prop
  | .output netif _ addr _ _ _ => (s.netif netif).loopback = false → s.isown addr = false →
      s.nextHop netif addr ≠ 0 ∧ Fits s netif (s.nextHop netif addr)
  | .input netif m time _ _ => Accepted s netif m →
      ∀ j ∈ s.list, ¬ (s.entry j).For netif m.ipsrc → SameOrder (time + arpEntryTimeout) (s.entry j).expires
  | .tick _ | .config _ _ => True

theorem refresh_spec (h : Inv s) (hnew : new ∉ s.list) (ha : Accepted s netif m) :
    Inv (arpRefresh s netif m time new junk) ∧
    (Good s → (∀ j ∈ s.list, ¬ (s.entry j).For netif m.ipsrc → SameOrder (time + arpEntryTimeout) (s.entry j).expires) →
      Good (arpRefresh s netif m time new junk)) ∧ Flow s (.input netif m time new junk) (arpRefresh s netif m time new junk) := by
  obtain ⟨-, -, -, -, hnet, h0⟩ := id ha
  have hhop : s.nextHop netif m.ipsrc = m.ipsrc := by
    exact if_neg (not_not.2 hnet.symm)
  have heq : arpRefresh s netif m time new junk =
      (arpLookup s netif m.ipsrc new junk).2.elim (arpLookup s netif m.ipsrc new junk).1 fun i =>
        sendLoop (renew (arpLookup s netif m.ipsrc new junk).1 i m.hwsrc (time + arpEntryTimeout)) netif i := by
    refine (if_neg (not_not.2 hnet)).trans ?_
    rcases arpLookup s netif m.ipsrc new junk with ⟨t, _ | i⟩ <;> rfl
  rcases @lookup_spec s new junk netif h hnew m.ipsrc with ⟨hz, -⟩ | ⟨-, t, i, hlook, hfound, -⟩
  · rw [hhop] at hz
    exact absurd hz h0
  rw [hhop] at hfound
  have hr : Renewed t i m.hwsrc (time + arpEntryTimeout) (renew t i m.hwsrc (time + arpEntryTimeout)) :=
    renew_spec hfound.inv hfound.here
  obtain ⟨hinv, hgood, hnone, hasked, hout, hlog⟩ :=
    sendLoop_spec hr.inv ((hr.mem i).2 hfound.here) ((hr.keys i netif m.ipsrc).2 hfound.own)
  rw [hr.hwaddr, hr.waiting, hfound.waiting] at hout hlog
  rw [heq, hlook]
  dsimp only [Option.elim]
  refine ⟨hinv, fun hg hfit => hgood (hr.good (hfound.account hg.account) ?_ fun j hj => ?_),
    hasked.trans (hr.same.2.1.trans hfound.same.2.2.2.1), .inr ⟨ha, hnone, ?_, ?_⟩⟩
  · rw [hfound.rest]
    refine (hg.sorted.sublist erase_sublist).imp_of_mem fun ha hb hab => ?_
    rw [(hfound.old _ (mem_of_mem_erase ha)).2, (hfound.old _ (mem_of_mem_erase hb)).2]
    exact hab
  · obtain ⟨hji, -⟩ := hfound.inv.nodup.mem_erase_iff.1 hj
    rw [hfound.rest] at hj
    have hjs := mem_of_mem_erase hj
    obtain ⟨hjt, hold⟩ := hfound.old j hjs
    rw [hold]
    refine hfit j hjs fun hfj => hji ?_
    rw [← hold] at hfj
    exact hfound.inv.single j hjt i hfound.here _ _ hfj hfound.own
  · rw [hout, hr.same.2.2, hfound.same.2.2.2.2]
  · rw [hlog, hr.same.1, hfound.same.2.2.1]

theorem input_spec (h : Inv s) (hnew : new ∉ s.list) : Inv (arpInput s netif m time new junk) ∧
    (Good s → Proper s (.input netif m time new junk) → Good (arpInput s netif m time new junk)) ∧
    Flow s (.input netif m time new junk) (arpInput s netif m time new junk) := by
  by_cases ha : Accepted s netif m
  · have hin : arpInput s netif m time new junk = arpRefresh s netif m time new junk := by
      obtain ⟨h1, h2, h3, h4, -, -⟩ := ha
      have hcmp : ipAddrCmp (s.netif netif).ipaddr m.ipdst = true := decide_eq_true h3
      unfold arpInput
      rw [if_neg (not_not.2 h1), if_neg (not_not.2 h2), if_neg (not_not.2 hcmp), if_pos h4]
    rw [hin]
    obtain ⟨hinv, hgood, hflow⟩ := @refresh_spec s new junk time m netif h hnew ha
    exact ⟨hinv, fun hg hp => hgood hg (hp ha), hflow⟩
  · have hin : arpInput s netif m time new junk = s := by
      unfold arpInput
      split
      · rfl
      split
      · rfl
      split
      · rfl
      split
      case isFalse => rfl
      rename_i h1 h2 h3 h4
      unfold arpRefresh
      dsimp only
      split
      · rfl
      rename_i h5
      have hhop : s.nextHop netif m.ipsrc = m.ipsrc := by
        exact if_neg fun hc => h5 (Ne.symm hc)
      have hz : m.ipsrc = 0 := by
        by_contra hz
        exact ha ⟨not_not.1 h1, not_not.1 h2, of_decide_eq_true (not_not.1 h3), h4, not_not.1 h5, hz⟩
      unfold arpLookup
      rw [hhop, hz, if_pos (by decide)]
    rw [hin]
    exact ⟨h, fun hg _ => hg, rfl, .inl ⟨ha, rfl⟩⟩

/-! ## Outputs -/

theorem enqueue_spec (h : Inv s) (hi : i ∈ s.list) (hf : (s.entry i).For netif hop) (p : Nat) :
    Inv { s.set i { s.entry i with pbufs := (s.entry i).pbufs ++ [p] } with asked := s.asked ++ [⟨p, netif, (s.entry i).ipaddr⟩] } ∧
    (Good s → Good { s.set i { s.entry i with pbufs := (s.entry i).pbufs ++ [p] } with
      asked := s.asked ++ [⟨p, netif, (s.entry i).ipaddr⟩] }) := by
  obtain ⟨hset, hfor⟩ := h.set (i := i) (e := { s.entry i with pbufs := (s.entry i).pbufs ++ [p] }) rfl rfl rfl
  have hself := set_entry_self s i { s.entry i with pbufs := (s.entry i).pbufs ++ [p] }
  have hother : ∀ j, j ≠ i → (s.set i { s.entry i with pbufs := (s.entry i).pbufs ++ [p] }).entry j = s.entry j :=
    fun j hj => set_entry_ne s _ hj
  have hlist : (s.set i { s.entry i with pbufs := (s.entry i).pbufs ++ [p] }).list = s.list := rfl
  have hout : (s.set i { s.entry i with pbufs := (s.entry i).pbufs ++ [p] }).out = s.out := rfl
  generalize s.set i { s.entry i with pbufs := (s.entry i).pbufs ++ [p] } = u at *
  have hinv : Inv { u with asked := s.asked ++ [⟨p, netif, (s.entry i).ipaddr⟩] } := ⟨hset.nodup, hset.single, hset.sorted⟩
  refine ⟨hinv, fun hg => ⟨?_, fun n hop' => ?_⟩⟩
  · have hkey : ∀ j, (u.entry j).expires = (s.entry j).expires := by
      intro j
      by_cases hj : j = i
      · rw [hj, hself]
      · rw [hother j hj]
    show u.list.Pairwise fun j k => (u.entry j).expires ≤ (u.entry k).expires
    simp only [hkey, hlist]
    exact hg.sorted
  · show (s.asked ++ [_]).filter _ = (u.out.map Prod.fst).filter _ ++ u.waiting n hop'
    rw [filter_append, hg.account n hop', hout, append_assoc]
    congr 1
    obtain ⟨hip, hn⟩ := id hf
    by_cases hkey : n = netif ∧ hop' = hop
    · obtain ⟨rfl, rfl⟩ := hkey
      have hto : forHop n hop' ⟨p, n, (s.entry i).ipaddr⟩ = true := decide_eq_true ⟨rfl, hip⟩
      have hi' : i ∈ u.list := by
        rw [hlist]
        exact hi
      rw [waiting_of_mem h hi hf, waiting_of_mem hset hi' ((hfor i n hop').2 hf), hself, map_append,
        filter_cons_of_pos hto, hip]
      rfl
    · have hto : ¬ forHop n hop' ⟨p, netif, (s.entry i).ipaddr⟩ = true := fun hc => by
        have hc : netif = n ∧ (s.entry i).ipaddr = hop' := of_decide_eq_true hc
        exact hkey ⟨hc.1.symm, hc.2.symm.trans hip⟩
      rw [filter_cons_of_neg hto, filter_nil, append_nil]
      refine (waiting_same h hset (fun j => and_congr (by rw [hlist]) (hfor j n hop').symm) fun j _ hj => ?_).symm
      have hji : j ≠ i := by
        rintro rfl
        exact hkey (hj.eq hf)
      rw [hother j hji]

theorem output_spec (addr : IpAddr) (h : Inv s) (he : enabled s (.output netif p addr time new junk)) :
    ∃ t, arpEthOutput s netif p addr time new junk = .ok t ∧ Inv t ∧
      (Good s → Proper s (.output netif p addr time new junk) → Good t) ∧ Flow s (.output netif p addr time new junk) t := by
  have hemit : ∀ x, Inv (s.emit x) ∧ (Good s → Good (s.emit x)) :=
    fun x => ⟨⟨h.nodup, h.single, h.sorted⟩, fun hg => ⟨hg.sorted, hg.account⟩⟩
  unfold arpEthOutput
  cases hloop : (s.netif netif).loopback with
  | true => exact ⟨_, rfl, (hemit _).1, fun hg _ => (hemit _).2 hg, rfl, .inr ⟨rfl, 0, .inl rfl⟩⟩
  | false =>
  cases hown : s.isown addr with
  | true => exact ⟨_, rfl, (hemit _).1, fun hg _ => (hemit _).2 hg, rfl, .inr ⟨rfl, _, .inr rfl⟩⟩
  | false =>
  rcases @lookup_spec s new junk netif h he.1 addr with ⟨h0, hlook⟩ | ⟨h0, t, i, hlook, hfound, hgood⟩
  · rw [hlook]
    exact ⟨_, rfl, ⟨h.nodup, h.single, h.sorted⟩, fun _ hp => absurd h0 (hp hloop hown).1, rfl, .inl ⟨rfl, rfl⟩⟩
  · rw [hlook]
    dsimp only
    obtain ⟨-, -, hlog, hasked, hout⟩ := hfound.same
    by_cases hres : time < (t.entry i).expires
    · rw [if_pos hres]
      obtain ⟨hset, -⟩ := hfound.inv.set (i := i) (e := { t.entry i with used := (t.entry i).used + 1 }) rfl rfl rfl
      refine ⟨_, rfl, ⟨hset.nodup, hset.single, hset.sorted⟩, fun hg hp => ?_, hout, .inr ⟨hasked, (t.entry i).hwaddr, .inl ?_⟩⟩
      · have hg' : Good (t.set i { t.entry i with used := (t.entry i).used + 1 }) :=
          (hgood hg (hp hloop hown).2).set hfound.inv rfl rfl rfl rfl
        exact ⟨hg'.sorted, hg'.account⟩
      · show t.log ++ [_] = _
        rw [hlog]
    · have hp : p ∉ (t.entry i).pbufs := by
        rcases hfound.mem i hfound.here with hi | ⟨-, -, hnil, -⟩
        · rw [(hfound.old i hi).2]
          exact he.2 i hi
        · rw [hnil]
          exact not_mem_nil
      rw [if_neg hres, if_neg hp]
      obtain ⟨henq, hgenq⟩ := enqueue_spec hfound.inv hfound.here hfound.own p
      obtain ⟨hinv, hgq, -, hasked', hout', hlog', -⟩ := query_spec henq i time
      refine ⟨_, rfl, hinv, fun hg hp => hgq (hgenq (hgood hg (hp hloop hown).2)), hout'.trans hout, .inl ⟨?_, hlog'.trans hlog⟩⟩
      rw [hasked', ← hfound.own.1]
      rw [hasked]

/-! ## Runs -/

theorem step_spec {a : Act} (h : Inv s) (he : enabled s a) :
    ∃ t, step s a = .ok t ∧ Inv t ∧ (Good s → Proper s a → Good t) ∧ Flow s a t := by
  cases a with
  | output netif p addr time new junk => exact output_spec addr h he
  | input netif m time new junk => exact ⟨_, rfl, input_spec h he⟩
  | tick time =>
    have hs := sweep time s.list.reverse s h (nodup_reverse.2 h.nodup) fun i hi => mem_reverse.1 hi
    exact ⟨_, rfl, hs.inv, fun hg _ => hs.good hg, hs.asked, hs.log, hs.released⟩
  | config i f => exact ⟨_, rfl, ⟨h.nodup, h.single, h.sorted⟩, fun hg _ => ⟨hg.sorted, hg.account⟩, rfl, rfl, rfl⟩

theorem start_good (h : arp.start s) : Inv s ∧ Good s := by
  obtain ⟨hlist, -, hasked, hout⟩ := h
  have hno : ∀ i, i ∉ s.list := fun i hi => by
    rw [hlist] at hi
    cases hi
  refine ⟨⟨?_, fun i hi => absurd hi (hno i), ?_⟩, ?_, fun n hop => ?_⟩
  · rw [hlist]
    exact nodup_nil
  · rw [hlist]
    exact List.Pairwise.nil
  · unfold Sorted
    rw [hlist]
    exact List.Pairwise.nil
  · rw [hasked, hout, waiting_of_none fun i hi => absurd hi (hno i)]
    rfl

theorem steps_spec {a : Act} (h : Inv s) (hs : arp.Steps s a t) : Inv t ∧ (Good s → Proper s a → Good t) := by
  obtain ⟨u, hok, hinv, hgood, -⟩ := step_spec h hs.1
  cases hok.symm.trans hs.2
  exact ⟨hinv, hgood⟩

theorem reach_inv {P : Sys → Act → Prop} (h : arp.Reach P s) : Inv s :=
  h.inv (fun _ h0 => (start_good h0).1) fun _ _ _ hi _ hs => (steps_spec hi hs).1

/-- In every run there is one entry for each next hop, in the order of the keys as they are read, and packets
leave as `Flow` says; when every step is proper the entries are in order and every packet is accounted for. -/
theorem arp_cache (s : Sys) :
    (arp.Reach Machine.Any s → Inv s ∧ ∀ a, enabled s a → ∃ t, step s a = .ok t ∧ Flow s a t) ∧ (arp.Reach Proper s → Good s) := by
  constructor
  · intro h
    have hi := reach_inv h
    refine ⟨hi, fun a he => ?_⟩
    obtain ⟨t, hok, -, -, hflow⟩ := step_spec hi he
    exact ⟨t, hok, hflow⟩
  · intro h
    refine (h.inv (I := fun s => Inv s ∧ Good s) (fun s h0 => start_good h0) ?_).2
    rintro s a t ⟨hi, hg⟩ hp hs
    obtain ⟨hi', hg'⟩ := steps_spec hi hs
    exact ⟨hi', hg' hg hp⟩

instance (s : Sys) (a : Act) : Decidable (arp.enabled s a) := inferInstanceAs (Decidable (enabled s a))

def alone : Sys := ⟨[0], fun _ => ⟨1, 0x0a000001, 0xffffff00, 0, false⟩, fun _ => ⟨0, 0, 0, 0, 0, 0, [], 0⟩, [], [], [], []⟩

/-- A packet for another network is dropped on the floor. -/
theorem packet_lost : ¬ ∀ s, arp.Reach Machine.Any s → Good s := by
  have h : (arp.trace Machine.Any alone [.output 0 7 0x08080808 100 0 0]).map (fun s => (s.asked, s.out, s.list)) =
      some ([⟨7, 0, 0⟩], [], []) := by
    decide +kernel
  obtain ⟨s, hs, he⟩ := Option.map_eq_some_iff.1 h
  obtain ⟨hasked, he⟩ := Prod.mk.inj he
  obtain ⟨hout, hlist⟩ := Prod.mk.inj he
  intro hall
  have hacc := (hall s (Machine.trace_reach ⟨rfl, rfl, rfl, rfl⟩ hs)).account 0 0
  rw [hasked, hout, waiting_of_none fun i hi => by rw [hlist] at hi; cases hi] at hacc
  exact absurd hacc (by decide)

end Onix.Arp
