/-
In a forest of MINIX filesystems `named` and `namei` come to where the reference comes: one name at a time, and then by induction on the
names up to the last, which `named` knows by where it ends.
-/
import Onix.Walk.Reference

namespace Onix.Walk

open List Relation

variable {t : Tree} {x y dir inode : Node} {name next right rest c path : List Char} {s : Task} {n : Nat} {a : Char}

/-! ## Names -/

def Plain (c : List Char) : Prop := ∀ a ∈ c, isSeparator a = false

theorem matchName_plain : ∀ {c e : List Char} {n : Nat}, Plain c → Plain e → e.length < n → (∀ a l, rest = a :: l → isSeparator a = true) →
    matchName (c ++ rest) e n = if c = e then some rest.tail else none
  | [], [], _, _, _, _, hr => by
    cases rest with
    | nil => rfl
    | cons a l => simp [matchName, hr a l rfl]
  | [], b :: e, n, _, he, hn, hr => by
    have hn0 : n ≠ 0 := by omega
    cases rest with
    | nil => simp [matchName, hn0]
    | cons a l =>
      have hne : a ≠ b := by
        rintro rfl
        exact absurd (hr a l rfl) (by simp [he a (.head _)])
      simp [matchName, hne, hn0]
  | a :: c, [], _, hc, _, _, _ => by simp [matchName, hc a (.head _)]
  | a :: c, b :: e, 0, _, _, hn, _ => by simp at hn
  | a :: c, b :: e, n + 1, hc, he, hn, hr => by
    rw [cons_append, matchName]
    by_cases hab : a = b
    · have hlt : e.length < n := by simpa using hn
      have ih := matchName_plain (fun x hx => hc x (.tail _ hx)) (fun x hx => he x (.tail _ hx)) hlt hr
      rw [if_pos hab, ih]
      simp [hab]
    · simp [hab]

theorem strrsep_plain (h : Plain c) : strrsep c = none := by
  induction c with
  | nil => rfl
  | cons a c ih =>
    unfold strrsep
    rw [ih fun x hx => h x (.tail _ hx)]
    simp [h a (.head _)]

theorem strrsep_append {last : List Char} (h : strrsep rest = some last) : strrsep (c ++ a :: rest) = some last := by
  induction c with
  | nil =>
    rw [nil_append, strrsep, h]
  | cons b c ih => rw [cons_append, strrsep, ih]

theorem strrsep_here (ha : isSeparator a = true) (h : strrsep rest = none) : strrsep (c ++ a :: rest) = some (a :: rest) := by
  induction c with
  | nil =>
    rw [nil_append, strrsep, h]
    simp [ha]
  | cons b c ih => rw [cons_append, strrsep, ih]

theorem plain_or (name : List Char) : Plain name ∨ ∃ c a rest, name = c ++ a :: rest ∧ Plain c ∧ isSeparator a = true := by
  induction name with
  | nil => exact .inl (fun x hx => nomatch hx)
  | cons b name ih =>
    by_cases hb : isSeparator b = true
    · exact .inr ⟨[], b, name, rfl, (fun x hx => nomatch hx), hb⟩
    · have hplain : ∀ c, Plain c → Plain (b :: c) := by
        intro c hc x hx
        rcases mem_cons.1 hx with rfl | hx
        · exact Bool.not_eq_true _ ▸ hb
        · exact hc x hx
      rcases ih with h | ⟨c, a, rest, rfl, hc, ha⟩
      · exact .inl (hplain name h)
      · exact .inr ⟨b :: c, a, rest, rfl, hplain c hc, ha⟩

theorem strrsep_some (h : ¬ Plain name) : ∃ last, strrsep name = some last := by
  obtain ⟨c, a, rest, rfl, -, ha⟩ := (plain_or name).resolve_left h
  cases hs : strrsep rest with
  | none => exact ⟨_, strrsep_here ha hs⟩
  | some last => exact ⟨_, strrsep_append hs⟩

theorem path_induction {P : List Char → Prop} (one : ∀ name, Plain name → P name)
    (more : ∀ c a rest, Plain c → isSeparator a = true → P rest → P (c ++ a :: rest)) (name : List Char) : P name := by
  induction h : name.length using Nat.strongRecOn generalizing name with
  | ind k ih =>
    rcases plain_or name with hn | ⟨c, a, rest, rfl, hc, ha⟩
    · exact one name hn
    · refine more c a rest hc ha (ih rest.length ?_ rest rfl)
      rw [← h, length_append, length_cons]
      omega

theorem components_plain (h : Plain name) (hne : name ≠ []) : components name = [name] := by
  unfold components
  rw [if_neg hne, splitOnP_eq_singleton h]

theorem components_append (hc : Plain c) (ha : isSeparator a = true) (hne : rest ≠ []) :
    components (c ++ a :: rest) = c :: components rest := by
  unfold components
  rw [if_neg (by simp), if_neg hne, splitOnP_append_cons_of_forall_mem hc a ha]

theorem components_ne_nil (hne : name ≠ []) : components name ≠ [] := by
  unfold components
  rw [if_neg hne]
  exact splitOnP_ne_nil _ _

theorem rest_ne_nil (hc : Plain c) (ha : isSeparator a = true) (h : ∀ x ∈ components (c ++ a :: rest), x ≠ []) : rest ≠ [] := by
  rintro rfl
  refine h [] ?_ rfl
  unfold components
  rw [if_neg (by simp), splitOnP_append_cons_of_forall_mem hc a ha, splitOnP_nil]
  exact .tail _ (mem_singleton_self _)

theorem strrsep_last {last : List Char} (hp : ∀ x ∈ components name, x ≠ []) (h : strrsep name = some last) :
    last.tail = (components name).getLastD [] := by
  induction name using path_induction with
  | one name hn =>
    rw [strrsep_plain hn] at h
    cases h
  | more c a rest hc ha ih =>
    have hrest := rest_ne_nil hc ha hp
    rw [components_append hc ha hrest] at hp ⊢
    have hlast : (c :: components rest).getLastD [] = (components rest).getLastD [] := by
      cases hcs : components rest with
      | nil => exact absurd hcs (components_ne_nil hrest)
      | cons y l => rfl
    rw [hlast]
    cases hs : strrsep rest with
    | some l =>
      rw [strrsep_append hs] at h
      cases h
      exact ih (fun x hx => hp x (.tail _ hx)) hs
    | none =>
      rw [strrsep_here ha hs] at h
      cases h
      have hr : Plain rest := by
        by_contra hr
        obtain ⟨l, hl⟩ := strrsep_some hr
        rw [hs] at hl
        cases hl
      rw [components_plain hr hrest]
      rfl

theorem mem_components : ∀ x ∈ components name, Plain x := by
  induction name using path_induction with
  | one name hn =>
    intro x hx
    by_cases hne : name = []
    · rw [hne] at hx
      cases hx
    · rw [components_plain hn hne] at hx
      rwa [mem_singleton.1 hx]
  | more c a rest hc ha ih =>
    intro x hx
    by_cases hne : rest = []
    · unfold components at hx
      rw [hne, if_neg (by simp), splitOnP_append_cons_of_forall_mem hc a ha, splitOnP_nil] at hx
      rcases mem_cons.1 hx with rfl | hx
      · exact hc
      · rw [mem_singleton.1 hx]
        exact fun b hb => nomatch hb
    · rw [components_append hc ha hne] at hx
      rcases mem_cons.1 hx with rfl | hx
      · exact hc
      · exact ih x hx

theorem strrsep_shorter {last : List Char} (h : strrsep name = some last) : last.tail.length < name.length := by
  induction name with
  | nil => cases h
  | cons b name ih =>
    unfold strrsep at h
    split at h
    · cases h
      exact Nat.lt_succ_of_lt (ih ‹_›)
    · split at h
      · cases h
        exact Nat.lt_succ_self _
      · cases h

/-! ## One component -/

variable (F : Forest t) {root : Node}
include F

namespace Forest

theorem entries_plain (hx : t.isDir x = true) : ∀ e ∈ t.entries x, Plain e.name ∧ e.name.length < MINIX1_NAME_LEN := by
  obtain ⟨l, hl, -⟩ := F.dots x hx
  have hnames := F.names x hx
  rw [hl] at hnames ⊢
  rw [F.minix]
  intro e he
  rcases mem_cons.1 he with rfl | he
  · exact ⟨by simp [Plain, selfName, isSeparator], by simp [selfName, MINIX1_NAME_LEN]⟩
  · rcases mem_cons.1 he with rfl | he
    · exact ⟨by simp [Plain, parentName, isSeparator], by simp [parentName, MINIX1_NAME_LEN]⟩
    · obtain ⟨h1, h2⟩ := hnames e he
      exact ⟨h2, Nat.lt_succ_of_le h1⟩

theorem find_plain (hx : t.isDir x = true) (hc : Plain c) (hr : ∀ a l, rest = a :: l → isSeparator a = true) :
    t.find x (c ++ rest) = ((t.entries x).find? fun e => e.name = c ∧ e.nr ≠ 0).map fun e => (e, rest.tail) := by
  have hall := F.entries_plain hx
  unfold Tree.find
  rw [F.minix]
  generalize t.entries x = l at hall
  induction l with
  | nil => rfl
  | cons e l ih =>
    obtain ⟨h1, h2⟩ := hall e (.head _)
    have ih := ih fun e he => hall e (.tail _ he)
    rw [findSome?_cons, find?_cons, Entry.matched, matchName_plain hc h1 h2 hr]
    by_cases he : c = e.name
    · by_cases hn : e.nr = 0
      · simpa [he, hn] using ih
      · simp [he, hn]
        rfl
    · have he' : ¬ e.name = c := fun h => he h.symm
      simpa [he, he'] using ih

omit F in
theorem dotDot_plain (hc : Plain c) (hr : ∀ a l, rest = a :: l → isSeparator a = true) : DotDot (c ++ rest) ↔ c = ['.', '.'] := by
  unfold DotDot
  rw [matchName_plain hc (by simp [Plain, isSeparator]) (by decide) hr]
  split
  · simp [*]
  · simp [*]

theorem imount_above (hb : t.Below F.top x) (hx : t.isDir x = true) (hroot : x = t.iroot x.dev) :
    t.isDir (t.imount x.dev) = true ∧ (t.imount x.dev = F.top ∨ t.imount x.dev ≠ t.iroot (t.imount x.dev).dev) := by
  have habove : F.above x = t.imount x.dev := if_pos hroot
  rcases ReflTransGen.cases_tail hb with heq | ⟨z, -, hz⟩
  · rw [heq, F.topMount]
    exact ⟨F.topDir, .inl rfl⟩
  · have hzx := (F.edge_above hz hx).1
    rw [habove] at hzx
    rw [hzx]
    refine ⟨F.edge_isDir hz, ?_⟩
    rcases hz with ⟨hzd, e, he, rfl⟩ | ⟨d, hd, -, -⟩
    · exact absurd hroot (F.child z hzd e he hx).2.1
    · obtain ⟨-, -, -, h4⟩ := F.mounted z d hd
      rcases h4 with ⟨h5, -⟩ | ⟨h5, -⟩
      · exact .inl h5
      · exact .inr h5

theorem up_above (hx : t.isDir x = true) (h : x = F.top ∨ x ≠ t.iroot x.dev) : (⟨x.dev, F.up x⟩ : Node) = F.above x := by
  rcases h with rfl | h
  · rw [F.above_top, F.root _ hx F.topRoot.symm]
  · exact (if_neg h).symm

theorem find_self (hx : t.isDir x = true) :
    ((t.entries x).find? fun e => e.name = ['.'] ∧ e.nr ≠ 0) = some ⟨['.'], x.nr⟩ := by
  obtain ⟨l, hl, -⟩ := F.dots x hx
  have hn := (F.numbers x hx).1
  rw [hl, F.minix]
  simp [selfName, hn]

theorem find_parent (hx : t.isDir x = true) :
    ((t.entries x).find? fun e => e.name = ['.', '.'] ∧ e.nr ≠ 0) = some ⟨['.', '.'], F.up x⟩ := by
  obtain ⟨l, hl, -⟩ := F.dots x hx
  have hn := (F.numbers x hx).2
  rw [hl, F.minix]
  simp [selfName, parentName, hn]

theorem find_child (hx : t.isDir x = true) (h1 : c ≠ ['.']) (h2 : c ≠ ['.', '.']) :
    ((t.entries x).find? fun e => e.name = c ∧ e.nr ≠ 0) = ((t.entries x).drop 2).find? fun e => e.name = c ∧ e.nr ≠ 0 := by
  obtain ⟨l, hl, -⟩ := F.dots x hx
  rw [hl, F.minix]
  simp [selfName, parentName, Ne.symm h1, Ne.symm h2]

theorem opNamei_component (hb : t.Below F.top dir) (hx : t.isDir dir = true) (hc : Plain c)
    (hr : ∀ a l, rest = a :: l → isSeparator a = true) (hroot : c = ['.', '.'] → dir ≠ root) :
    t.opNamei (t.turn dir (c ++ rest)) (c ++ rest) = (F.component root dir c).map fun y => (y, rest.tail) := by
  have hdd := dotDot_plain hc hr
  by_cases h2 : c = ['.', '.']
  · -- the parent, from the mount point at the root of a filesystem
    have hcomp : F.component root dir c = some (t.fit (F.parent dir)) := by
      unfold Hierarchy.component
      rw [if_neg (by simp [h2]), if_pos h2, if_neg (hroot h2)]
    have hup : t.isDir (t.turn dir (c ++ rest)) = true ∧
        (⟨(t.turn dir (c ++ rest)).dev, F.up (t.turn dir (c ++ rest))⟩ : Node) = F.parent dir := by
      unfold Hierarchy.parent
      by_cases hd : dir = t.iroot dir.dev
      · have hturn : t.turn dir (c ++ rest) = t.imount dir.dev := if_pos (leaves_iff.2 ⟨hdd.2 h2, hd⟩)
        obtain ⟨h3, h4⟩ := F.imount_above hb hx hd
        rw [hturn, if_pos hd]
        exact ⟨h3, F.up_above h3 h4⟩
      · have hturn : t.turn dir (c ++ rest) = dir := turn_stays fun hl => hd (leaves_iff.1 hl).2
        rw [hturn, if_neg hd]
        exact ⟨hx, F.up_above hx (.inr hd)⟩
    have hfind := F.find_plain hup.1 hc hr
    unfold Tree.opNamei
    rw [hfind, hcomp, h2, F.find_parent (h2 ▸ hup.1)]
    rw [h2] at hup
    simp only [Option.map_some]
    rw [hup.2]
  · have hturn : t.turn dir (c ++ rest) = dir := turn_stays fun hl => h2 (hdd.1 (leaves_iff.1 hl).1)
    rw [hturn]
    unfold Tree.opNamei Hierarchy.component
    rw [F.find_plain hx hc hr]
    by_cases h1 : c = ['.']
    · rw [if_pos h1, h1, F.find_self hx]
      rfl
    · rw [if_neg h1, if_neg h2, F.find_child hx h1 h2, Option.map_map, Option.map_map]
      rfl

/-! ## The names up to the last -/

theorem walk_inner : ∀ {n : Nat} {dir : Node} {name : List Char}, t.Below F.top dir → t.isDir dir = true → name.length < n →
    (∀ x ∈ components name, x ≠ []) → ¬ Plain name → right = (components name).getLastD [] → F.NoneAtRoot root dir (components name) →
    (t.walk right n dir name).2 = (F.inner root dir (components name).dropLast).map fun y => (y, right)
  | 0, _, _, _, _, hn, _, _, _, _ => absurd hn (Nat.not_lt_zero _)
  | n + 1, dir, name, hb, hx, hn, hp, hplain, hright, hno => by
    obtain ⟨c, a, rest, rfl, hc, ha⟩ := (plain_or name).resolve_left hplain
    have hrest := rest_ne_nil hc ha hp
    have hcomps := components_ne_nil hrest
    rw [components_append hc ha hrest] at hp hright hno ⊢
    obtain ⟨hroot, hno⟩ := hno
    rw [dropLast_cons_of_ne_nil hcomps, Hierarchy.inner]
    have hlast : right = (components rest).getLastD [] := by
      rw [hright]
      cases h : components rest with
      | nil => exact absurd h hcomps
      | cons y l => rfl
    have hsep : ∀ b l, a :: rest = b :: l → isSeparator b = true := by
      rintro b l h
      obtain ⟨rfl, -⟩ := cons.inj h
      exact ha
    have hstep := F.opNamei_component hb hx hc hsep hroot
    unfold Tree.walk
    dsimp only
    rw [hstep]
    cases hy : F.component root dir c with
    | none => rfl
    | some y =>
      rw [Option.map_some]
      dsimp only
      by_cases hgo : t.isDir y = true ∧ t.exec y = true
      · have hyb : t.Below F.top y := F.opNamei_below .refl hb hx (.inl rfl) (by rw [hstep, hy]; rfl)
        have hstop : ¬ (!t.isDir y || !t.exec y) = true := by simp [hgo.1, hgo.2]
        have hinner : (t.isDir y && t.exec y) = true := by simp [hgo.1, hgo.2]
        have hlen : rest.length < n := by
          rw [length_append, length_cons] at hn
          omega
        rw [if_neg hstop, if_pos hinner]
        by_cases hr : Plain rest
        · -- the last component is next
          rw [components_plain hr hrest] at hlast ⊢
          obtain rfl : right = rest := hlast
          exact congrArg Prod.snd (if_pos rfl)
        · have hrp : ∀ x ∈ components rest, x ≠ [] := fun x hx => hp x (.tail _ hx)
          obtain ⟨last, hl⟩ := strrsep_some hr
          have hne : ¬ rest.length = right.length := by
            have := strrsep_shorter hl
            rw [hlast, ← strrsep_last hrp hl]
            omega
          refine (congrArg Prod.snd (if_neg hne)).trans ?_
          exact walk_inner hyb hgo.1 hlen hrp hr hlast (hno y hy hgo.1 hgo.2)
      · have hstop : (!t.isDir y || !t.exec y) = true := by
          by_contra h
          apply hgo
          simpa using h
        have hinner : ¬ (t.isDir y && t.exec y) = true := by simpa using hgo
        rw [if_pos hstop, if_neg hinner]
        rfl

/-! ## Paths -/

omit F in
theorem origin_body {p : Node × List Char} (h : s.origin path = some p) : p.2 = body path := by
  unfold Task.origin at h
  unfold body
  cases path with
  | nil => cases h
  | cons c name =>
    dsimp only at h ⊢
    split at h <;> cases h
    · rw [if_pos ‹_›]
    · rw [if_neg ‹_›]

omit F in
theorem start_below {R : Node} (ho : s.origin path = some (x, name)) (hroot : t.Below R s.iroot ∧ t.isDir s.iroot = true)
    (hpwd : t.Below R s.ipwd ∧ t.isDir s.ipwd = true) : t.Below R x ∧ t.isDir x = true := by
  rcases Hierarchy.origin_mem ho with rfl | rfl
  · exact hroot
  · exact hpwd

theorem named_parentOf (hroot : t.Below F.top s.iroot ∧ t.isDir s.iroot = true) (hpwd : t.Below F.top s.ipwd ∧ t.isDir s.ipwd = true)
    (hp : Proper path) (hno : F.Inside s path) : (t.named s path).2 = F.parentOf s path := by
  unfold Tree.named Hierarchy.parentOf
  cases ho : s.origin path with
  | none => rfl
  | some p =>
    obtain ⟨dir, name⟩ := p
    have hbody : name = body path := origin_body ho
    have hstart := start_below ho hroot hpwd
    have hp : ∀ x ∈ components name, x ≠ [] := hbody ▸ hp
    dsimp only
    by_cases hplain : Plain name
    · rw [strrsep_plain hplain]
      by_cases hne : name = []
      · rw [hne]
        rfl
      · rw [components_plain hplain hne]
        rfl
    · obtain ⟨last, hl⟩ := strrsep_some hplain
      have hlast := strrsep_last hp hl
      rw [hl]
      rw [F.walk_inner hstart.1 hstart.2 (Nat.lt_succ_self _) hp hplain hlast (hno dir name ho), hlast]

theorem component_below (hb : t.Below F.top x) (hx : t.isDir x = true) (hc : Plain c) (hroot : c = ['.', '.'] → x ≠ root)
    (h : F.component root x c = some y) : t.Below F.top y := by
  have hstep := F.opNamei_component hb hx hc (fun a l (hl : [] = a :: l) => nomatch hl) hroot
  rw [h, append_nil] at hstep
  exact F.opNamei_below .refl hb hx (.inl rfl) hstep

theorem inner_below : ∀ {cs : List (List Char)} {x : Node}, t.Below F.top x → t.isDir x = true → (∀ d ∈ cs, Plain d) →
    F.NoneAtRoot root x (cs ++ [c]) → F.inner root x cs = some y → t.Below F.top y ∧ t.isDir y = true ∧ (c = ['.', '.'] → y ≠ root)
  | [], x, hb, hx, _, hno, h => by
    cases h
    exact ⟨hb, hx, hno.1⟩
  | d :: cs, x, hb, hx, hcs, hno, h => by
    obtain ⟨hroot, hno⟩ := hno
    unfold Hierarchy.inner at h
    split at h
    · cases h
    · rename_i z hz
      split at h
      · rename_i hgo
        rw [Bool.and_eq_true] at hgo
        have hzb := F.component_below hb hx (hcs d (.head _)) hroot hz
        exact inner_below hzb hgo.1 (fun e he => hcs e (.tail _ he)) (hno z hz hgo.1 hgo.2) h
      · cases h

theorem parentOf_below (hroot : t.Below F.top s.iroot ∧ t.isDir s.iroot = true) (hpwd : t.Below F.top s.ipwd ∧ t.isDir s.ipwd = true)
    (hno : F.Inside s path) (h : F.parentOf s path = some (y, c)) :
    t.Below F.top y ∧ t.isDir y = true ∧ Plain c ∧ (c = ['.', '.'] → y ≠ s.iroot) := by
  unfold Hierarchy.parentOf at h
  split at h
  · cases h
  · rename_i x name ho
    obtain ⟨z, hz, h⟩ := Option.map_eq_some_iff.1 h
    cases h
    obtain ⟨hxb, hx⟩ := start_below ho hroot hpwd
    have hno := hno x name ho
    have hplain : ∀ d ∈ components name, Plain d := mem_components
    rcases eq_nil_or_concat (components name) with hcs | ⟨cs, d, hcs⟩
    · rw [hcs] at hz ⊢
      cases hz
      exact ⟨hxb, hx, (fun a ha => nomatch ha), fun he => nomatch he⟩
    · rw [hcs, concat_eq_append] at hz hno hplain ⊢
      rw [dropLast_concat] at hz
      rw [getLastD_concat]
      obtain ⟨h1, h2, h3⟩ := F.inner_below hxb hx (fun e he => hplain e (mem_append_left _ he)) hno hz
      exact ⟨h1, h2, hplain d (mem_append_right _ (mem_singleton_self _)), h3⟩

theorem last_component (hb : t.Below F.top y) (hy : t.isDir y = true) (hc : Plain c) (hroot : c = ['.', '.'] → y ≠ root) (l : List Node) :
    (t.last (l, some (y, c))).2 = if c = [] then some y else F.component root y c := by
  have hstep := F.opNamei_component hb hy hc (fun a l (hl : [] = a :: l) => nomatch hl) hroot
  rw [append_nil] at hstep
  unfold Tree.last
  dsimp only
  by_cases hne : c = []
  · rw [if_pos hne, if_pos hne]
  · rw [if_neg hne, if_neg hne, hstep]
    cases hz : F.component root y c with
    | some z => rfl
    | none =>
      -- `..` leads somewhere
      have hdd : c ≠ ['.', '.'] := by
        rintro rfl
        unfold Hierarchy.component at hz
        simp at hz
      have hleaves : t.leaves y c = false := by
        rw [← Bool.not_eq_true, leaves_iff]
        rintro ⟨hd, -⟩
        apply hdd
        rw [← append_nil c] at hd
        exact (dotDot_plain hc fun a l (hl : [] = a :: l) => nomatch hl).1 hd
      simp [hleaves]

/-- `named` returns the parent of what the path names and the last component, and `namei` what the path names; both return `NULL` when the
reference comes to nothing. -/
theorem namei_resolve (hroot : t.Below F.top s.iroot ∧ t.isDir s.iroot = true) (hpwd : t.Below F.top s.ipwd ∧ t.isDir s.ipwd = true)
    (hp : Proper path) (hno : F.Inside s path) : (t.named s path).2 = F.parentOf s path ∧ (t.namei s path).2 = F.resolve s path := by
  have hnamed := F.named_parentOf hroot hpwd hp hno
  refine ⟨hnamed, ?_⟩
  unfold Tree.namei Hierarchy.resolve
  rw [← hnamed]
  cases hr : t.named s path with
  | mk l r =>
    cases r with
    | none => rfl
    | some p =>
      rw [hr] at hnamed
      obtain ⟨h1, h2, h3, h4⟩ := F.parentOf_below hroot hpwd hno hnamed.symm
      exact F.last_component h1 h2 h3 h4 l

end Forest

/-! ## A small forest -/

omit F

/-- A disk with the directories `/a` and `/m`, and another on `/m`, with a directory `c`. -/
def joined : Tree where
  fs _ := .minix
  entries
    | ⟨1, 1⟩ => [⟨['.'], 1⟩, ⟨['.', '.'], 1⟩, ⟨['a'], 2⟩, ⟨['m'], 3⟩]
    | ⟨1, 2⟩ => [⟨['.'], 2⟩, ⟨['.', '.'], 1⟩]
    | ⟨1, 3⟩ => [⟨['.'], 3⟩, ⟨['.', '.'], 1⟩]
    | ⟨2, 1⟩ => [⟨['.'], 1⟩, ⟨['.', '.'], 1⟩, ⟨['c'], 2⟩]
    | ⟨2, 2⟩ => [⟨['.'], 2⟩, ⟨['.', '.'], 1⟩]
    | _ => []
  isDir x := x ∈ ([⟨1, 1⟩, ⟨1, 2⟩, ⟨1, 3⟩, ⟨2, 1⟩, ⟨2, 2⟩] : List Node)
  exec _ := true
  mount x := if x = ⟨1, 1⟩ then some 1 else if x = ⟨1, 3⟩ then some 2 else none
  iroot dev := ⟨dev, 1⟩
  imount dev := if dev = 2 then ⟨1, 3⟩ else ⟨1, 1⟩

theorem joined_cases (h : joined.isDir x = true) : x = ⟨1, 1⟩ ∨ x = ⟨1, 2⟩ ∨ x = ⟨1, 3⟩ ∨ x = ⟨2, 1⟩ ∨ x = ⟨2, 2⟩ := by
  simpa [joined] using h

def joinedForest : Forest joined where
  top := ⟨1, 1⟩
  up _ := 1
  depth x := if x = ⟨1, 1⟩ then 0 else if x = ⟨1, 2⟩ ∨ x = ⟨1, 3⟩ then 1 else if x = ⟨2, 1⟩ then 2 else 3
  dots x hx := by
    rcases joined_cases hx with rfl | rfl | rfl | rfl | rfl <;> exact ⟨_, rfl, by simp [Named, joined]⟩
  numbers x hx := by
    rcases joined_cases hx with rfl | rfl | rfl | rfl | rfl <;> decide
  child x hx e he hd := by
    rcases joined_cases hx with rfl | rfl | rfl | rfl | rfl
    · have he : e = ⟨['a'], 2⟩ ∨ e = ⟨['m'], 3⟩ := by simpa [joined] using he
      rcases he with rfl | rfl <;> decide
    · exact nomatch he
    · exact nomatch he
    · obtain rfl : e = ⟨['c'], 2⟩ := by simpa [joined] using he
      decide
    · exact nomatch he
  root x hx h := by
    rcases joined_cases hx with rfl | rfl | rfl | rfl | rfl <;> first | rfl | (revert h; decide)
  topDir := by decide
  topRoot := rfl
  topMount := rfl
  mounted x d h := by
    unfold joined at h
    dsimp only at h
    split at h
    · rename_i hx
      cases h
      subst hx
      decide
    · split at h
      · rename_i hx
        cases h
        subst hx
        decide
      · cases h
  minix _ := rfl
  names x hx := by
    rcases joined_cases hx with rfl | rfl | rfl | rfl | rfl <;> simp [joined, isSeparator]

theorem joined_below : joined.Below joinedForest.top ⟨2, 1⟩ :=
  .tail (.single (.inl ⟨by decide, ⟨['m'], 3⟩, by decide, rfl⟩)) (.inr ⟨2, by decide, by decide, rfl⟩)

/-- From the root of the second disk up to the first, and down to the second again. -/
theorem namei_resolve_joined : Proper ['.', '.', '/', 'm', '/', 'c'] ∧
    (joined.named ⟨⟨1, 1⟩, ⟨2, 1⟩⟩ ['.', '.', '/', 'm', '/', 'c']).2 = some (⟨2, 1⟩, ['c']) ∧
    (joined.namei ⟨⟨1, 1⟩, ⟨2, 1⟩⟩ ['.', '.', '/', 'm', '/', 'c']).2 = some ⟨2, 2⟩ := by
  have hinside : joinedForest.Inside ⟨⟨1, 1⟩, ⟨2, 1⟩⟩ ['.', '.', '/', 'm', '/', 'c'] := by
    rintro x name h
    cases h
    refine ⟨by decide, fun y hy _ _ => ⟨fun h => absurd h (by decide), fun z hz _ _ => ⟨fun h => absurd h (by decide), ?_⟩⟩⟩
    exact fun _ _ _ _ => trivial
  have hroot : joined.Below joinedForest.top ⟨1, 1⟩ ∧ joined.isDir ⟨1, 1⟩ = true := ⟨.refl, by decide⟩
  obtain ⟨h1, h2⟩ := joinedForest.namei_resolve hroot ⟨joined_below, by decide⟩ (by decide) hinside
  refine ⟨by decide, h1.trans ?_, h2.trans ?_⟩
  · decide +kernel
  · decide +kernel

end Onix.Walk
