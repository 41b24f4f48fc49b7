/-
One name of a path in a directory of a tree that is in order: which entry it finds, and where it leads.
-/
import Onix.Walk.Hierarchy

namespace Onix.Walk

open Option List Relation

variable {t : Tree} {x y z R dir inode : Node} {name next : List Char} {e : Entry} {n : Nat}

/-! ## Names -/

def DotDot (name : List Char) : Prop := (matchName name ['.', '.'] 3).isSome = true

instance (name : List Char) : Decidable (DotDot name) := inferInstanceAs (Decidable (_ = true))

theorem matchName_nil (l : List Char) (n m : Nat) : matchName l [] n = matchName l [] m := by
  cases l <;> simp [matchName]

theorem matchName_dotdot (name : List Char) (n : Nat) : matchName name ['.', '.'] (n + 2) = matchName name ['.', '.'] 3 := by
  match name with
  | [] => simp [matchName]
  | [a] => simp [matchName]
  | a :: b :: l => simp [matchName, matchName_nil l n 1]

theorem dotdot_cases (h : DotDot name) : ∃ tail, name = '.' :: '.' :: tail ∧ ∀ c l, tail = c :: l → isSeparator c = true := by
  unfold DotDot at h
  match name with
  | [] => simp [matchName] at h
  | [a] => simp [matchName] at h
  | a :: b :: tail =>
    simp only [matchName] at h
    by_cases ha : a = '.'
    · by_cases hb : b = '.'
      · refine ⟨tail, by rw [ha, hb], ?_⟩
        rintro c l rfl
        by_contra hc
        simp [ha, hb, matchName, hc] at h
      · simp [ha, hb] at h
    · simp [ha] at h

theorem matchName_shorter : ∀ {name e : List Char} {n : Nat}, matchName name e n = some next →
    next.length ≤ name.length ∧ (name ≠ [] → next.length < name.length)
  | [], [], _, h => by
    cases h
    exact ⟨Nat.le_refl _, fun hne => absurd rfl hne⟩
  | [], _ :: _, _, h => by
    unfold matchName at h
    split at h
    · cases h
      exact ⟨Nat.le_refl _, fun hne => absurd rfl hne⟩
    · cases h
  | a :: l, [], _, h => by
    unfold matchName at h
    split at h
    · cases h
      exact ⟨Nat.le_succ _, fun _ => Nat.lt_succ_self _⟩
    · cases h
  | a :: l, b :: r, n, h => by
    unfold matchName at h
    split at h
    · split at h
      · cases h
      · have := (matchName_shorter h).1
        exact ⟨Nat.le_succ_of_le this, fun _ => Nat.lt_succ_of_le this⟩
    · split at h
      · cases h
      · split at h
        · cases h
          exact ⟨Nat.le_succ _, fun _ => Nat.lt_succ_self _⟩
        · cases h

theorem namelen_le : ∀ name : List Char, (namelen name).1 ≤ name.length ∧ (namelen name).2.length ≤ name.length ∧
    (name ≠ [] → (namelen name).2.length < name.length)
  | [] => ⟨Nat.le_refl _, Nat.le_refl _, fun h => absurd rfl h⟩
  | c :: l => by
    obtain ⟨h1, h2, -⟩ := namelen_le l
    unfold namelen
    split
    · exact ⟨Nat.zero_le _, Nat.le_succ _, fun _ => Nat.lt_succ_self _⟩
    · exact ⟨Nat.succ_le_succ h1, Nat.le_succ_of_le h2, fun _ => Nat.lt_succ_of_le h2⟩

theorem namelen_dotdot (h : DotDot name) : (namelen name).1 = 2 ∧ name.take 2 = ['.', '.'] := by
  obtain ⟨tail, rfl, ht⟩ := dotdot_cases h
  refine ⟨?_, rfl⟩
  cases tail with
  | nil => rfl
  | cons c l =>
    have hc := ht c l rfl
    have h1 : isSeparator '.' = false := rfl
    simp [namelen, hc, h1]

theorem matched_shorter {fs : FsType} (h : e.matched name fs = some next) : name ≠ [] → next.length < name.length := by
  cases fs with
  | minix =>
    exact (matchName_shorter (filter_eq_some_iff.1 h).1).2
  | iso9660 =>
    unfold Entry.matched at h
    dsimp only at h
    split at h
    · cases h
      exact (namelen_le name).2.2
    · cases h

/-! ## The entries of a directory -/

def Asks (fs : FsType) (name : List Char) : Prop := DotDot name ∨ fs = .iso9660 ∧ name.take (namelen name).1 = ['\x01']

theorem toUpper_one {c : Char} (h : c.toUpper = '\x01') : c = '\x01' := by
  unfold Char.toUpper at h
  split at h
  · rename_i hc
    have hv := congrArg (fun d : Char => d.val.toNat) h
    have h97 : 97 ≤ c.val.toNat := UInt32.le_iff_toNat_le.1 hc.1
    have h122 : c.val.toNat ≤ 122 := UInt32.le_iff_toNat_le.1 hc.2
    have he : ('A'.val - 'a'.val).toNat = 2 ^ 32 - 32 := by decide
    have h1 : ('\x01' : Char).val.toNat = 1 := by decide
    simp only [UInt32.toNat_add, he, h1] at hv
    omega
  · exact h

theorem isoMatchName_dotdot (h : DotDot name) {b : List Char} (h1 : b ≠ ['\x01']) (h2 : isoNamelen b = 2 → b.take 2 ≠ ['.', '.']) :
    isoMatchName name (namelen name).1 b = false := by
  obtain ⟨hlen, htake⟩ := namelen_dotdot h
  obtain ⟨tail, rfl, -⟩ := dotdot_cases h
  have hdot : matchName ('.' :: '.' :: tail) ['.'] 2 = none := by simp [matchName, isSeparator]
  unfold isoMatchName
  rw [hdot, if_neg (by simp), if_neg (fun hc => h1 hc.1), hlen]
  by_cases h3 : isoNamelen b = 2
  · rw [if_neg (by omega), htake]
    have := h2 h3
    simpa using fun he => this he.symm
  · rw [if_pos (Ne.symm h3)]

theorem isoMatchName_one (h : name.take (namelen name).1 = ['\x01']) (b : List Char) :
    isoMatchName name (namelen name).1 b = true ↔ isoNamelen b = 1 ∧ b.take 1 = ['\x01'] := by
  have hlen : (namelen name).1 = 1 := by
    have h1 := congrArg length h
    have h2 := (namelen_le name).1
    simp at h1
    omega
  rw [hlen] at h ⊢
  obtain ⟨l, rfl⟩ : ∃ l, name = '\x01' :: l := by
    cases name with
    | nil => cases h
    | cons c l =>
      exact ⟨l, by rw [(cons.inj h).1]⟩
  have h1 : matchName ('\x01' :: l) ['.'] 2 = none := by simp [matchName]
  have h2 : matchName ('\x01' :: l) ['.', '.'] 3 = none := by simp [matchName]
  have h3 : (('\x01' :: l).take 1).map Char.toUpper = ['\x01'] := rfl
  unfold isoMatchName
  rw [h1, h2, if_neg (by simp), if_neg (by simp), h3]
  by_cases hb : isoNamelen b = 1
  · rw [if_neg (by omega), beq_iff_eq]
    exact ⟨fun he => ⟨hb, he.symm⟩, fun he => he.2.symm⟩
  · rw [if_pos (Ne.symm hb)]
    exact ⟨(fun he => nomatch he), fun he => absurd he.1 hb⟩

theorem self_unasked {fs : FsType} {nr : Nat} (h : Asks fs name) : (⟨selfName fs, nr⟩ : Entry).matched name fs = none := by
  cases fs with
  | minix =>
    rcases h with h | ⟨h, -⟩
    · obtain ⟨tail, rfl, -⟩ := dotdot_cases h
      simp [Entry.matched, selfName, matchName, isSeparator, MINIX1_NAME_LEN]
    · cases h
  | iso9660 =>
    have hno : isoMatchName name (namelen name).1 ['\x00'] = false := by
      rcases h with h | ⟨-, h⟩
      · exact isoMatchName_dotdot h (by decide) (by decide)
      · rw [← Bool.not_eq_true, isoMatchName_one h]
        decide
    unfold Entry.matched selfName
    rw [hno]
    rfl

theorem parent_asked {fs : FsType} {nr : Nat} (hnr : nr ≠ 0) :
    ((⟨parentName fs, nr⟩ : Entry).matched name fs).isSome = true ↔ Asks fs name := by
  cases fs with
  | minix =>
    have h14 : MINIX1_NAME_LEN = 12 + 2 := rfl
    unfold Entry.matched parentName Asks DotDot
    rw [h14, matchName_dotdot]
    simp [hnr]
  | iso9660 =>
    have hiff : isoMatchName name (namelen name).1 ['\x01'] = true ↔ Asks .iso9660 name := by
      constructor
      · intro h
        by_cases hd : DotDot name
        · exact .inl hd
        · right
          refine ⟨rfl, ?_⟩
          unfold isoMatchName at h
          rw [if_neg (by simp), if_neg (fun hc => hd hc.2)] at h
          split at h
          · cases h
          · rename_i h1
            obtain h1 : (namelen name).1 = 1 := not_not.1 h1
            rw [h1] at h ⊢
            cases name with
            | nil => cases h1
            | cons c l =>
              have hc : c.toUpper = '\x01' := by simpa using h
              rw [toUpper_one hc]
              rfl
      · rintro (h | ⟨-, h⟩)
        · unfold isoMatchName
          rw [if_neg (by simp), if_pos ⟨rfl, h⟩]
        · rw [isoMatchName_one h]
          decide
    rw [← hiff]
    unfold Entry.matched parentName
    dsimp only
    split
    · rename_i h
      exact ⟨fun _ => h, fun _ => rfl⟩
    · rename_i h
      exact ⟨(fun hn => nomatch hn), fun hn => absurd hn h⟩

/-! ## What a directory is found to hold -/

theorem Hierarchy.find_cases (H : Hierarchy t) (hx : t.isDir x = true) (h : t.find x name = some (e, next)) :
    e.nr = x.nr ∨ e.nr = H.up x ∧ Asks (t.fs x.dev) name ∨ e ∈ (t.entries x).drop 2 := by
  obtain ⟨rest, hr, -⟩ := H.dots x hx
  unfold Tree.find at h
  rw [hr, findSome?_cons] at h
  rw [hr]
  split at h
  · rename_i b hb
    obtain ⟨n, -, hn⟩ := map_eq_some_iff.1 hb
    rw [← hn] at h
    cases h
    exact .inl rfl
  · rw [findSome?_cons] at h
    split at h
    · rename_i b hb
      obtain ⟨n, hm, hn⟩ := map_eq_some_iff.1 hb
      rw [← hn] at h
      cases h
      refine .inr (.inl ⟨rfl, (parent_asked (H.numbers x hx).2).1 ?_⟩)
      rw [hm]
      rfl
    · obtain ⟨a, ha, hb⟩ := exists_of_findSome?_eq_some h
      obtain ⟨n, -, hn⟩ := map_eq_some_iff.1 hb
      cases hn
      exact .inr (.inr ha)

theorem Hierarchy.find_asks (H : Hierarchy t) (hx : t.isDir x = true) (h : Asks (t.fs x.dev) name) :
    ∃ e next, t.find x name = some (e, next) ∧ e.nr = H.up x := by
  obtain ⟨rest, hr, -⟩ := H.dots x hx
  obtain ⟨next, hn⟩ := isSome_iff_exists.1 ((parent_asked (H.numbers x hx).2).2 h)
  refine ⟨⟨parentName (t.fs x.dev), H.up x⟩, next, ?_, rfl⟩
  unfold Tree.find
  rw [hr, findSome?_cons, self_unasked h, map_none]
  rw [findSome?_cons, hn]
  rfl

theorem opNamei_shorter (h : t.opNamei x name = some (inode, next)) (hne : name ≠ []) : next.length < name.length := by
  obtain ⟨⟨e, n⟩, he, h⟩ := map_eq_some_iff.1 h
  cases h
  obtain ⟨a, -, hb⟩ := exists_of_findSome?_eq_some he
  obtain ⟨m, hm, hn⟩ := map_eq_some_iff.1 hb
  cases hn
  exact matched_shorter hm hne

end Onix.Walk
