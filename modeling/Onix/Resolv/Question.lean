/-
The question of `fill_payload` for a host name: what it writes is the encoding of the labels of the name, from which they are decoded again,
and `skip_name` finds its end.
-/
import Onix.Resolv.Reply

namespace Onix.Resolv

open List Onix.Lib

variable {mem : Nat → Byte} {p q i : Nat} {l l' : List Byte} {labels : List (List Byte)}

/-! ## Names and their encoding -/

structure Label (l : List Byte) : Prop where
  pos : 1 ≤ l.length
  le : l.length ≤ 63
  plain : ∀ c ∈ l, c ≠ 0 ∧ c ≠ dot

def hostName : List (List Byte) → List Byte
  | [] => []
  | [l] => l
  | l :: labels => l ++ dot :: hostName labels

theorem hostName_cons (l l' : List Byte) (labels : List (List Byte)) :
    hostName (l :: l' :: labels) = l ++ dot :: hostName (l' :: labels) := rfl

def encodeLabels (labels : List (List Byte)) : List Byte := labels.flatMap fun l => BitVec.ofNat 8 l.length :: l

def encode16 (v : BitVec 16) : List Byte := [(v >>> 8).setWidth 8, v.setWidth 8]

def encodeQuestion (labels : List (List Byte)) (type cls : BitVec 16) : List Byte :=
  encodeLabels labels ++ 0 :: encode16 type ++ encode16 cls

def bytesAt (mem : Nat → Byte) (p n : Nat) : List Byte := (List.range n).map fun i => mem (p + i)

/-- The labels of a name without pointers at `p`; `fuel` is more than there are. -/
def decodeLabels (mem : Nat → Byte) : Nat → Nat → Option (List (List Byte))
  | 0, _ => none
  | fuel + 1, p =>
    if mem p = 0 then some []
    else (decodeLabels mem fuel (p + 1 + (mem p).toNat)).map fun labels => bytesAt mem (p + 1) (mem p).toNat :: labels

/-! ## Memory -/

def Holds (mem : Nat → Byte) (p : Nat) : List Byte → Prop
  | [] => True
  | b :: l => mem p = b ∧ Holds mem (p + 1) l

theorem holds_append : Holds mem p (l ++ l') ↔ Holds mem p l ∧ Holds mem (p + l.length) l' := by
  induction l generalizing p with
  | nil => simp [Holds]
  | cons b l ih =>
    rw [cons_append, length_cons, ← add_assoc, add_right_comm]
    simp only [Holds, ih, and_assoc]

theorem Holds.bytesAt (h : Holds mem p l) : bytesAt mem p l.length = l := by
  induction l generalizing p with
  | nil => rfl
  | cons b l ih =>
    have hrest := ih h.2
    unfold Resolv.bytesAt at hrest ⊢
    rw [length_cons, range_succ_eq_map, map_cons, map_map, add_zero, h.1]
    refine congrArg (b :: ·) (Eq.trans (map_congr_left fun i _ => ?_) hrest)
    simp only [Function.comp]
    congr 1
    omega

theorem memcpy_append (mem : Nat → Byte) (p : Nat) (l l' : List Byte) : memcpy (memcpy mem p l) (p + l.length) l' = memcpy mem p (l ++ l') := by
  induction l generalizing mem p with
  | nil => rfl
  | cons b l ih =>
    rw [length_cons, ← add_assoc, add_right_comm]
    exact ih (put mem p b) (p + 1)

theorem memcpy_before (h : i < p) : memcpy mem p l i = mem i := by
  induction l generalizing mem p with
  | nil => rfl
  | cons b l ih => exact (ih (Nat.lt_succ_of_lt h)).trans (Function.update_of_ne (Nat.ne_of_lt h) ..)

theorem memcpy_after (h : p + l.length ≤ i) : memcpy mem p l i = mem i := by
  induction l generalizing mem p with
  | nil => rfl
  | cons b l ih =>
    rw [length_cons] at h
    exact (ih (by omega)).trans (Function.update_of_ne (by omega) ..)

theorem memcpy_holds : Holds (memcpy mem p l) p l := by
  induction l generalizing mem p with
  | nil => trivial
  | cons b l ih => exact ⟨(memcpy_before (Nat.lt_succ_self p)).trans (Function.update_self ..), ih⟩

/-! ## The loop -/

theorem Label.run (h : Label l) (rest : List Byte) : (l ++ dot :: rest).takeWhile (· ≠ dot) = l := by
  rw [takeWhile_append_of_pos fun c hc => by simpa using (h.plain c hc).2, takeWhile_cons_of_neg (by simp)]
  exact append_nil l

theorem Label.run_last (h : Label l) : l.takeWhile (· ≠ dot) = l := by
  have hall := @List.takeWhile_append_of_pos _ (fun c => decide (c ≠ dot)) l [] fun c hc => by simpa using (h.plain c hc).2
  rwa [append_nil, takeWhile_nil, append_nil] at hall

theorem Label.size (h : Label l) : (BitVec.ofNat 8 l.length).toNat = l.length := by
  have := h.le
  exact Nat.mod_eq_of_lt (by omega)

theorem fillLoop_next (h : Label l) (mem : Nat → Byte) (buf : Nat) (rest : List Byte) : fillLoop mem buf (l ++ dot :: rest) =
    fillLoop (memcpy mem buf (BitVec.ofNat 8 l.length :: l)) (buf + (l.length + 1)) rest := by
  have hdrop : (l ++ dot :: rest).drop ((l ++ dot :: rest).takeWhile (· ≠ dot)).length = dot :: rest := by
    rw [h.run, drop_left]
  rw [fillLoop]
  split
  · rename_i heq
    cases hdrop.symm.trans heq
  · rename_i c next heq
    cases hdrop.symm.trans heq
    simp only [h.run, h.size, take_left]
    rw [add_assoc, add_comm 1]
    rfl

theorem fillLoop_last (h : Label l) (mem : Nat → Byte) (buf : Nat) : fillLoop mem buf l =
    (memcpy mem buf (BitVec.ofNat 8 l.length :: l ++ [0]), buf + (l.length + 2)) := by
  have hdrop : l.drop (l.takeWhile (· ≠ dot)).length = [] := by
    rw [h.run_last, drop_length]
  rw [fillLoop]
  split
  · simp only [h.run_last, h.size, take_length]
    rw [← memcpy_append, length_cons, add_assoc, add_assoc, add_comm 1]
    rfl
  · rename_i c next heq
    cases hdrop.symm.trans heq

theorem fillLoop_labels : ∀ {labels : List (List Byte)}, labels ≠ [] → (∀ l ∈ labels, Label l) → ∀ (mem : Nat → Byte) (buf : Nat),
    fillLoop mem buf (hostName labels) = (memcpy mem buf (encodeLabels labels ++ [0]), buf + ((hostName labels).length + 2))
  | [], hne, _, _, _ => absurd rfl hne
  | [l], _, hl, mem, buf => by
    rw [hostName, fillLoop_last (hl l (mem_singleton_self l))]
    simp [encodeLabels]
  | l :: l' :: labels, _, hl, mem, buf => by
    have hrest := fillLoop_labels (cons_ne_nil l' labels) fun x hx => hl x (.tail _ hx)
    rw [hostName_cons, fillLoop_next (hl l (.head _)), hrest, length_append, length_cons]
    refine Prod.ext ((memcpy_append mem buf (BitVec.ofNat 8 l.length :: l) _).trans ?_) ?_
    · simp [encodeLabels]
    · dsimp only
      omega

theorem length_encode : ∀ {labels : List (List Byte)}, labels ≠ [] → (encodeLabels labels).length = (hostName labels).length + 1
  | [], hne => absurd rfl hne
  | [l], _ => by simp [encodeLabels, hostName]
  | l :: l' :: labels, _ => by
    have hrest := length_encode (cons_ne_nil l' labels)
    rw [encodeLabels, flatMap_cons, ← encodeLabels, length_append, hrest, hostName_cons, length_append, length_cons,
      length_cons]
    omega

theorem putHtons_eq (mem : Nat → Byte) (p : Nat) (v : BitVec 16) : putHtons mem p v = memcpy mem p (encode16 v) := rfl

theorem fillPayload_eq (hne : labels ≠ []) (hl : ∀ l ∈ labels, Label l) (mem : Nat → Byte) (data : Nat) (type cls : BitVec 16) :
    fillPayload mem data (hostName labels) type cls =
      (memcpy mem data (encodeQuestion labels type cls), (hostName labels).length + 6) := by
  have hlen := length_encode hne
  unfold fillPayload
  rw [fillLoop_labels hne hl]
  dsimp only
  refine Prod.ext ?_ ?_
  · rw [putHtons_eq, putHtons_eq]
    have h1 : data + ((hostName labels).length + 2) = data + (encodeLabels labels ++ [0]).length := by
      rw [length_append, hlen]
      rfl
    have h2 : data + (encodeLabels labels ++ [0]).length + 2 = data + (encodeLabels labels ++ [0] ++ encode16 type).length := by
      rw [@List.length_append _ (encodeLabels labels ++ [0])]
      rfl
    rw [h1, h2, memcpy_append, memcpy_append]
    simp [encodeQuestion]
  · dsimp only
    omega

/-! ## Decoding -/

variable {rest : List Byte}

theorem Label.first (h : Label l) (hm : mem p = BitVec.ofNat 8 l.length) : (mem p).toNat = l.length ∧ mem p ≠ 0 ∧ mem p &&& 0xC0#8 ≠ 0xC0#8 := by
  have hsize := h.size
  have h1 := h.pos
  have h2 := h.le
  rw [← hm] at hsize
  refine ⟨hsize, fun h0 => ?_, fun hc => ?_⟩
  · rw [h0] at hsize
    change 0 = l.length at hsize
    omega
  · -- the two highest bits make it more than 63
    have hle : (mem p &&& 0xC0#8).toNat ≤ (mem p).toNat := BitVec.toNat_and .. ▸ Nat.and_le_left
    rw [hc] at hle
    change 192 ≤ _ at hle
    omega

theorem decodeLabels_encode : ∀ {labels : List (List Byte)} {p fuel : Nat}, (∀ l ∈ labels, Label l) →
    Holds mem p (encodeLabels labels ++ 0 :: rest) → labels.length < fuel → decodeLabels mem fuel p = some labels
  | [], p, fuel + 1, _, h, _ => by
    exact if_pos h.1
  | l :: labels, p, fuel + 1, hl, h, hf => by
    have hlabel := hl l (.head _)
    rw [encodeLabels, flatMap_cons, ← encodeLabels, cons_append, cons_append, append_assoc] at h
    obtain ⟨hm, hbytes⟩ := h
    obtain ⟨hlab, hrest⟩ := holds_append.1 hbytes
    obtain ⟨hsize, h0, -⟩ := hlabel.first hm
    rw [length_cons] at hf
    unfold decodeLabels
    rw [if_neg h0, hsize, decodeLabels_encode (fun x hx => hl x (.tail _ hx)) hrest (by omega), hlab.bytesAt]
    rfl

theorem name_encode {w : Window Byte} : ∀ {labels : List (List Byte)} {p : Nat}, (∀ l ∈ labels, Label l) →
    Holds w.mem p (encodeLabels labels ++ 0 :: rest) → p + (encodeLabels labels).length < w.len →
    Name w p (p + (encodeLabels labels).length + 1)
  | [], p, _, h, hp => .root hp h.1
  | l :: labels, p, hl, h, hp => by
    have hlabel := hl l (.head _)
    rw [encodeLabels, flatMap_cons, ← encodeLabels, cons_append, cons_append, append_assoc] at h
    rw [encodeLabels, flatMap_cons, ← encodeLabels, cons_append, length_cons, length_append] at hp ⊢
    obtain ⟨hm, hbytes⟩ := h
    obtain ⟨-, hrest⟩ := holds_append.1 hbytes
    obtain ⟨hsize, h0, hc⟩ := hlabel.first hm
    have hnext := name_encode (p := p + 1 + l.length) (fun x hx => hl x (.tail _ hx)) hrest (by omega)
    refine .label (by omega) h0 hc ?_
    rw [hsize]
    have h1 : p + l.length + 1 = p + 1 + l.length := by omega
    have h2 : p + (l.length + (encodeLabels labels).length + 1) + 1 = p + 1 + l.length + (encodeLabels labels).length + 1 := by omega
    rw [h1, h2]
    exact hnext

/-! ## The question -/

/-- For every host name `fill_payload` writes its question and nothing else, which is decoded to the labels, whose end `skip_name` finds, and
which is as long as is returned. -/
theorem question_encoding (labels : List (List Byte)) (hne : labels ≠ []) (hl : ∀ l ∈ labels, Label l) (mem : Nat → Byte) (data : Nat)
    (type cls : BitVec 16) :
    let name := hostName labels
    let r := fillPayload mem data name type cls
    r.2 = name.length + 6 ∧ bytesAt r.1 data r.2 = encodeQuestion labels type cls ∧ (∀ i, i < data ∨ data + r.2 ≤ i → r.1 i = mem i) ∧
      (∀ fuel, labels.length < fuel → decodeLabels r.1 fuel data = some labels) ∧
      ∀ len, data + r.2 ≤ len → skipName ⟨r.1, len⟩ data = .ok (data + (name.length + 2)) := by
  intro name r
  have hr : r = (memcpy mem data (encodeQuestion labels type cls), name.length + 6) := fillPayload_eq hne hl mem data type cls
  have hlen : (encodeLabels labels).length = name.length + 1 := length_encode hne
  have hall : (encodeQuestion labels type cls).length = name.length + 6 := by
    unfold encodeQuestion encode16
    simp [hlen]
  have hholds : Holds r.1 data (encodeLabels labels ++ 0 :: (encode16 type ++ encode16 cls)) := by
    have h : Holds r.1 data (encodeQuestion labels type cls) := by
      rw [hr]
      exact memcpy_holds
    unfold encodeQuestion at h
    rwa [List.append_assoc, List.cons_append] at h
  have hsize : r.2 = name.length + 6 := by rw [hr]
  refine ⟨hsize, ?_, ?_, fun fuel hf => decodeLabels_encode hl hholds hf, fun len hle => ?_⟩
  · rw [hsize, ← hall, hr]
    exact memcpy_holds.bytesAt
  · rintro i hi
    rw [hsize] at hi
    rw [hr]
    rcases hi with hi | hi
    · exact memcpy_before hi
    · exact memcpy_after (by rw [hall]; exact hi)
  · rw [skipName_ok]
    have h := name_encode (w := ⟨r.1, len⟩) hl hholds (by dsimp only; omega)
    rw [hlen] at h
    exact h

/-- A name of two labels. -/
theorem question_encoding_two : (fillPayload (fun _ => 255) 12 (hostName [[97, 98], [99]]) 1 1).2 = 10 :=
  (question_encoding [[97, 98], [99]] (List.cons_ne_nil _ _) (by
    rintro l hl
    rcases List.mem_cons.1 hl with rfl | hl
    · exact ⟨by decide, by decide, by simp [dot]⟩
    · rcases List.mem_cons.1 hl with rfl | hl
      · exact ⟨by decide, by decide, by simp [dot]⟩
      · cases hl) (fun _ => 255) 12 1 1).1

end Onix.Resolv
