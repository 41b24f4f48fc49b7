/-
Labelled machines that may stop on a failed assertion: runs whose every step meets a side
condition, and the induction rules for them. A development states what one step preserves and
takes the statement about every run from here.
-/
import Mathlib.Data.BitVec

namespace Onix.Lib

universe u v w

/-- A machine: its start states, the steps a state admits and what a step does. A step that fails
an assertion or panics ends in `.error` and the machine stops there. -/
structure Machine (σ : Type u) (α : Type v) (ε : Type w) where
  start : σ → Prop
  enabled : σ → α → Prop
  step : σ → α → Except ε σ

namespace Machine

variable {σ : Type u} {α : Type v} {ε : Type w} (M : Machine σ α ε)

def Steps (s : σ) (a : α) (t : σ) : Prop := M.enabled s a ∧ M.step s a = .ok t

/-- A run from `s` to `t` each of whose steps meets the condition `P` on the state before it. -/
inductive Run (P : σ → α → Prop) : σ → σ → Prop
  | refl (s : σ) : Run P s s
  | tail {s t u : σ} {a : α} : Run P s t → P t a → M.Steps t a u → Run P s u

/-- The states reached from a start state by steps that all meet `P`. -/
def Reach (P : σ → α → Prop) (t : σ) : Prop := ∃ s, M.start s ∧ M.Run P s t

def Any : σ → α → Prop := fun _ _ => True

instance (s : σ) (a : α) : Decidable (Any s a) := inferInstanceAs (Decidable True)

variable {M} {P Q : σ → α → Prop} {s t u : σ} {a : α}

theorem Run.single (hP : P s a) (h : M.Steps s a t) : M.Run P s t := .tail (.refl s) hP h

theorem Run.trans (h1 : M.Run P s t) (h2 : M.Run P t u) : M.Run P s u := by
  induction h2 with
  | refl => exact h1
  | tail _ hP hs ih => exact .tail ih hP hs

theorem Run.mono (hPQ : ∀ s a, P s a → Q s a) (h : M.Run P s t) : M.Run Q s t := by
  induction h with
  | refl => exact .refl _
  | tail _ hP hs ih => exact .tail ih (hPQ _ _ hP) hs

theorem Run.inv {I : σ → Prop} (hstep : ∀ s a t, I s → P s a → M.Steps s a t → I t)
    (h : M.Run P s t) (hs : I s) : I t := by
  induction h with
  | refl => exact hs
  | tail _ hP hst ih => exact hstep _ _ _ ih hP hst

theorem Reach.tail (h : M.Reach P t) (hP : P t a) (hs : M.Steps t a u) : M.Reach P u := by
  obtain ⟨s, h0, hr⟩ := h
  exact ⟨s, h0, .tail hr hP hs⟩

theorem Reach.next (h : M.Reach P t) (a : α) (hP : P t a) (he : M.enabled t a) (hs : M.step t a = .ok u) : M.Reach P u := h.tail hP ⟨he, hs⟩

theorem Reach.mono (hPQ : ∀ s a, P s a → Q s a) (h : M.Reach P t) : M.Reach Q t := by
  obtain ⟨s, h0, h1⟩ := h
  exact ⟨s, h0, h1.mono hPQ⟩

theorem Reach.inv {I : σ → Prop} (h0 : ∀ s, M.start s → I s)
    (hstep : ∀ s a t, I s → P s a → M.Steps s a t → I t) (h : M.Reach P t) : I t := by
  obtain ⟨s, hs, hr⟩ := h
  exact hr.inv hstep (h0 s hs)

/-! ## Runs computed from a list of steps -/

/-- The end of the run that takes the given steps, if each is admitted, meets `P` and succeeds. -/
def trace (M : Machine σ α ε) (P : σ → α → Prop) [∀ s a, Decidable (M.enabled s a)] [∀ s a, Decidable (P s a)] :
    σ → List α → Option σ
  | s, [] => some s
  | s, a :: as =>
    if M.enabled s a ∧ P s a then
      match M.step s a with
      | .ok t => trace M P t as
      | .error _ => none
    else none

theorem trace_run [∀ s a, Decidable (M.enabled s a)] [∀ s a, Decidable (P s a)] :
    ∀ (as : List α) (s t : σ), M.trace P s as = some t → M.Run P s t
  | [], s, t, h => by
    simp only [trace, Option.some.injEq] at h
    subst h; exact .refl s
  | a :: as, s, t, h => by
    simp only [trace] at h
    split at h
    · rename_i hc
      cases hs : M.step s a with
      | error e => rw [hs] at h; cases h
      | ok u =>
        rw [hs] at h
        exact (Run.single hc.2 ⟨hc.1, hs⟩).trans (trace_run as u t h)
    · cases h

theorem trace_reach [∀ s a, Decidable (M.enabled s a)] [∀ s a, Decidable (P s a)] {as : List α} (hs : M.start s)
    (h : M.trace P s as = some t) : M.Reach P t := ⟨s, hs, trace_run as s t h⟩

/-! ## Histories -/

variable {γ : Type w}

/-- The machine with a history beside its state, which no step reads. -/
def record (M : Machine σ α ε) (h0 : σ → γ → Prop) (after : γ → σ → α → σ → γ) : Machine (σ × γ) α ε where
  start x := M.start x.1 ∧ h0 x.1 x.2
  enabled x a := M.enabled x.1 a
  step x a :=
    match M.step x.1 a with
    | .ok t => .ok (t, after x.2 x.1 a t)
    | .error e => .error e

variable {h0 : σ → γ → Prop} {after : γ → σ → α → σ → γ} {x y : σ × γ}

theorem record_steps : (M.record h0 after).Steps x a y ↔ M.Steps x.1 a y.1 ∧ y.2 = after x.2 x.1 a y.1 := by
  unfold Steps record
  dsimp only
  cases hs : M.step x.1 a with
  | error e => exact ⟨(fun h => nomatch h.2), (fun h => nomatch h.1.2)⟩
  | ok t =>
    constructor
    · rintro ⟨he, h⟩
      cases h; exact ⟨⟨he, rfl⟩, rfl⟩
    · rintro ⟨⟨he, h⟩, h2⟩
      cases h
      exact ⟨he, congrArg Except.ok (Prod.ext rfl h2.symm)⟩

theorem Reach.remember {R : σ × γ → α → Prop} (h0' : ∀ s, M.start s → ∃ g, h0 s g) (hPR : ∀ x a, P x.1 a → R x a)
    (h : M.Reach P s) : ∃ g, (M.record h0 after).Reach R (s, g) := by
  obtain ⟨s0, hs, hr⟩ := h
  obtain ⟨g0, hg⟩ := h0' s0 hs
  suffices ∃ g, (M.record h0 after).Run R (s0, g0) (s, g) by
    obtain ⟨g, hg'⟩ := this
    exact ⟨g, (s0, g0), ⟨hs, hg⟩, hg'⟩
  induction hr with
  | refl => exact ⟨g0, .refl _⟩
  | tail _ hP hst ih =>
    rename_i t u a _
    obtain ⟨g, ih⟩ := ih
    exact ⟨after g t a u, .tail ih (hPR _ _ hP) (record_steps.2 ⟨hst, rfl⟩)⟩

end Machine

end Onix.Lib
