/-
  Xv6.Lib.System — labelled transition systems: which states a run reaches, runs whose
  steps all meet a condition, and how an invariant or a simulation is carried from one
  step to every reachable state.
-/

import Mathlib.Logic.Relation

namespace Xv6.Lib

/-- Where a run may start, and what a step labelled `l` may do. -/
structure Sys (σ ℓ : Type) where
  init : σ → Prop
  step : σ → ℓ → σ → Prop

namespace Sys

variable {σ ℓ : Type} (M : Sys σ ℓ)

inductive Reach : σ → Prop
  | init {s : σ} : M.init s → Reach s
  | step {s s' : σ} {l : ℓ} : Reach s → M.step s l s' → Reach s'

/-- The runs of `M` whose every step meets `P`, a condition on the state before it. -/
def restrict (P : σ → ℓ → Prop) : Sys σ ℓ where
  init := M.init
  step s l s' := M.step s l s' ∧ P s l

variable {M}

theorem invariant {I : σ → Prop} (h0 : ∀ s, M.init s → I s)
    (hs : ∀ s l s', M.Reach s → I s → M.step s l s' → I s') {s : σ} (h : M.Reach s) : I s := by
  induction h with
  | init h => exact h0 _ h
  | step hr h ih => exact hs _ _ _ hr ih h

theorem Reach.mono {P : σ → ℓ → Prop} {s : σ} (h : (M.restrict P).Reach s) : M.Reach s := by
  induction h with
  | init h => exact .init h
  | step _ h ih => exact .step ih h.1

/-- The system whose steps are those of a partial function. -/
def ofFn (init : σ → Prop) (next : σ → ℓ → Option σ) : Sys σ ℓ := ⟨init, fun s l s' => next s l = some s'⟩

/-- Execute the labels in order, each only where `ok` allows it. -/
def runAll (next : σ → ℓ → Option σ) (ok : σ → ℓ → Bool) : σ → List ℓ → Option σ
  | s, [] => some s
  | s, l :: ls => if ok s l then (next s l).bind fun s' => runAll next ok s' ls else none

section

variable {init : σ → Prop} {next : σ → ℓ → Option σ}

theorem reach_of_runAll {ok : σ → ℓ → Bool} {P : σ → ℓ → Prop}
    (hP : ∀ s l, ok s l = true → P s l) {s s' : σ} {ls : List ℓ} (hs : ((ofFn init next).restrict P).Reach s)
    (h : runAll next ok s ls = some s') : ((ofFn init next).restrict P).Reach s' := by
  induction ls generalizing s with
  | nil =>
    cases h
    exact hs
  | cons l ls ih =>
    rw [runAll] at h
    split at h
    · rename_i hok
      obtain ⟨t, ht, h⟩ := Option.bind_eq_some_iff.mp h
      exact ih (.step hs ⟨ht, hP s l hok⟩) h
    · cases h

theorem reach_of_runAll_true {s s' : σ} {ls : List ℓ} (h0 : init s)
    (h : runAll next (fun _ _ => true) s ls = some s') : (ofFn init next).Reach s' :=
  (reach_of_runAll (P := fun _ _ => True) (fun _ _ _ => trivial) (.init h0) h).mono

theorem reach_of_any {s : σ} (ls : List ℓ) (p : σ → Bool) (h0 : init s)
    (h : (runAll next (fun _ _ => true) s ls).any p = true) : ∃ t, (ofFn init next).Reach t ∧ p t = true := by
  cases hr : runAll next (fun _ _ => true) s ls with
  | none =>
    rw [hr] at h
    cases h
  | some t =>
    rw [hr] at h
    exact ⟨t, reach_of_runAll_true h0 hr, h⟩

end

/-! ## History -/

/-- The system with a history, which no step reads. -/
def traced {η : Type} (M : Sys σ ℓ) (h0 : η) (note : σ → ℓ → σ → η → η) : Sys (σ × η) ℓ where
  init x := M.init x.1 ∧ x.2 = h0
  step x l x' := M.step x.1 l x'.1 ∧ x'.2 = note x.1 l x'.1 x.2

theorem traced_ofFn {η : Type} (init : σ → Prop) (next : σ → ℓ → Option σ) (h0 : η) (note : σ → ℓ → σ → η → η) :
    (ofFn init next).traced h0 note =
      ofFn (fun x => init x.1 ∧ x.2 = h0) fun x l => (next x.1 l).map fun s' => (s', note x.1 l s' x.2) := by
  unfold traced ofFn
  congr
  funext x l x'
  refine propext ⟨fun ⟨h1, h2⟩ => ?_, fun h => ?_⟩
  · exact Option.map_eq_some_iff.mpr ⟨x'.1, h1, by rw [← h2]⟩
  · obtain ⟨s', h1, rfl⟩ := Option.map_eq_some_iff.mp h
    exact ⟨h1, rfl⟩

theorem reach_traced {η : Type} {init : σ → Prop} {next : σ → ℓ → Option σ} {h0 : η} {note : σ → ℓ → σ → η → η}
    (M : Sys (σ × η) ℓ) (hM : M = (ofFn init next).traced h0 note) {P : σ × η → ℓ → Prop} (ok : σ × η → ℓ → Bool)
    (hP : ∀ x l, ok x l = true → P x l) {s : σ} (hs : init s) (ls : List ℓ) (q : σ × η → Bool)
    (h : (runAll (fun x l => (next x.1 l).map fun s' => (s', note x.1 l s' x.2)) ok (s, h0) ls).any q = true) :
    ∃ x, (M.restrict P).Reach x ∧ q x = true := by
  obtain ⟨x, hx, hq⟩ := (Option.any_eq_true _ _).mp h
  refine ⟨x, ?_, hq⟩
  rw [hM, traced_ofFn]
  exact reach_of_runAll hP (.init ⟨hs, rfl⟩) hx

theorem Reach.untraced {η : Type} {h0 : η} {note : σ → ℓ → σ → η → η} {x : σ × η} (h : (M.traced h0 note).Reach x) :
    M.Reach x.1 := by
  induction h with
  | init h => exact .init h.1
  | step _ h ih => exact .step ih h.1

end Sys

/-- `f` maps a run of `M` to a run of `A`: each step of `M` is a step of `A` or leaves
    the image alone. -/
structure Sim {σ ℓ τ κ : Type} (M : Sys σ ℓ) (A : Sys τ κ) (f : σ → τ) : Prop where
  init : ∀ s, M.init s → A.init (f s)
  step : ∀ s l s', M.Reach s → A.Reach (f s) → M.step s l s' → f s' = f s ∨ ∃ k, A.step (f s) k (f s')

theorem Sim.reach {σ ℓ τ κ : Type} {M : Sys σ ℓ} {A : Sys τ κ} {f : σ → τ} (h : Sim M A f) {s : σ}
    (hs : M.Reach s) : A.Reach (f s) := by
  induction hs with
  | init h0 => exact .init (h.init _ h0)
  | @step s s' l hr hst ih =>
    rcases h.step s l s' hr ih hst with e | ⟨k, hk⟩
    · rw [e]; exact ih
    · exact .step ih hk

end Xv6.Lib
