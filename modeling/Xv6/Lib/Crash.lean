/-
  Xv6.Lib.Crash — a store written one address at a time, and what a crash may leave.

  A program's writes are a list in the order they are issued; the next one starts only when the
  last one is complete. A crash stops the list after some complete writes and perhaps one torn
  one: `tear old new mid` says which values `mid` an interrupted write of `new` over `old` may
  leave. A write may carry a mark.
-/

import Mathlib.Logic.Function.Basic

namespace Xv6.Lib

structure Wr (α β ι : Type) where
  addr : α
  data : β
  mark : Option ι

variable {α β ι : Type} [DecidableEq α]

def Wr.run (w : Wr α β ι) (d : α → β) : α → β := Function.update d w.addr w.data

def runAll (d : α → β) : List (Wr α β ι) → α → β
  | [] => d
  | w :: ws => runAll (w.run d) ws

def marks (ws : List (Wr α β ι)) : List ι := ws.flatMap (·.mark.toList)

/-- `Crash tear d ws ms d'`: issuing `ws` on `d` and crashing may leave `d'`, with the
    writes marked `ms` complete. -/
inductive Crash (tear : β → β → β → Prop) : (α → β) → List (Wr α β ι) → List ι → (α → β) → Prop
  | now (d : α → β) (ws : List (Wr α β ι)) : Crash tear d ws [] d
  | torn (d : α → β) (w : Wr α β ι) (ws : List (Wr α β ι)) (mid : β) : tear (d w.addr) w.data mid →
      Crash tear d (w :: ws) [] (Function.update d w.addr mid)
  | next {d d' : α → β} {w : Wr α β ι} {ws : List (Wr α β ι)} {ms : List ι} : Crash tear (w.run d) ws ms d' →
      Crash tear d (w :: ws) (w.mark.toList ++ ms) d'

theorem runAll_append (d : α → β) (ws vs : List (Wr α β ι)) : runAll d (ws ++ vs) = runAll (runAll d ws) vs := by
  induction ws generalizing d with
  | nil => rfl
  | cons w ws ih => exact ih (w.run d)

theorem runAll_of_not_mem {d : α → β} {ws : List (Wr α β ι)} {a : α} (h : ∀ w ∈ ws, w.addr ≠ a) :
    runAll d ws a = d a := by
  induction ws generalizing d with
  | nil => rfl
  | cons w ws ih =>
    have ha : a ≠ w.addr := (h w (by simp)).symm
    rw [runAll, ih fun v hv => h v (by simp [hv]), Wr.run, Function.update_of_ne ha]

theorem Crash.of_append {tear : β → β → β → Prop} {ws vs : List (Wr α β ι)} {d d' : α → β} {ms : List ι}
    (h : Crash tear d (ws ++ vs) ms d') :
    Crash tear d ws ms d' ∨ ∃ ns, ms = marks ws ++ ns ∧ Crash tear (runAll d ws) vs ns d' := by
  induction ws generalizing d ms with
  | nil => exact Or.inr ⟨ms, by simp [marks], h⟩
  | cons w ws ih =>
    cases h with
    | now => exact Or.inl (.now _ _)
    | torn _ _ _ mid hm => exact Or.inl (.torn _ _ _ mid hm)
    | next h =>
      rcases ih h with h1 | ⟨ns, rfl, h2⟩
      · exact Or.inl (.next h1)
      · exact Or.inr ⟨ns, by simp [marks], h2⟩

theorem Crash.mem_marks {tear : β → β → β → Prop} {ws : List (Wr α β ι)} {d d' : α → β} {ms : List ι}
    (h : Crash tear d ws ms d') : ∀ m ∈ ms, m ∈ marks ws := by
  induction h with
  | now => simp
  | torn => simp
  | next _ ih =>
    intro m hm
    simp only [marks, List.flatMap_cons, List.mem_append] at hm ⊢
    exact hm.imp_right (ih m)

/-- Every write of `ws`, issued in turn, keeps `I`, also when it is torn. -/
def Keeps (tear : β → β → β → Prop) (I : (α → β) → Prop) : (α → β) → List (Wr α β ι) → Prop
  | _, [] => True
  | d, w :: ws => (∀ mid, tear (d w.addr) w.data mid → I (Function.update d w.addr mid)) ∧ I (w.run d) ∧
      Keeps tear I (w.run d) ws

section

variable {tear : β → β → β → Prop} {I : (α → β) → Prop} {ws : List (Wr α β ι)}

theorem Crash.inv {d d' : α → β} {ms : List ι} (h : Crash tear d ws ms d') (h0 : I d) (hk : Keeps tear I d ws) : I d' := by
  induction h with
  | now => exact h0
  | torn d w ws mid hm => exact hk.1 mid hm
  | next _ ih => exact ih hk.2.1 hk.2.2

/-- A property that no write to the addresses of `ws` can break is kept by `ws`. -/
theorem Keeps.of_forall {d : α → β} (h0 : I d)
    (h : ∀ d, I d → ∀ w ∈ ws, ∀ v, I (Function.update d w.addr v)) : Keeps tear I d ws := by
  induction ws generalizing d with
  | nil => trivial
  | cons w ws ih =>
    have h1 : I (w.run d) := h d h0 w (by simp) _
    exact ⟨fun mid _ => h d h0 w (by simp) mid, h1, ih h1 fun e he v hv => h e he v (by simp [hv])⟩

end

end Xv6.Lib
