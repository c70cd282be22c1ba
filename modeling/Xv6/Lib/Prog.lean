/-
  Xv6.Lib.Prog — programs with a state that may stop with an error, and rules of pre- and
  postconditions for them.

  `Wp E c s Q`: started in `s`, `c` returns a result and leaves a state that satisfy `Q`, or stops
  with an error that `E` allows. `E` is fixed along a proof, so a proof that allows few errors
  shows the others out of reach. A function's specification is a theorem `pre → Wp E (f x) s
  post`.
-/

namespace Xv6.Lib

/-- A program over the state `σ` that returns an `α` or stops with an `ε`. -/
abbrev Prog (σ ε α : Type) := StateT σ (Except ε) α

variable {σ τ ε α β : Type} {E : ε → Prop}

def Wp (E : ε → Prop) (c : Prog σ ε α) (s : σ) (Q : α → σ → Prop) : Prop :=
  match c s with
  | .ok (a, t) => Q a t
  | .error e => E e

section

variable {c : Prog σ ε α} {s t : σ} {a : α} {e : ε} {Q Q' : α → σ → Prop}

instance [DecidablePred E] [∀ a t, Decidable (Q a t)] : Decidable (Wp E c s Q) :=
  match h : c s with
  | .ok (a, t) => decidable_of_iff (Q a t) (by rw [Wp, h])
  | .error e => decidable_of_iff (E e) (by rw [Wp, h])

theorem Wp.mono_run (h : Wp E c s Q) (hq : ∀ a t, c s = .ok (a, t) → Q a t → Q' a t) : Wp E c s Q' := by
  unfold Wp at h ⊢
  split
  · rename_i a t hc
    rw [hc] at h
    exact hq a t hc h
  · rename_i e hc
    rw [hc] at h
    exact h

theorem Wp.mono (h : Wp E c s Q) (hq : ∀ a t, Q a t → Q' a t) : Wp E c s Q' :=
  h.mono_run fun a t _ => hq a t

theorem Wp.of_ok (h : Wp E c s Q) (hc : c s = .ok (a, t)) : Q a t := by
  unfold Wp at h
  rwa [hc] at h

theorem Wp.of_error (h : Wp E c s Q) (hc : c s = .error e) : E e := by
  unfold Wp at h
  rwa [hc] at h

theorem Wp.and {E' : ε → Prop} (h : Wp E c s Q) (h' : Wp E' c s Q') : Wp E c s fun a t => Q a t ∧ Q' a t :=
  h.mono_run fun _ _ hc hq => ⟨hq, h'.of_ok hc⟩

theorem Wp.of_forall (h : ∀ a t, Q a t) : Wp (fun _ => True) c s Q := by
  unfold Wp
  split
  · exact h _ _
  · trivial

theorem Wp.ok_or_error (h : Wp E c s Q) : (∃ a t, c s = .ok (a, t) ∧ Q a t) ∨ ∃ e, c s = .error e ∧ E e := by
  rcases hc : c s with e | ⟨a, t⟩
  · exact .inr ⟨e, rfl, h.of_error hc⟩
  · exact .inl ⟨a, t, rfl, h.of_ok hc⟩

theorem Wp.returns (h : Wp (fun _ => False) c s Q) : ∃ a t, c s = .ok (a, t) ∧ Q a t :=
  h.ok_or_error.resolve_right fun ⟨_, _, hf⟩ => hf

theorem Wp.panics (h : Wp (fun x => x = e) c s fun _ _ => False) : c s = .error e := by
  rcases h.ok_or_error with ⟨_, _, _, hf⟩ | ⟨_, hc, rfl⟩
  · exact hf.elim
  · exact hc

end

/-! ## The constructs -/

@[simp] theorem wp_pure {a : α} {s : σ} {Q : α → σ → Prop} : Wp E (pure a : Prog σ ε α) s Q = Q a s := rfl

@[simp] theorem wp_bind {c : Prog σ ε α} {f : α → Prog σ ε β} {s : σ} {Q : β → σ → Prop} :
    Wp E (c >>= f) s Q = Wp E c s fun a t => Wp E (f a) t Q := by
  have hb : (c >>= f) s = (c s >>= fun x => f x.1 x.2) := rfl
  unfold Wp
  rw [hb]
  rcases c s with e | ⟨a, t⟩ <;> rfl

@[simp] theorem wp_get {s : σ} {Q : σ → σ → Prop} : Wp E (get : Prog σ ε σ) s Q = Q s s := rfl

@[simp] theorem wp_modify {f : σ → σ} {s : σ} {Q : PUnit → σ → Prop} :
    Wp E (modify f : Prog σ ε PUnit) s Q = Q ⟨⟩ (f s) := rfl

@[simp] theorem wp_throw {e : ε} {s : σ} {Q : α → σ → Prop} : Wp E (throw e : Prog σ ε α) s Q = E e := rfl

theorem wp_ite {p : Prop} [Decidable p] {c d : Prog σ ε α} {s : σ} {Q : α → σ → Prop}
    (ht : p → Wp E c s Q) (hf : ¬ p → Wp E d s Q) : Wp E (if p then c else d) s Q := by
  split
  · exact ht ‹_›
  · exact hf ‹_›

theorem wp_when {p : Prop} [Decidable p] {c : Prog σ ε PUnit} {k : PUnit → Prog σ ε β} {s : σ} {Q : β → σ → Prop}
    (R : σ → Prop) (ht : p → Wp E c s fun _ t => R t) (hf : ¬ p → R s) (hk : ∀ t, R t → Wp E (k ⟨⟩) t Q) :
    Wp E (if p then c >>= k else k ⟨⟩) s Q :=
  wp_ite (fun hp => wp_bind.mpr ((ht hp).mono fun _ => hk)) fun hp => hk s (hf hp)

/-! ## A counted loop -/

/-- `for(k = i; k < i + n; k++) body k`. -/
def forFrom (body : Nat → Prog σ ε PUnit) : Nat → Nat → Prog σ ε PUnit
  | _, 0 => pure ⟨⟩
  | i, n + 1 => do
    body i
    forFrom body (i + 1) n

theorem wp_forFrom {body : Nat → Prog σ ε PUnit} (I : Nat → σ → Prop) {i n : Nat} {s : σ} (h0 : I i s)
    (hs : ∀ k t, i ≤ k → k < i + n → I k t → Wp E (body k) t fun _ u => I (k + 1) u) :
    Wp E (forFrom body i n) s fun _ t => I (i + n) t := by
  induction n generalizing i s with
  | zero => exact h0
  | succ n ih =>
    simp only [forFrom, wp_bind]
    refine (hs i s (by omega) (by omega) h0).mono fun _ t ht => ?_
    rw [show i + (n + 1) = i + 1 + n by omega]
    exact ih ht fun k u hk hk' => hs k u (by omega) (by omega)

-- or the elaborator runs the loop when it looks for the shape of a statement about it
attribute [irreducible] forFrom

/-! ## Running a program on a part of the state -/

/-- Run `c` on the part of the state that `get` reads and `put` replaces; its errors become
    those of `err`. -/
def onPart {ζ : Type} (get : σ → τ) (put : σ → τ → σ) (err : ζ → ε) (c : Prog τ ζ α) : Prog σ ε α := fun s =>
  match c (get s) with
  | .ok (a, t) => .ok (a, put s t)
  | .error e => .error (err e)

theorem wp_onPart {ζ : Type} {get : σ → τ} {put : σ → τ → σ} {err : ζ → ε} {c : Prog τ ζ α} {s : σ}
    {Q : α → σ → Prop} :
    Wp E (onPart get put err c) s Q = Wp (fun e => E (err e)) c (get s) fun a t => Q a (put s t) := by
  unfold Wp onPart
  rcases c (get s) with e | ⟨a, t⟩ <;> rfl

end Xv6.Lib
