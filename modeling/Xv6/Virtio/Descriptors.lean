/-
  Xv6.Virtio.Descriptors — who owns each descriptor, and what the chains in memory look like.

  `Parts`: a descriptor is free, or in the chain of exactly one process. `Parts.move` is the
  one lemma for a step of a process, `Parts.frame` that for the handler and the device.
-/

import Xv6.Lib.Update
import Xv6.Virtio.Model

namespace Xv6.Virtio

open Function (update update_self update_of_ne update_comm update_idem update_eq_self)
open Lib (update_ind update_unique)

variable {N : Nat} {d d' : Disk} {pc : Fin N → Pc}

/-! ## Roles of the places in the code -/

/-- The descriptors of the request that the process has not given back. -/
@[grind] def Pc.chain : Pc → List Nat
  | .format _ _ i j k | .ring _ i j k | .publish _ i j k | .wait _ i j k | .sleepBuf _ i j k | .clear _ i j k => [i, j, k]
  | .free _ _ left => left
  | _ => []

/-- The request, from when it is in memory until its buffer is cleared in `info`. -/
def Pc.req : Pc → Option (Nat × Nat × Nat × Nat)
  | .ring b i j k | .publish b i j k | .wait b i j k | .sleepBuf b i j k | .clear b i j k => some (b, i, j, k)
  | _ => none

theorem Pc.chain_of_req {a : Pc} {b i j k : Nat} (h : a.req = some (b, i, j, k)) : a.chain = [i, j, k] := by
  cases a <;> cases h <;> rfl

theorem Pc.buf_of_req {a : Pc} {b i j k : Nat} (h : a.req = some (b, i, j, k)) : a.buf = some b := by
  cases a <;> cases h <;> rfl

/-- What `format` has stored of a request. -/
def Formatted (desc : Nat → Desc) (b i j k : Nat) : Prop :=
  desc i = ⟨.ops i, 16, VRING_DESC_F_NEXT, j⟩ ∧
  (∃ fl, fl &&& VRING_DESC_F_NEXT ≠ 0 ∧ desc j = ⟨.data b, BSIZE, fl, k⟩) ∧
  desc k = ⟨.status i, 1, VRING_DESC_F_WRITE, 0⟩

theorem Formatted.congr {desc desc' : Nat → Desc} {b i j k : Nat} (h : Formatted desc b i j k)
    (e : ∀ x ∈ [i, j, k], desc' x = desc x) : Formatted desc' b i j k := by
  rw [Formatted, e i (by simp), e j (by simp), e k (by simp)]
  exact h

theorem Formatted.chainEnd {desc : Nat → Desc} {b i j k : Nat} (h : Formatted desc b i j k) :
    (chainEnd desc NUM i).addr = .status i := by
  obtain ⟨hi, ⟨fl, hfl, hj⟩, hk⟩ := h
  have hfl : fl % 2 = 1 := by simpa [VRING_DESC_F_NEXT] using hfl
  simp [NUM, Virtio.chainEnd, hi, hj, hk, hfl, VRING_DESC_F_NEXT, VRING_DESC_F_WRITE]

/-- Each descriptor links to the next one, the last to none. -/
def Linked (desc : Nat → Desc) : List Nat → Prop
  | [] => True
  | [a] => (desc a).flags &&& VRING_DESC_F_NEXT = 0
  | a :: b :: l => (desc a).flags &&& VRING_DESC_F_NEXT ≠ 0 ∧ (desc a).next = b ∧ Linked desc (b :: l)

theorem Linked.congr {desc desc' : Nat → Desc} {l : List Nat} (e : ∀ x ∈ l, desc' x = desc x)
    (h : Linked desc l) : Linked desc' l := by
  induction l with
  | nil => trivial
  | cons a l ih =>
    cases l with
    | nil =>
      rw [Linked, e a (by simp)]
      exact h
    | cons b l =>
      rw [Linked, e a (by simp)]
      exact ⟨h.1, h.2.1, ih (fun x hx => e x (List.mem_cons_of_mem _ hx)) h.2.2⟩

theorem Formatted.linked {desc : Nat → Desc} {b i j k : Nat} (h : Formatted desc b i j k) : Linked desc [i, j, k] := by
  obtain ⟨hi, ⟨fl, hfl, hj⟩, hk⟩ := h
  simp only [Linked, hi, hj, hk, VRING_DESC_F_NEXT, VRING_DESC_F_WRITE]
  exact ⟨by decide, trivial, hfl, trivial, by decide⟩

/-! ## The partition -/

structure Parts (d : Disk) (pc : Fin N → Pc) : Prop where
  lt : ∀ p, ∀ i ∈ (pc p).chain, i < NUM
  nodup : ∀ p, (pc p).chain.Nodup
  taken : ∀ p, ∀ i ∈ (pc p).chain, d.free i = false
  owned : ∀ i < NUM, d.free i = false → ∃ p, i ∈ (pc p).chain
  unique : ∀ p q i, i ∈ (pc p).chain → i ∈ (pc q).chain → p = q
  bufs : ∀ p q b, (pc p).buf = some b → (pc q).buf = some b → p = q
  shape : ∀ p b i j k, (pc p).req = some (b, i, j, k) → Formatted d.desc b i j k
  info : ∀ p b i j k, (pc p).req = some (b, i, j, k) → (d.info i).b = some b
  links : ∀ p b c l, pc p = .free b c l → l.head? = some c ∧ Linked d.desc l

theorem Parts.frame (h : Parts d pc) (hfree : d'.free = d.free) (hdesc : d'.desc = d.desc)
    (hinfo : ∀ i, (d'.info i).b = (d.info i).b) : Parts d' pc where
  lt := h.lt
  nodup := h.nodup
  taken := by rw [hfree]; exact h.taken
  owned := by rw [hfree]; exact h.owned
  unique := h.unique
  bufs := h.bufs
  shape := by rw [hdesc]; exact h.shape
  info p b i j k hr := by rw [hinfo]; exact h.info p b i j k hr
  links := by rw [hdesc]; exact h.links

theorem Parts.chain (h : Parts d pc) {p : Fin N} {c : Pc} (hp : pc p = c) :
    c.chain.Nodup ∧ (∀ i ∈ c.chain, i < NUM) ∧ ∀ i ∈ c.chain, d.free i = false :=
  hp ▸ ⟨h.nodup p, h.lt p, h.taken p⟩

section

variable (h : Parts d pc) {p : Fin N} {c : Pc} (hp : pc p = c) (a : Pc)
  (hbuf : ∀ b, a.buf = some b → c.buf = some b ∨ ∀ q, (pc q).buf ≠ some b)
include h hp hbuf

section

variable (hdesc : ∀ i, d.free i = false → i ∉ c.chain → d'.desc i = d.desc i)
  (hinfo : ∀ i, d.free i = false → i ∉ c.chain → (d'.info i).b = (d.info i).b)
  (hreq : ∀ b i j k, a.req = some (b, i, j, k) → Formatted d'.desc b i j k ∧ (d'.info i).b = some b)
  (hlinks : ∀ b c l, a = .free b c l → l.head? = some c ∧ Linked d'.desc l)
include hdesc hinfo hreq hlinks

theorem Parts.move (hlt : ∀ i ∈ a.chain, i < NUM) (hnd : a.chain.Nodup)
    (hnew : ∀ i ∈ a.chain, i ∈ c.chain ∨ d.free i = true)
    (hfree : ∀ i < NUM, d'.free i = false ↔ i ∈ a.chain ∨ (i ∉ c.chain ∧ d.free i = false)) : Parts d' (update pc p a) := by
  subst hp
  -- what another process owns is neither free nor in the chain of `p`
  have hother : ∀ q, q ≠ p → ∀ i ∈ (pc q).chain, d.free i = false ∧ i ∉ (pc p).chain := fun q hq i hi =>
    ⟨h.taken q i hi, fun hi' => hq (h.unique q p i hi hi')⟩
  have hapart : ∀ q, q ≠ p → ∀ i ∈ (pc q).chain, i ∉ a.chain := by
    intro q hq i hi hia
    obtain ⟨hf, hn⟩ := hother q hq i hi
    rcases hnew i hia with h1 | h1
    · exact hn h1
    · rw [hf] at h1; cases h1
  have hfmt : ∀ q b i j k, (update pc p a q).req = some (b, i, j, k) → Formatted d'.desc b i j k ∧ (d'.info i).b = some b := by
    refine fun q => update_ind q hreq fun q hq b i j k hr => ?_
    have ho := hother q hq
    rw [Pc.chain_of_req hr] at ho
    refine ⟨(h.shape q b i j k hr).congr fun x hx => hdesc x (ho x hx).1 (ho x hx).2, ?_⟩
    rw [hinfo i (ho i (by simp)).1 (ho i (by simp)).2]
    exact h.info q b i j k hr
  refine ⟨fun q => update_ind q hlt fun q _ => h.lt q, fun q => update_ind q hnd fun q _ => h.nodup q, fun q => ?_, ?_,
    update_unique (fun (x : Pc) i => i ∈ x.chain) h.unique hapart,
    update_unique (fun (x : Pc) b => x.buf = some b) h.bufs fun q hq b hb ha => ?_,
    fun q b i j k hr => (hfmt q b i j k hr).1, fun q b i j k hr => (hfmt q b i j k hr).2,
      fun q => update_ind q hlinks fun q hq b c l hr => ?_⟩
  · refine update_ind q (fun i hi => (hfree i (hlt i hi)).mpr (.inl hi)) fun q hq i hi => ?_
    exact (hfree i (h.lt q i hi)).mpr (.inr (hother q hq i hi).symm)
  · intro i hi hf
    rcases (hfree i hi).mp hf with h1 | ⟨h1, h2⟩
    · exact ⟨p, by rw [update_self]; exact h1⟩
    · obtain ⟨q, hq⟩ := h.owned i hi h2
      have hqp : q ≠ p := fun e => h1 (e ▸ hq)
      exact ⟨q, by rw [update_of_ne hqp]; exact hq⟩
  · rcases hbuf b ha with h1 | h1
    · exact hq (h.bufs q p b hb h1)
    · exact h1 q hb
  · obtain ⟨h1, h2⟩ := h.links q b c l hr
    refine ⟨h1, h2.congr fun x hx => ?_⟩
    obtain ⟨h3, h4⟩ := hother q hq x (by rw [hr]; exact hx)
    exact hdesc x h3 h4

theorem Parts.keep (hchain : a.chain = c.chain) (hfree : d'.free = d.free) : Parts d' (update pc p a) := by
  obtain ⟨hnd, hlt, htaken⟩ := h.chain hp
  refine h.move hp a hbuf hdesc hinfo hreq hlinks (hchain ▸ hlt) (hchain ▸ hnd) (fun i hi => .inl (hchain ▸ hi)) fun i _ => ?_
  rw [hfree, hchain]
  by_cases hi : i ∈ c.chain
  · simp [hi, htaken i hi]
  · simp [hi]

end

theorem Parts.stay (hchain : a.chain = c.chain) (hreq : ∀ r, a.req = some r → c.req = some r) (hlinks : ∀ b c l, a ≠ .free b c l)
    (hfree : d'.free = d.free) (hdesc : d'.desc = d.desc) (hinfo : ∀ i, (d'.info i).b = (d.info i).b) :
    Parts d' (update pc p a) := by
  refine h.keep hp a hbuf (fun i _ _ => by rw [hdesc]) (fun i _ _ => hinfo i) (fun b i j k hr => ?_)
    (fun b c l e => absurd e (hlinks b c l)) hchain hfree
  subst hp
  rw [hdesc, hinfo]
  exact ⟨h.shape p b i j k (hreq _ hr), h.info p b i j k (hreq _ hr)⟩

end

/-! ## The functions -/

theorem alloc_desc_some {i : Nat} (h : alloc_desc d = some (i, d')) :
    i < NUM ∧ d.free i = true ∧ d' = { d with free := update d.free i false } := by
  obtain ⟨x, hx, e⟩ := Option.map_eq_some_iff.mp h
  cases e
  obtain ⟨-, h2, h3, -⟩ := Lib.first_some hx
  exact ⟨by omega, h3, rfl⟩

theorem free_desc_ok {i : Nat} (h1 : i < NUM) (h2 : d.free i = false) :
    free_desc d i = .ok { d with
      desc := update d.desc i ⟨.null, 0, 0, 0⟩, free := update d.free i true } := by
  rw [free_desc, if_neg (by omega), if_neg (by rw [h2]; decide)]

theorem taken {f : Nat → Bool} {i j : Nat} (h : update f i false j = true) : j ≠ i ∧ f j = true := by
  have hne : j ≠ i := by
    rintro rfl
    rw [update_self] at h
    cases h
  exact ⟨hne, by rwa [update_of_ne hne] at h⟩

/-- `d` with other `free` flags and descriptors. -/
@[grind] def Disk.with (d : Disk) (free : Nat → Bool) (desc : Nat → Desc) : Disk := { d with free, desc }

theorem alloc3_desc_cases (d : Disk) :
    (∃ i j k, alloc3_desc d = .ok (some (i, j, k),
        d.with (update (update (update d.free i false) j false) k false) d.desc) ∧
      [i, j, k].Nodup ∧ ∀ x ∈ [i, j, k], x < NUM ∧ d.free x = true) ∨
    (∃ desc, alloc3_desc d = .ok (none, d.with d.free desc) ∧ ∀ x, d.free x = false → desc x = d.desc x) := by
  rw [alloc3_desc]
  cases h1 : alloc_desc d with
  | none => exact .inr ⟨d.desc, rfl, fun _ _ => rfl⟩
  | some r1 =>
    obtain ⟨i, d1⟩ := r1
    obtain ⟨hi, hfi, rfl⟩ := alloc_desc_some h1
    dsimp only
    cases h2 : alloc_desc _ with
    | none =>
      refine .inr ⟨update d.desc i ⟨.null, 0, 0, 0⟩, ?_, fun x hx => ?_⟩
      · rw [free_desc_ok hi (by simp)]
        simp [Except.map, Disk.with, ← hfi]
      · exact update_of_ne (fun e => by rw [e, hfi] at hx; cases hx) ..
    | some r2 =>
      obtain ⟨j, d2⟩ := r2
      obtain ⟨hj, hfj, rfl⟩ := alloc_desc_some h2
      obtain ⟨hji, hfj⟩ := taken hfj
      dsimp only
      cases h3 : alloc_desc _ with
      | none =>
        refine .inr ⟨update (update d.desc i ⟨.null, 0, 0, 0⟩) j ⟨.null, 0, 0, 0⟩, ?_, fun x hx => ?_⟩
        · rw [free_desc_ok hi (by simp [hji.symm]), Except.bind,
            free_desc_ok hj (by simp [hji])]
          have e : update (update (update (update d.free i false) j false) i true) j
              true = d.free := by
            rw [update_comm hji.symm, update_idem, update_comm hji.symm, update_idem, ← hfj, update_eq_self, hfj, ← hfi,
              update_eq_self]
          simp only [Except.map, Disk.with, e]
        · rw [update_of_ne (fun e => by rw [e, hfj] at hx; cases hx),
            update_of_ne (fun e => by rw [e, hfi] at hx; cases hx)]
      | some r3 =>
        obtain ⟨k, d3⟩ := r3
        obtain ⟨hk, hfk, rfl⟩ := alloc_desc_some h3
        obtain ⟨hkj, hfk⟩ := taken hfk
        obtain ⟨hki, hfk⟩ := taken hfk
        refine .inl ⟨i, j, k, rfl, ?_, ?_⟩
        · simp [hji.symm, hki.symm, hkj.symm]
        · simp [hi, hj, hk, hfi, hfj, hfk]

end Xv6.Virtio
