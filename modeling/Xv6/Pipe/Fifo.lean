/-
  Xv6.Pipe.Fifo — what comes out of a pipe is what went in (see `Xv6.Pipe.Model`).

  The history of a run keeps the bytes that writers bring and those taken from `data[]`, in
  order, and by call. Where all reads and writes have one length, a write sleeps only between
  messages: what is in the pipe is a whole number of messages and the stored part of one
  (`Books.offset`).
-/

import Xv6.Pipe.Wakeup
import Xv6.Lib.Ring

namespace Xv6.Pipe

open Function (update update_self)
open Lib (update_ind)

variable {N : Nat}

structure Hist (N : Nat) where
  /-- The bytes that `copyin` found for `data[]`. -/
  puts : List UInt8
  /-- The bytes taken from it. -/
  takes : List UInt8
  /-- Those of the write in progress. -/
  wbuf : Fin N → List UInt8
  /-- What the read in progress has taken. -/
  rbuf : Fin N → List UInt8
  msgs : List (List UInt8)
  got : List (List UInt8)

namespace Hist

def start : Hist N := ⟨[], [], fun _ => [], fun _ => [], [], []⟩

def put (h : Hist N) (p : Fin N) (ch : UInt8) : Hist N :=
  { h with puts := h.puts ++ [ch], wbuf := update h.wbuf p (h.wbuf p ++ [ch]) }

def take (h : Hist N) (p : Fin N) (ch : UInt8) : Hist N :=
  { h with takes := h.takes ++ [ch], rbuf := update h.rbuf p (h.rbuf p ++ [ch]) }

def sent (h : Hist N) (p : Fin N) : Hist N :=
  { h with msgs := h.msgs ++ [h.wbuf p], wbuf := update h.wbuf p [] }

/-- The read is over; it has got what it took, if anything. -/
def received (h : Hist N) (p : Fin N) : Hist N :=
  { h with got := if h.rbuf p = [] then h.got else h.got ++ [h.rbuf p], rbuf := update h.rbuf p [] }

def abandon (h : Hist N) (p : Fin N) : Hist N :=
  { h with wbuf := update h.wbuf p [], rbuf := update h.rbuf p [] }

/-- `p` goes from `a` to `b` and leaves the pipe `pi` as `pi'`; `ch` is what `copyin` has found. -/
def move (h : Hist N) (p : Fin N) (ch : Option UInt8) (a b : Pc) (pi pi' : Pipe) : Hist N :=
  match a with
  | .wTest _ _ _ =>
    match b with
    | .wake _ _ _ => h.sent p
    | .leave _ => h.abandon p
    | _ => h
  | .wKilled _ _ _ =>
    match b with
    | .leave _ => h.abandon p
    | _ => h
  | .wCopy _ _ _ =>
    match b, ch with
    | .wTest _ _ _, some ch => h.put p ch
    | .wake _ _ (.ret _), _ => h.abandon p
    | _, _ => h
  | .rCopy _ _ =>
    match b with
    | .rCopy _ _ => h.take p pi.take.1
    | _ => if pi'.nread = pi.nread then h.received p else (h.take p pi.take.1).abandon p
  | _ => h

end Hist

/-- What a step adds to the history. -/
def note (s : St N) (a : Act N) (s' : St N) (h : Hist N) : Hist N :=
  match a with
  | .step p ch => h.move p ch (s.pc p) (s'.pc p) s.pi s'.pi
  | _ => h

def traced (N : Nat) (data : Nat → UInt8) : Lib.Sys (St N × Hist N) (Act N) := (sys N data).traced .start note

/-! ## Bytes -/

def contents (pi : Pipe) : List UInt8 := Lib.pending pi.data PIPESIZE pi.nread pi.nwrite

structure Fifo (pi : Pipe) (h : Hist N) : Prop where
  le : (pi.nwrite - pi.nread).toNat ≤ PIPESIZE
  eq : h.puts = h.takes ++ contents pi

theorem PIPESIZE_dvd : PIPESIZE ∣ 2 ^ 32 := by decide

theorem contents_length (pi : Pipe) : (contents pi).length = (pi.nwrite - pi.nread).toNat := Lib.pending_length

theorem full_iff (pi : Pipe) : pi.full = true ↔ (pi.nwrite - pi.nread).toNat = PIPESIZE := by
  rw [full, decide_eq_true_iff]
  constructor
  · intro h
    rw [h, BitVec.add_comm, BitVec.add_sub_cancel]
    rfl
  · intro h
    have h : pi.nwrite - pi.nread = BitVec.ofNat 32 PIPESIZE := BitVec.eq_of_toNat_eq (by rw [h]; rfl)
    rw [← h, BitVec.add_comm, BitVec.sub_add_cancel]

theorem empty_iff (pi : Pipe) : pi.empty = true ↔ (pi.nwrite - pi.nread).toNat = 0 := by
  rw [empty, decide_eq_true_iff]
  constructor
  · intro h
    rw [h, BitVec.sub_self]
    rfl
  · intro h
    have h : pi.nwrite - pi.nread = 0#32 := BitVec.eq_of_toNat_eq h
    rw [← BitVec.sub_add_cancel pi.nwrite pi.nread, h, BitVec.zero_add]

theorem length_put {pi : Pipe} (hlt : (pi.nwrite - pi.nread).toNat < PIPESIZE) (ch : UInt8) :
    ((pi.put ch).nwrite - (pi.put ch).nread).toNat = (pi.nwrite - pi.nread).toNat + 1 := by
  have hsz : PIPESIZE + 1 < 2 ^ 32 := by decide
  show (pi.nwrite + 1 - pi.nread).toNat = _
  rw [Lib.ring_advance (by omega)]

theorem contents_put {pi : Pipe} (hlt : (pi.nwrite - pi.nread).toNat < PIPESIZE) (ch : UInt8) :
    contents (pi.put ch) = contents pi ++ [ch] := by
  have hsz : PIPESIZE + 1 < 2 ^ 32 := by decide
  show Lib.pending (update pi.data (pi.nwrite.toNat % PIPESIZE) ch) PIPESIZE pi.nread (pi.nwrite + 1) = _
  rw [Lib.pending_push PIPESIZE_dvd (by omega), Lib.pending_store PIPESIZE_dvd hlt, update_self]
  rfl

theorem contents_take {pi : Pipe} (h : pi.empty = false) : contents pi = pi.take.1 :: contents pi.take.2 :=
  Lib.pending_pop PIPESIZE_dvd (by simpa [empty] using h)

section

variable {pi pi' : Pipe} {h h' : Hist N} {p : Fin N} {a b : Pc} {killed : Bool} {ch : Option UInt8}

theorem Fifo.lt (hf : Fifo pi h) (hn : pi.full = false) : (pi.nwrite - pi.nread).toNat < PIPESIZE := by
  have := hf.le
  have : (pi.nwrite - pi.nread).toNat ≠ PIPESIZE := fun e => by
    rw [(full_iff pi).mpr e] at hn
    cases hn
  omega

theorem Fifo.put (hf : Fifo pi h) (hn : pi.full = false) (ch : UInt8) : Fifo (pi.put ch) (h.put p ch) := by
  have hlt := hf.lt hn
  refine ⟨?_, ?_⟩
  · rw [length_put hlt]
    exact hlt
  · show h.puts ++ [ch] = h.takes ++ contents (pi.put ch)
    rw [contents_put hlt, hf.eq, List.append_assoc]

theorem Fifo.take (hf : Fifo pi h) (hn : pi.empty = false) : Fifo pi.take.2 (h.take p pi.take.1) := by
  have hpop := contents_take hn
  have hlen := congrArg List.length hpop
  rw [List.length_cons, contents_length, contents_length] at hlen
  refine ⟨?_, ?_⟩
  · have := hf.le
    omega
  · show h.puts = (h.takes ++ [pi.take.1]) ++ contents pi.take.2
    rw [hf.eq, hpop, List.append_assoc]
    rfl

theorem Fifo.congr (hf : Fifo pi h) (h1 : h'.puts = h.puts) (h2 : h'.takes = h.takes) : Fifo pi h' :=
  ⟨hf.le, by rw [h1, h2]; exact hf.eq⟩

theorem take_nread_ne (pi : Pipe) : pi.take.2.nread ≠ pi.nread := by
  show pi.nread + 1 ≠ pi.nread
  intro e
  have h1 : (pi.nread + 1) - pi.nread = 0#32 := by rw [e, BitVec.sub_self]
  rw [BitVec.add_comm, BitVec.add_sub_cancel] at h1
  exact absurd h1 (by decide)

theorem Edge.keeps_fifo (e : Edge N pi killed a b pi') (hf : Fifo pi h)
    (hput : ∀ n i f, a = .wCopy n i f → b = .wTest n (i + 1) false → ∃ c, ch = some c ∧ pi' = pi.put c) :
    Fifo pi' (h.move p ch a b pi pi') := by
  cases e with
  | wPut n i f c hn =>
    obtain ⟨c, rfl, hc⟩ := hput n i f rfl rfl
    rw [hc]
    exact hf.put hn c
  | rTake n i hn => exact hf.take hn
  | rBad n i hn =>
    have := hf.take (p := p) hn
    simp only [Hist.move, if_neg (take_nread_ne pi)]
    exact this.congr rfl rfl
  | rDone n i =>
    simp only [Hist.move, if_true]
    exact hf.congr rfl rfl
  | cSet w => cases w <;> exact ⟨hf.le, hf.eq⟩
  | wDone n i f hi => exact hf.congr rfl rfl
  | wShut n i f hi hr => exact hf.congr rfl rfl
  | wDie n i f hk => exact hf.congr rfl rfl
  | wBad n i f hn => exact hf.congr rfl rfl
  | _ => exact hf

end

theorem next_call {s s' : St N} {p : Fin N} {c : Call} (h : next s (.call p c) = some s') :
    s.pc p = .out ∧ s' = s.goto p (.enter c) := by
  obtain ⟨hpc, ⟨⟩⟩ := Option.ite_none_right_eq_some.mp (Option.ite_none_left_eq_some.mp h).2
  exact ⟨hpc, rfl⟩

theorem next_step {s s' : St N} {p : Fin N} {ch : Option UInt8} (h : next s (.step p ch) = some s') :
    step s p ch = some s' :=
  (Option.ite_none_left_eq_some.mp h).2

theorem next_kill {s s' : St N} {p : Fin N} (h : next s (.kill p) = some s') :
    s' = { s with killed := update s.killed p true, sleeping := update s.sleeping p false } := by
  obtain ⟨-, ⟨⟩⟩ := Option.ite_none_left_eq_some.mp (Option.ite_none_left_eq_some.mp h).2
  rfl

theorem step_put {s s' : St N} {p : Fin N} {ch : Option UInt8} {n : Int} {i : Nat} {f : Bool}
    (hpc : s.pc p = .wCopy n i f) (hs : step s p ch = some s') (hb : s'.pc p = .wTest n (i + 1) false) :
    ∃ c, ch = some c ∧ s'.pi = s.pi.put c := by
  simp only [step, hpc] at hs
  split at hs
  · cases hs
    simp [St.goto] at hb
  · cases ch with
    | none =>
      cases hs
      simp [St.goto] at hb
    | some c =>
      cases hs
      exact ⟨c, rfl, rfl⟩

theorem fifo_next {s s' : St N} {h : Hist N} {a : Act N} (hf : Fifo s.pi h) (hs : next s a = some s') :
    Fifo s'.pi (note s a s' h) := by
  cases a with
  | call p c =>
    obtain ⟨-, rfl⟩ := next_call hs
    exact hf
  | step p ch =>
    rcases step_cases (next_step hs) with ⟨b, m⟩ | ⟨c, q, t, u, hpc, hu, rfl⟩ | ⟨l, hpc, rfl⟩
    · have hb : s'.pc p = b := by rw [m.pc, update_self]
      rw [note, hb]
      exact m.edge.keeps_fifo hf fun n i f ha e => step_put ha (next_step hs) (hb.trans e)
    · have hpi : u.pi = s.pi := by rcases (wakeOne_spec hu).1 with rfl | rfl <;> rfl
      simp only [note, hpc, Hist.move, St.goto_pi, hpi]
      exact hf
    · simp only [note, hpc, Hist.move, St.park, St.goto_pi]
      exact hf
  | kill p =>
    rw [next_kill hs]
    exact hf

/-! ## Messages -/

/-- A loop that sleeps, where all lengths are `k`: between two messages. -/
def Loop.Whole (k : Nat) : Loop → Prop
  | .write n i => n = k ∧ i = 0
  | .read n => n = k

/-- What a process has stored and taken, where all lengths are `k`. -/
def Pc.Whole (k : Nat) (w r : List UInt8) : Pc → Prop
  | .wTest n i fresh => n = k ∧ w.length = i ∧ i ≤ k ∧ (fresh = true → w = []) ∧ r = []
  | .wKilled n i fresh | .wCopy n i fresh => n = k ∧ w.length = i ∧ i < k ∧ (fresh = true → w = []) ∧ r = []
  | .rCopy n i => n = k ∧ w = [] ∧ r.length = i ∧ i ≤ k
  | .enter (.write n) | .enter (.read n) | .rTest n | .rKilled n => n = k ∧ w = [] ∧ r = []
  | .wake _ _ (.sleep l) | .sleep l | .locked l | .parting l | .asleep l | .retake l => l.Whole k ∧ w = [] ∧ r = []
  | _ => w = [] ∧ r = []

/-- Where a kill would cost part of a message. -/
def Pc.Storing (w : List UInt8) : Pc → Prop
  | .wTest _ _ _ | .wKilled _ _ _ => w ≠ []
  | .wCopy _ _ _ => True
  | _ => False

/-- The history, with `w` of a message stored and `r` of one taken. -/
structure Books (k : Nat) (h : Hist N) (w r : List UInt8) : Prop where
  puts : h.puts = h.msgs.flatten ++ w
  takes : h.takes = h.got.flatten ++ r
  msgs : ∀ m ∈ h.msgs, m.length = k
  got : ∀ m ∈ h.got, m.length = k
  pre : h.got <+: h.msgs

section

variable {k : Nat} {pi : Pipe} {h h' : Hist N} {w r : List UInt8} {a : Pc}

theorem length_flatten_of {l : List (List UInt8)} (hl : ∀ m ∈ l, m.length = k) : l.flatten.length = l.length * k := by
  rw [List.length_flatten, List.map_congr_left (g := fun _ => k) hl]
  simp

theorem prefix_of_flatten {l m : List (List UInt8)} (hk : 0 < k) (hl : ∀ x ∈ l, x.length = k) (hm : ∀ x ∈ m, x.length = k)
    (h : l.flatten <+: m.flatten) : l <+: m := by
  induction l generalizing m with
  | nil => exact List.nil_prefix
  | cons x l ih =>
    have hx := hl x (by simp)
    cases m with
    | nil =>
      have := h.length_le
      rw [List.flatten_cons, List.length_append, List.flatten_nil, List.length_nil] at this
      omega
    | cons y m =>
      obtain ⟨t, ht⟩ := h
      rw [List.flatten_cons, List.flatten_cons, List.append_assoc] at ht
      obtain ⟨rfl, hlm⟩ := List.append_inj ht (by rw [hx, hm y (by simp)])
      exact List.cons_prefix_cons.mpr ⟨rfl, ih (fun z hz => hl z (by simp [hz])) (fun z hz => hm z (by simp [hz])) ⟨t, hlm⟩⟩

theorem Books.offset (hb : Books k h w r) (hf : Fifo pi h) :
    h.msgs.length * k + w.length = h.got.length * k + r.length + (pi.nwrite - pi.nread).toNat := by
  have := congrArg List.length hf.eq
  rwa [hb.puts, hb.takes, List.length_append, List.length_append, List.length_append, length_flatten_of hb.msgs,
    length_flatten_of hb.got, contents_length] at this

theorem Books.not_full (hb : Books k h w []) (hf : Fifo pi h) (hk : k ∣ PIPESIZE) (hw : w.length < k) (hfull : pi.full = true) :
    w = [] := by
  have h1 := hb.offset hf
  rw [(full_iff pi).mp hfull] at h1
  have h2 : w.length % k = 0 := by
    obtain ⟨c, hc⟩ := hk
    rw [hc, List.length_nil] at h1
    have : (h.msgs.length * k + w.length) % k = (h.got.length * k + 0 + k * c) % k := by rw [h1]
    simpa using this
  rw [Nat.mod_eq_of_lt hw] at h2
  exact List.length_eq_zero_iff.mp h2

theorem Books.not_empty (hb : Books k h [] r) (hf : Fifo pi h) (hr : r.length < k) (hempty : pi.empty = true) : r = [] := by
  have h1 := hb.offset hf
  rw [(empty_iff pi).mp hempty, List.length_nil] at h1
  have h2 : r.length % k = 0 := by
    have : (h.msgs.length * k + 0) % k = (h.got.length * k + r.length + 0) % k := by rw [h1]
    simpa using this.symm
  rw [Nat.mod_eq_of_lt hr] at h2
  exact List.length_eq_zero_iff.mp h2

theorem Books.put (hb : Books k h w []) {p : Fin N} (ch : UInt8) : Books k (h.put p ch) (w ++ [ch]) [] :=
  ⟨(congrArg (· ++ [ch]) hb.puts).trans (List.append_assoc ..), hb.takes, hb.msgs, hb.got, hb.pre⟩

theorem Books.take (hb : Books k h [] r) {p : Fin N} (ch : UInt8) : Books k (h.take p ch) [] (r ++ [ch]) :=
  ⟨hb.puts, (congrArg (· ++ [ch]) hb.takes).trans (List.append_assoc ..), hb.msgs, hb.got, hb.pre⟩

theorem Books.sent {p : Fin N} (hb : Books k h (h.wbuf p) []) (hw : (h.wbuf p).length = k) : Books k (h.sent p) [] [] := by
  refine ⟨?_, hb.takes, fun m hm => ?_, hb.got, hb.pre.trans (List.prefix_append ..)⟩
  · show h.puts = (h.msgs ++ [h.wbuf p]).flatten ++ []
    rw [hb.puts, List.flatten_append, List.flatten_singleton, List.append_nil]
  · rcases List.mem_append.mp hm with hm | hm
    · exact hb.msgs m hm
    · rw [List.mem_singleton.mp hm]
      exact hw

theorem Books.received {p : Fin N} (hk : 0 < k) (hb : Books k h [] (h.rbuf p)) (hf : Fifo pi h)
    (hr : (h.rbuf p).length = k ∨ h.rbuf p = []) : Books k (h.received p) [] [] := by
  by_cases e : h.rbuf p = []
  · have htakes := hb.takes
    rw [e] at htakes
    have hgot : (h.received p).got = h.got := if_pos e
    exact ⟨hb.puts, by rw [hgot]; exact htakes, hb.msgs, by rw [hgot]; exact hb.got, by rw [hgot]; exact hb.pre⟩
  · have hr := hr.resolve_right e
    have hgot : (h.received p).got = h.got ++ [h.rbuf p] := if_neg e
    have hlen : ∀ m ∈ h.got ++ [h.rbuf p], m.length = k := fun m hm => by
      rcases List.mem_append.mp hm with hm | hm
      · exact hb.got m hm
      · rw [List.mem_singleton.mp hm]
        exact hr
    have htakes : h.takes = (h.got ++ [h.rbuf p]).flatten := by
      rw [hb.takes, List.flatten_append, List.flatten_singleton]
    refine ⟨hb.puts, ?_, hb.msgs, by rw [hgot]; exact hlen, ?_⟩
    · rw [hgot, List.append_nil]
      exact htakes
    · rw [hgot]
      refine prefix_of_flatten hk hlen hb.msgs ⟨contents pi, ?_⟩
      have := hb.puts
      rw [List.append_nil] at this
      rw [← htakes, ← hf.eq]
      exact this

theorem Books.congr (hb : Books k h w r) (h1 : h'.puts = h.puts) (h2 : h'.takes = h.takes) (h3 : h'.msgs = h.msgs)
    (h4 : h'.got = h.got) : Books k h' w r :=
  ⟨by rw [h1, h3]; exact hb.puts, by rw [h2, h4]; exact hb.takes, by rw [h3]; exact hb.msgs, by rw [h4]; exact hb.got,
    by rw [h3, h4]; exact hb.pre⟩

theorem Pc.Whole.nil (hw : a.Whole k w r) (hl : a.HasLock = false) : w = [] ∧ r = [] := by
  cases a with
  | enter c => cases c <;> simp_all [Pc.Whole]
  | out | free | parting | asleep | retake => simp_all [Pc.Whole]
  | _ => cases hl

end

/-- What the holder of the lock has. -/
def St.held (s : St N) (f : Fin N → List UInt8) : List UInt8 :=
  match s.lock with
  | some p => f p
  | none => []

structure Msgs (k : Nat) (s : St N) (h : Hist N) : Prop where
  whole : ∀ q, (s.pc q).Whole k (h.wbuf q) (h.rbuf q)
  spared : ∀ q, (s.pc q).Storing (h.wbuf q) → s.killed q = false
  books : Books k h (s.held h.wbuf) (s.held h.rbuf)

section

variable {k : Nat} {s s' : St N} {h h' : Hist N} {p : Fin N} {a b : Pc}

theorem Msgs.books_of (hm : Msgs k s h) (hp : s.lock = some p ∨ s.lock = none ∧ (s.pc p).HasLock = false) :
    Books k h (h.wbuf p) (h.rbuf p) := by
  have hb := hm.books
  unfold St.held at hb
  rcases hp with hl | ⟨hl, hn⟩
  · rwa [hl] at hb
  · rw [hl] at hb
    obtain ⟨h1, h2⟩ := (hm.whole p).nil hn
    rw [h1, h2]
    exact hb

theorem Msgs.move (hm : Msgs k s h) (hI : Inv s) (m : Move s p b s')
    (hh : ∀ q, q ≠ p → h'.wbuf q = h.wbuf q ∧ h'.rbuf q = h.rbuf q) (hw : b.Whole k (h'.wbuf p) (h'.rbuf p))
    (hsp : b.Storing (h'.wbuf p) → s.killed p = false) (hsame : (s.pc p).HasLock = false → h' = h)
    (hb : (s.pc p).HasLock = true → Books k h' (h'.wbuf p) (h'.rbuf p)) : Msgs k s' h' := by
  refine ⟨fun q => ?_, fun q => ?_, ?_⟩
  · rw [m.pc]
    exact update_ind q hw fun q e => by rw [(hh q e).1, (hh q e).2]; exact hm.whole q
  · rw [m.killed, m.pc]
    exact update_ind q hsp fun q e => by rw [(hh q e).1]; exact hm.spared q
  · unfold St.held
    rcases m.lock with ⟨h1, h2⟩ | ⟨h0, h1, -⟩ | ⟨h0, h1, h2⟩
    · by_cases hl : (s.pc p).HasLock = true
      · rw [h1, (hI.lock p).mpr hl]
        exact hb hl
      · rw [hsame (by simpa using hl), h1]
        exact hm.books
    · have hn : (s.pc p).HasLock = false := by
        by_contra hc
        have := (hI.lock p).mpr (by simpa using hc)
        rw [h0] at this
        cases this
      rw [h1, hsame hn]
      exact hm.books_of (.inr ⟨h0, hn⟩)
    · rw [h1]
      have := hb h0
      obtain ⟨e1, e2⟩ := hw.nil h2
      rwa [e1, e2] at this

end

section

variable {k : Nat} {s s' : St N} {pi pi' : Pipe} {h : Hist N} {p q : Fin N} {a b : Pc} {killed : Bool} {ch : Option UInt8}

theorem Msgs.stay (hm : Msgs k s h) (hpc : s'.pc = update s.pc p b) (hl : s'.lock = s.lock) (hk : s'.killed = s.killed)
    (hw : (s.pc p).Whole k (h.wbuf p) (h.rbuf p) → b.Whole k (h.wbuf p) (h.rbuf p)) (hs : ¬ b.Storing (h.wbuf p)) :
    Msgs k s' h := by
  refine ⟨fun q => ?_, fun q => ?_, ?_⟩
  · rw [hpc]
    exact update_ind q (hw (hm.whole p)) fun q _ => hm.whole q
  · rw [hk, hpc]
    exact update_ind q (fun hq => absurd hq hs) fun q _ => hm.spared q
  · unfold St.held
    rw [hl]
    exact hm.books

theorem Hist.move_of_ne (e : q ≠ p) :
    (h.move p ch a b pi pi').wbuf q = h.wbuf q ∧ (h.move p ch a b pi pi').rbuf q = h.rbuf q := by
  unfold Hist.move
  split
  case h_1 | h_2 | h_3 => split <;> simp [Hist.sent, Hist.abandon, Hist.put, e]
  case h_4 =>
    split
    · simp [Hist.take, e]
    · split <;> simp [Hist.received, Hist.take, Hist.abandon, e]
  case h_5 => exact ⟨rfl, rfl⟩

theorem Hist.move_of_free (ha : a.HasLock = false) : h.move p ch a b pi pi' = h := by
  cases a <;> first | rfl | cases ha

/-- Where a call of `p` went on from `a` to `b`, with the history `h` now. -/
structure Kept (k : Nat) (h : Hist N) (p : Fin N) (killed : Bool) (a b : Pc) : Prop where
  whole : b.Whole k (h.wbuf p) (h.rbuf p)
  spared : b.Storing (h.wbuf p) → killed = false
  books : a.HasLock = true → Books k h (h.wbuf p) (h.rbuf p)

theorem Kept.done (h1 : h.wbuf p = []) (h2 : h.rbuf p = []) (hb : Books k h [] []) (hw : b.Whole k [] []) (hs : ¬ b.Storing []) :
    Kept k h p killed a b :=
  ⟨by rw [h1, h2]; exact hw, fun h3 => absurd (h1 ▸ h3) hs, fun _ => by rw [h1, h2]; exact hb⟩

theorem Kept.abandon (hw : h.wbuf p = []) (hr : h.rbuf p = []) (hb : Books k h (h.wbuf p) (h.rbuf p))
    (hb' : b.Whole k [] []) (hs : ¬ b.Storing []) : Kept k (h.abandon p) p killed a b :=
  .done (update_self ..) (update_self ..) ((by rwa [hw, hr] at hb : Books k h [] []).congr rfl rfl rfl rfl) hb' hs

theorem Edge.msgs {c : UInt8} (e : Edge N pi killed a b pi') (hk : k ∣ PIPESIZE) (hf : Fifo pi h) (ha : a ≠ .out)
    (hn : a.Knows pi)
    (hw : a.Whole k (h.wbuf p) (h.rbuf p)) (hsp : a.Storing (h.wbuf p) → killed = false)
    (hcopy : ∀ n i f, a = .wCopy n i f → pi.full = true ∨ b = .wTest n (i + 1) false)
    (htake : ∀ n i, a = .rCopy n i → b = .rCopy n (i + 1) ∧ (i : Int) < n ∨
      b = .wake .nwrite 0 (.ret i) ∧ pi' = pi ∧ ((i : Int) < n → pi.empty = true))
    (hb : a.HasLock = true → Books k h (h.wbuf p) (h.rbuf p)) : Kept k (h.move p (some c) a b pi pi') p killed a b := by
  have hk0 : 0 < k := Nat.pos_of_dvd_of_pos hk (by decide)
  cases e with
  | call => exact absurd rfl ha
  | enter c =>
    cases c with
    | write n => exact ⟨⟨hw.1, congrArg List.length hw.2.1, by omega, fun _ => hw.2.1, hw.2.2⟩, fun hs => absurd hw.2.1 hs, nofun⟩
    | read n => exact ⟨hw, False.elim, nofun⟩
    | close w => exact ⟨hw, False.elim, nofun⟩
  | wDone n i f hi =>
    obtain ⟨rfl, hlen, hle, -, hr⟩ := hw
    exact .done (update_self ..) hr ((hr ▸ hb rfl).sent (by omega)) ⟨rfl, rfl⟩ False.elim
  | wShut n i f hi hopen =>
    -- the read end was open when the last byte went in
    have hfr : f = true := by
      by_contra hc
      rw [hn (by simpa using hc)] at hopen
      cases hopen
    exact .abandon (hw.2.2.2.1 hfr) hw.2.2.2.2 (hb rfl) ⟨rfl, rfl⟩ False.elim
  | wGo n i f hi hopen =>
    obtain ⟨rfl, hlen, hle, hfr, hr⟩ := hw
    exact ⟨⟨rfl, hlen, by omega, hfr, hr⟩, hsp, hb⟩
  | wDie n i f hd =>
    have hnil : h.wbuf p = [] := by
      by_contra hc
      rw [hsp hc] at hd
      cases hd
    exact .abandon hnil hw.2.2.2.2 (hb rfl) ⟨rfl, rfl⟩ False.elim
  | wLive n i f hl => exact ⟨hw, fun _ => hl, hb⟩
  | wFull n i f hfull =>
    obtain ⟨hn, hlen, hlt, -, hr⟩ := hw
    have hnil := (hr ▸ hb rfl : Books k h (h.wbuf p) []).not_full hf hk (by omega) hfull
    exact ⟨⟨⟨hn, by rw [← hlen, hnil]; rfl⟩, hnil, hr⟩, False.elim, hb⟩
  | wBad n i f hfull =>
    rcases hcopy n i f rfl with h1 | h1
    · rw [h1] at hfull; cases hfull
    · cases h1
  | wPut n i f _ hfull =>
    obtain ⟨hn, hlen, hlt, -, hr⟩ := hw
    simp only [Hist.move]
    have hbuf : (h.put p c).wbuf p = h.wbuf p ++ [c] := update_self ..
    have hr' : (h.put p c).rbuf p = [] := hr
    refine ⟨?_, fun _ => hsp trivial, fun _ => ?_⟩
    · rw [hbuf, hr']
      exact ⟨hn, by rw [List.length_append, hlen]; rfl, hlt, nofun, rfl⟩
    · rw [hbuf, hr']
      exact (hr ▸ hb rfl : Books k h (h.wbuf p) []).put c
  | rWait n he ho => exact ⟨hw, False.elim, hb⟩
  | rGo n => exact ⟨⟨hw.1, hw.2.1, congrArg List.length hw.2.2, by omega⟩, False.elim, hb⟩
  | rDie n hd => exact ⟨hw.2, False.elim, hb⟩
  | rLive n hl => exact ⟨hw, False.elim, hb⟩
  | rTake n i he =>
    obtain ⟨rfl, hw, hlen, hle⟩ := hw
    have hlt : i < k := by
      rcases htake k i rfl with ⟨-, h1⟩ | ⟨h1, -⟩
      · omega
      · cases h1
    simp only [Hist.move]
    have hbuf : (h.take p pi.take.1).rbuf p = h.rbuf p ++ [pi.take.1] := update_self ..
    have hw' : (h.take p pi.take.1).wbuf p = [] := hw
    refine ⟨?_, False.elim, fun _ => ?_⟩
    · rw [hbuf, hw']
      exact ⟨rfl, rfl, by rw [List.length_append, hlen]; rfl, hlt⟩
    · rw [hbuf, hw']
      exact (hw ▸ hb rfl : Books k h [] (h.rbuf p)).take _
  | rBad n i he =>
    rcases htake n i rfl with ⟨h1, -⟩ | ⟨-, h1, -⟩
    · cases h1
    · exact absurd (congrArg Pipe.nread h1) (take_nread_ne pi)
  | rDone n i =>
    obtain ⟨rfl, hw, hlen, hle⟩ := hw
    have hb : Books k h [] (h.rbuf p) := hw ▸ hb rfl
    have hr : (h.rbuf p).length = k ∨ h.rbuf p = [] := by
      rcases htake k i rfl with ⟨h1, -⟩ | ⟨-, -, h1⟩
      · cases h1
      · by_cases hi : i < k
        · exact .inr (hb.not_empty hf (by omega) (h1 (by omega)))
        · exact .inl (by omega)
    simp only [Hist.move, if_true]
    exact .done hw (update_self ..) (hb.received hk0 hf hr) ⟨rfl, rfl⟩ False.elim
  | cSet w => exact ⟨hw, False.elim, hb⟩
  | woken c j t hj => cases t <;> exact ⟨hw, False.elim, hb⟩
  | leave | cFree | cOut | free | sleep | locked | asleep => exact ⟨hw, False.elim, hb⟩
  | retake l =>
    cases l with
    | write n i =>
      obtain ⟨⟨rfl, rfl⟩, hw, hr⟩ := hw
      exact ⟨⟨rfl, congrArg List.length hw, by omega, fun _ => hw, hr⟩, fun hs => absurd hw hs, nofun⟩
    | read n => exact ⟨hw, False.elim, nofun⟩

end

/-! ## Runs -/

/-- All reads and writes have length `k`, no copy fails, and no writer is killed on its way through
    the copying loop. -/
def Even (k : Nat) (x : St N × Hist N) : Act N → Prop
  | .call _ (.write n) | .call _ (.read n) => n = k
  | .call _ (.close _) => True
  | .step _ ch => ch ≠ none
  | .kill p => ∀ n i f, x.1.pc p ≠ .wTest n i f ∧ x.1.pc p ≠ .wKilled n i f ∧ x.1.pc p ≠ .wCopy n i f

section

variable {k : Nat} {s s' : St N} {h : Hist N} {a : Act N} {p : Fin N} {ch : UInt8}

theorem step_copy {n : Int} {i : Nat} {f : Bool} (hpc : s.pc p = .wCopy n i f) (hs : step s p (some ch) = some s') :
    s.pi.full = true ∨ s'.pc p = .wTest n (i + 1) false := by
  simp only [step, hpc] at hs
  split at hs
  · exact .inl ‹_›
  · cases hs
    exact .inr (update_self ..)

theorem step_take {n : Int} {i : Nat} (hpc : s.pc p = .rCopy n i) (hs : step s p (some ch) = some s') :
    s'.pc p = .rCopy n (i + 1) ∧ (i : Int) < n ∨
    s'.pc p = .wake .nwrite 0 (.ret i) ∧ s'.pi = s.pi ∧ ((i : Int) < n → s.pi.empty = true) := by
  simp only [step, hpc] at hs
  split at hs
  · rename_i hi
    cases hs
    exact .inl ⟨update_self .., hi.1⟩
  · rename_i hi
    cases hs
    exact .inr ⟨update_self .., rfl, fun h1 => by simpa [h1] using hi⟩

theorem msgs_next (hk : k ∣ PIPESIZE) (hI : Inv s) (hf : Fifo s.pi h) (hm : Msgs k s h) (he : Even k (s, h) a)
    (hs : next s a = some s') : Msgs k s' (note s a s' h) := by
  cases a with
  | call p c =>
    obtain ⟨hpc, rfl⟩ := next_call hs
    have hw := hm.whole p
    rw [hpc] at hw
    refine hm.move hI (.goto hpc (.call c) nofun rfl _) (fun _ _ => ⟨rfl, rfl⟩) ?_ ?_ (fun _ => rfl) (fun hl => ?_)
    · cases c with
      | write n => exact ⟨he, hw⟩
      | read n => exact ⟨he, hw⟩
      | close w => exact hw
    · exact False.elim
    · rw [hpc] at hl
      cases hl
  | step p ch =>
    obtain ⟨ch, rfl⟩ := Option.ne_none_iff_exists'.mp he
    have hstep := next_step hs
    rcases step_cases hstep with ⟨b, m⟩ | ⟨c, q, t, u, hpc, hu, rfl⟩ | ⟨l, hpc, rfl⟩
    · have hb : s'.pc p = b := by rw [m.pc, update_self]
      have kept := m.edge.msgs (p := p) (c := ch) hk hf (fun e => by simp [step, e] at hstep) (hI.knows p) (hm.whole p)
        (hm.spared p)
        (fun n i f e => hb ▸ step_copy e hstep) (fun n i e => hb ▸ step_take e hstep)
        (fun hl => hm.books_of (.inl ((hI.lock p).mpr hl)))
      rw [note, hb]
      exact hm.move hI m (fun q e => Hist.move_of_ne e) kept.whole kept.spared Hist.move_of_free kept.books
    · have hu : u.pc = s.pc ∧ u.lock = s.lock ∧ u.killed = s.killed := by
        rcases (wakeOne_spec hu).1 with rfl | rfl <;> exact ⟨rfl, rfl, rfl⟩
      have hn : note s (.step p (some ch)) (u.goto p (.wake c (q + 1) t)) h = h := by
        simp only [note, hpc, Hist.move]
      rw [hn]
      refine hm.stay (p := p) (b := .wake c (q + 1) t) ?_ hu.2.1 hu.2.2 (fun hw => ?_) id
      · rw [St.goto_pc, hu.1]
      · rw [hpc] at hw
        cases t <;> exact hw
    · have hn : note s (.step p (some ch)) (s.park p l) h = h := by simp only [note, hpc, Hist.move]
      rw [hn]
      exact hm.stay (p := p) (b := .asleep l) rfl rfl rfl (fun hw => by rwa [hpc] at hw) id
  | kill p =>
    rw [next_kill hs]
    have hpc : ∀ a, s.pc p = a → ¬ a.Storing (h.wbuf p) := fun a e hs => by
      cases a with
      | wTest n i f => exact (he n i f).1 e
      | wKilled n i f => exact (he n i f).2.1 e
      | wCopy n i f => exact (he n i f).2.2 e
      | _ => exact hs
    refine ⟨hm.whole, fun q => ?_, hm.books⟩
    show (s.pc q).Storing (h.wbuf q) → update s.killed p true q = false
    exact update_ind q (fun hq => absurd hq (hpc _ rfl)) fun q _ => hm.spared q

end

theorem fifo_reach {data : Nat → UInt8} {x : St N × Hist N} (h : (traced N data).Reach x) : Fifo x.1.pi x.2 := by
  refine Lib.Sys.invariant (I := fun x => Fifo x.1.pi x.2) ?_ ?_ h
  · rintro ⟨s, h⟩ ⟨rfl, rfl⟩
    exact ⟨by show (0#32 - 0#32).toNat ≤ PIPESIZE; decide, Lib.pending_self.symm⟩
  · intro x a x' _ hf ⟨hs, hn⟩
    rw [hn]
    exact fifo_next hf hs

theorem msgs_reach {k : Nat} (hk : k ∣ PIPESIZE) {data : Nat → UInt8} {x : St N × Hist N}
    (h : ((traced N data).restrict (Even k)).Reach x) : Msgs k x.1 x.2 := by
  refine Lib.Sys.invariant (I := fun x => Msgs k x.1 x.2) ?_ ?_ h
  · rintro ⟨s, h⟩ ⟨rfl, rfl⟩
    exact ⟨fun _ => ⟨rfl, rfl⟩, fun _ hs => hs.elim, rfl, rfl, nofun, nofun, List.prefix_refl _⟩
  · intro x a x' hr hm ⟨⟨hs, hn⟩, he⟩
    rw [hn]
    exact msgs_next hk (inv hr.mono.untraced) (fifo_reach hr.mono) hm he hs

/-- First in, first out: in every run the pipe holds at most PIPESIZE bytes, what was taken from
    it is a beginning of what was stored, and the rest is what it holds. With one length for all
    reads and writes, each read gets one whole message. -/
theorem fifo (N : Nat) (data : Nat → UInt8) :
    (∀ x, (traced N data).Reach x → (x.1.pi.nwrite - x.1.pi.nread).toNat ≤ PIPESIZE ∧ x.2.puts = x.2.takes ++ contents x.1.pi) ∧
    ∀ k, k ∣ PIPESIZE → ∀ x, ((traced N data).restrict (Even k)).Reach x →
      x.2.got <+: x.2.msgs ∧ ∀ m ∈ x.2.msgs, m.length = k := by
  refine ⟨fun x hx => ?_, fun k hk x hx => ?_⟩
  · exact ⟨(fifo_reach hx).le, (fifo_reach hx).eq⟩
  · have hb := (msgs_reach hk hx).books
    exact ⟨hb.pre, hb.msgs⟩

/-- `p` writes a byte and `q` reads it. -/
def oneByte (p q : Fin 2) : List (Act 2) :=
  .call p (.write 1) :: List.replicate 9 (.step p (some 7)) ++ .call q (.read 1) :: List.replicate 8 (.step q (some 0))

theorem fifo_one_byte : ∃ x : St 2 × Hist 2, ((traced 2 fun _ => 0).restrict (Even 1)).Reach x ∧ x.2.got = [[7]] ∧
    x.2.got <+: x.2.msgs ∧ x.2.puts = x.2.takes ++ contents x.1.pi := by
  have hrun : ∃ x : St 2 × Hist 2, ((traced 2 fun _ => 0).restrict (Even 1)).Reach x ∧ decide (x.2.got = [[7]]) = true :=
    Lib.Sys.reach_traced (traced 2 _) rfl
      (fun _ a => match a with | .kill _ | .step _ none => false | .call _ (.write n) | .call _ (.read n) => n = 1 | _ => true)
      (fun x a h => by
        cases a with
        | call p c => cases c <;> simp_all [Even]
        | step p ch => cases ch <;> simp_all [Even]
        | kill p => cases h) rfl (oneByte 1 0) _ (by decide +kernel)
  obtain ⟨x, hr, hg⟩ := hrun
  exact ⟨x, hr, of_decide_eq_true hg, ((fifo 2 _).2 1 (by decide) x hr).1, ((fifo 2 _).1 x hr.mono).2⟩

end Xv6.Pipe
