/-
  Xv6.Fs.NameSteps — what the calls on names do: each is one transaction, which leaves the file
  system as it was, makes a minor step, or creates, links or unlinks.
-/

import Xv6.Fs.FileSteps

namespace Xv6.Fs

open Function (update update_self update_of_ne)
open Lib (Wp wp_bind wp_get wp_pure)

variable {sb : Superblock} [Lost sb] {E : Panic → Prop} {s s' : St} {n : Nat} {x : Nat → Nat} {V : Nat → Node} {i d e k : Nat}
  {name : List UInt8}

/-! ## The changes keep directories whole -/

theorem Dirs.release (hd : Dirs sb V) : Dirs sb (release V i k) := by
  unfold Fs.release
  split
  · exact hd.update fun _ => .of_size rfl
  · exact hd

theorem Keeps.trans {V' V'' : Nat → Node} (h1 : Keeps V V') (h2 : ∀ k, (V'' k).type = T_DIR → (V' k).type = T_DIR) :
    Keeps V V'' :=
  fun k hk hT => h1 k hk (h2 k hT)

theorem release_type (hT : (release V i k n).type = T_DIR) : (V n).type = T_DIR := by
  unfold release at hT
  split at hT
  · by_cases e : n = i
    · rw [e, update_self] at hT
      cases hT
    · rwa [update_of_ne e] at hT
  · exact hT

theorem Node.Ok.setNlink {v : Node} (h : v.Ok sb) (m : Nat) : (v.setNlink m).Ok sb := fun ht => h ht

theorem Node.Ok.withDots (hL : Layout sb) {v : Node} (ht : v.type = T_DIR) (hs : v.size = 0) (hi : Nameable sb i)
    (hd : Nameable sb d) : (v.withDots i d).Ok sb := by
  have h0 : v.Ok sb := .of_size hs
  have h1 := h0.setEntry (e := 0) (x := ⟨i, dot⟩) hL ht (Nat.zero_le _) hi dot_length dot_zero
  refine h1.setEntry (e := 1) (x := ⟨d, dotdot⟩) hL ht ?_ hd dotdot_length dotdot_zero
  rw [slots_setEntry (by rw [hs])]
  exact Nat.le_max_right ..

theorem dirs_created (hL : Layout sb) (hd : Dirs sb V) {type major minor : Nat} (hi : Nameable sb i)
    (hdl : Nameable sb d) (ht : (V d).type = T_DIR) (he : e ≤ (V d).slots) (hn : NameOk name) :
    Dirs sb (created V type major minor i d e name) := by
  unfold created
  refine (hd.update fun _ => ?_).update fun hl => ?_
  · split
    · rename_i hT
      exact .withDots hL hT rfl hi hdl
    · exact .of_size rfl
  · have hok := (hd.ok hl).setEntry (x := ⟨i, name⟩) hL ht he hi hn.length hn.zero
    split
    · exact hok.setNlink _
    · exact hok

theorem keeps_created {type major minor : Nat} (hi : (V i).type = 0) (ht : (V d).type = T_DIR) :
    Keeps V (created V type major minor i d e name) := by
  intro k hk hT
  unfold created at hT
  by_cases ed : k = d
  · rw [ed]; exact ht
  · rw [update_of_ne ed] at hT
    by_cases ei : k = i
    · rw [ei] at hk
      exact absurd hi hk
    · rwa [update_of_ne ei] at hT

theorem dirs_linked (hL : Layout sb) (hd : Dirs sb V) (hi : Nameable sb i) (ht : (V d).type = T_DIR)
    (he : e ≤ (V d).slots) (hn : NameOk name) : Dirs sb (linked V i d e name) :=
  (hd.update fun hl => (hd.ok hl).setNlink _).update fun hl => (hd.ok hl).setEntry (x := ⟨i, name⟩) hL ht he hi hn.length hn.zero

theorem keeps_linked (ht : (V d).type = T_DIR) : Keeps V (linked V i d e name) := by
  intro k _ hT
  unfold linked at hT
  by_cases ed : k = d
  · rw [ed]; exact ht
  · rw [update_of_ne ed] at hT
    by_cases ei : k = i
    · rw [ei, update_self] at hT
      rw [ei]; exact hT
    · rwa [update_of_ne ei] at hT

theorem dirs_cleared (hL : Layout sb) (hd : Dirs sb V) (ht : (V d).type = T_DIR) (he : e < (V d).slots) :
    Dirs sb (cleared V i d e) := by
  have hzero : Nameable sb 0 := ⟨Nat.lt_of_le_of_lt (Nat.zero_le _) hL.root_lt, fun h => absurd rfl h⟩
  refine hd.update fun hl => ?_
  have hok := (hd.ok hl).setEntry (x := ⟨0, []⟩) hL ht (Nat.le_of_lt he) hzero (Nat.zero_le _) (by simp)
  split
  · exact hok.setNlink _
  · exact hok

theorem cleared_type (k : Nat) : (cleared V i d e k).type = (V k).type := by
  unfold cleared
  by_cases ek : k = d
  · rw [ek, update_self]
    split
    · rw [setNlink_type, setEntry_type]
    · rw [setEntry_type]
  · rw [update_of_ne ek]

theorem Dirs.setNlink (hd : Dirs sb V) (i m : Nat) : Dirs sb (Function.update V i ((V i).setNlink m)) :=
  hd.update fun hl => (hd.ok hl).setNlink m

theorem dirs_unlinked (hL : Layout sb) (hd : Dirs sb V) (ht : (V d).type = T_DIR) (he : e < (V d).slots) {m : Nat} :
    Dirs sb (unlinked V i d e n m) :=
  ((dirs_cleared hL hd ht he).release.setNlink _ _).release

theorem keeps_unlinked {m : Nat} : Keeps V (unlinked V i d e n m) := by
  intro k _ hT
  have h1 := release_type hT
  have h2 : (release (cleared V i d e) d n k).type = T_DIR := by
    by_cases ek : k = i
    · rw [ek, update_self, setNlink_type] at h1
      rw [ek]; exact h1
    · rwa [update_of_ne ek] at h1
  have h3 := release_type h2
  rwa [cleared_type] at h3

omit [Lost sb] in
theorem lt_of_type {b : Disk} (h : (view sb b i).type ≠ 0) : i < sb.ninodes := by
  by_contra hc
  rw [view_of_ge (Nat.le_of_not_lt hc)] at h
  exact h rfl

/-! ## One transaction -/

theorem world_transaction {α : Type} {c : M α} {P : α → Core → Prop} {y : α → Nat → Nat} (hw : World sb 0 x s)
    (hc : Wp E c (begun s.core) P) (hP : ∀ a t, P a t → World sb 1 (y a) { s with core := t }) :
    Wp (Ev E) (transaction c) s fun a s' =>
      ∃ t, P a t ∧ s' = { s with core := ended t } ∧ World sb 0 (y a) s' ∧ World sb 1 (y a) { s with core := t } := by
  rw [transaction, wp_bind, wp_core, wp_begin_op hw.out, wp_bind, wp_core]
  refine hc.mono fun a t ha => ?_
  have hw1 := hP a t ha
  rw [wp_bind, wp_core, wp_end_op hw1.out]
  exact ⟨t, ha, rfl, hw1.ended, hw1⟩

/-- The commit at the end of a transaction that began in `s`. -/
def Committed (sb : Superblock) (s s' : Core) : Prop :=
  ∃ c, s'.past = c :: s.past ∧ Shows sb c (view sb s'.disk)

theorem committed_ended (hL : Layout sb) {c : Core} (hw : World sb 1 x s) (hp : s.core.past = c.past) :
    Committed sb c (ended s.core) :=
  ⟨s.core.commit, by rw [← hp]; rfl, shows_commit hL hw.synced⟩

/-- What the call asks to create: the path, type and device number. -/
def Call.creates : Call → Option (List UInt8 × Nat × Nat × Nat)
  | .open path omode => if omode &&& O_CREATE ≠ 0 then (argstr path).map (·, T_FILE, 0, 0) else none
  | .mkdir path => (argstr path).map (·, T_DIR, 0, 0)
  | .mknod path major minor => (argstr path).map (·, T_DEVICE, (major % 2 ^ 16).toNat, (minor % 2 ^ 16).toNat)
  | _ => none

/-- What a call by a process in directory `cwd` does to the file system. -/
inductive Effect (sb : Superblock) (cwd : Nat) (c : Call) (s s' : Core) : Prop
  | minor : Minors sb (view sb s.disk) s.past (view sb s'.disk) s'.past → Effect sb cwd c s s'
  | create {path name : List UInt8} {type major minor i d e n : Nat} : c.creates = some (path, type, major, minor) →
      i < sb.ninodes → view sb s.disk i = .free → 0 < i → NewEntry (view sb s.disk) cwd path d e name → NameOk name →
      (0 < n ↔ Held s d) → view sb s'.disk = release (created (view sb s.disk) type major minor i d e name) d n →
      Committed sb s s' → Effect sb cwd c s s'
  | link {old new : List UInt8} {m m' nm name : List UInt8} {i d e n : Nat} : c = .link m m' → argstr m = some old →
      argstr m' = some new → walk (view sb s.disk) cwd old false = some (i, nm) → (view sb s.disk i).type ≠ 0 →
      (view sb s.disk i).type ≠ T_DIR → NewEntry (view sb s.disk) cwd new d e name → NameOk name → (0 < n ↔ Held s i) →
      view sb s'.disk = release (linked (view sb s.disk) i d e name) i n → Committed sb s s' → Effect sb cwd c s s'
  | unlink {m path name : List UInt8} {i d e n n' : Nat} : c = .unlink m → argstr m = some path →
      OldEntry (view sb s.disk) cwd path d e name → ((view sb s.disk d).entry e).inum = i → (view sb s.disk i).type ≠ 0 →
      1 ≤ toInt16 (view sb s.disk i).nlink → ((view sb s.disk i).type = T_DIR → (view sb s.disk i).isEmpty) →
      (0 < n ↔ Held s d ∨ i = d) → (0 < n' ↔ Held s i) →
      view sb s'.disk = unlinked (view sb s.disk) i d e n n' → Committed sb s s' → Effect sb cwd c s s'

omit [Lost sb] in
theorem Effect.same {cwd : Nat} {c : Call} {t t' : Core} (hv : view sb t'.disk = view sb t.disk) (hc : Committed sb t t') :
    Effect sb cwd c t t' := by
  obtain ⟨b, hb, hs⟩ := hc
  refine .minor ?_
  rw [hv] at hs ⊢
  rw [hb]
  exact Minors.refl.step .same hs

/-- The panics that the calls on names may have, and what excludes them. -/
structure Guard (E : Panic → Prop) (V : Nat → Node) : Prop where
  iget : E .iget
  closed : ¬ E .ilockNoType → Closed V
  linked : ¬ E .unlinkNlink → Linked V

theorem argstr_zero {mem path : List UInt8} (h : argstr mem = some path) : 0 ∉ path := by
  unfold argstr at h
  dsimp only at h
  split at h
  · cases h
    intro hc
    simpa using List.mem_takeWhile_imp hc
  · cases h

theorem World.cwd_pos (hw : World sb n x s) {p : Nat} (hp : p < NPROC) (hu : (s.proc p).state = .used) :
    0 < Fs.refs s.core (s.proc p).cwd :=
  hw.pos (users_pos_of_proc hp ⟨hu, rfl⟩)

section

variable {p : Nat}

/-- The state after a call by `p`, what it returned and what it did. -/
structure Done (sb : Superblock) [Lost sb] (p : Nat) (c : Call) (s s' : St) : Prop where
  world : World sb 0 0 s'
  effect : Effect sb (s.core.itable (s.proc p).cwd).inum c s.core s'.core

theorem World.live (hw : World sb n x s) (hp : p < NPROC) (hu : (s.proc p).state = .used) {path : List UInt8} {parent : Bool}
    {r : Nat × List UInt8} (h : walk (view sb s.core.disk) (s.core.itable (s.proc p).cwd).inum path parent = some r) :
    Live sb r.1 :=
  walk_live hw.dirs (hw.ready.inv.table.live _ (hw.cwd_pos hp hu)) h

theorem Done.of_evolves {c : Call} (h : Evolves sb 0 s s') : Done sb p c s s' := ⟨h.world, .minor h.minors⟩

section

variable (hL : Layout sb) (hw : World sb 0 0 s) (hp : p < NPROC) (hu : (s.proc p).state = .used)
  (hG : Guard E (view sb s.core.disk))
include hL hw hp hu hG

theorem world_sys_link {m m' : List UInt8} :
    Wp (Ev E) (sys_link sb p m m') s fun r s' =>
      Done sb p (.link m m') s s' ∧ (r = -1 → view sb s'.core.disk = view sb s.core.disk) := by
  rw [sys_link]
  cases hm : argstr m with
  | none => exact ⟨.of_evolves (.refl hw), fun _ => rfl⟩
  | some old =>
    cases hm' : argstr m' with
    | none => exact ⟨.of_evolves (.refl hw), fun _ => rfl⟩
    | some new =>
      simp only [wp_bind, wp_get, wp_pure]
      have hb := hw.begun
      have hlink : Wp E (link sb (s.proc p).cwd old new) (begun s.core) _ :=
        wp_link hL hG.iget hb.ready (hb.cwd_pos hp hu) hb.dirs hG.closed Nat.one_pos (argstr_zero hm')
      refine (world_transaction (y := fun _ => 0) hw hlink fun r t ht => ?_).mono fun r s' ⟨t, ht, e, hw', hw1⟩ => ?_
      · cases ht with
        | fail h => exact hb.during_zero h.during hb.dirs .refl
        | @done i d e n nm name hwalk h0 _ he hn _ h =>
          have htd : (view sb s.core.disk d).type = T_DIR := walkFrom_parent he.walk
          have hi : Nameable sb i := ⟨lt_of_type h0, fun _ => hw.live hp hu hwalk⟩
          exact hb.during_zero h (dirs_linked hL hb.dirs hi htd he.le hn).release ((keeps_linked htd).trans fun _ => release_type)
      · subst e
        cases ht with
        | fail h =>
          exact ⟨⟨hw', .same h.view (committed_ended hL hw1 h.logs.past)⟩, fun _ => h.view⟩
        | done h1 h2 h3 he hn hh h =>
          exact ⟨⟨hw', .link rfl hm hm' h1 h2 h3 he hn hh h.view (committed_ended hL hw1 h.logs.past)⟩, nofun⟩

theorem world_sys_unlink {m : List UInt8} :
    Wp (Ev E) (sys_unlink sb p m) s fun r s' =>
      Done sb p (.unlink m) s s' ∧ (r = -1 → view sb s'.core.disk = view sb s.core.disk) := by
  rw [sys_unlink]
  cases hm : argstr m with
  | none => exact ⟨.of_evolves (.refl hw), fun _ => rfl⟩
  | some path =>
    simp only [wp_bind, wp_get, wp_pure]
    have hb := hw.begun
    have hun : Wp E (unlink sb (s.proc p).cwd path) (begun s.core) _ :=
      wp_unlink hL hG.iget hb.ready (hb.cwd_pos hp hu) hb.dirs hG.closed hG.linked Nat.one_pos
    refine (world_transaction (y := fun _ => 0) hw hun fun r t ht => ?_).mono fun r s' ⟨t, ht, e, hw', hw1⟩ => ?_
    · cases ht with
      | fail h => exact hb.during_zero h.during hb.dirs .refl
      | @done i d e n n' name he _ _ _ _ _ _ h =>
        have htd : (view sb s.core.disk d).type = T_DIR := walkFrom_parent he.walk
        exact hb.during_zero h (dirs_unlinked hL hb.dirs htd (find_some he.find).1) keeps_unlinked
    · subst e
      cases ht with
      | fail h => exact ⟨⟨hw', .same h.view (committed_ended hL hw1 h.logs.past)⟩, fun _ => h.view⟩
      | done he h1 h2 h3 h4 h5 h6 h =>
        exact ⟨⟨hw', .unlink rfl hm he h1 h2 h3 h4 h5 h6 h.view (committed_ended hL hw1 h.logs.past)⟩, nofun⟩

end

/-! ## Creating -/

theorem release_of_ne (hi : i ≠ d) : release V d k i = V i := by
  unfold release
  split
  · rw [update_of_ne hi]
  · rfl

theorem created_self {type major minor : Nat} (hi : i ≠ d) : created V type major minor i d e name i =
    if type = T_DIR then (newNode type major minor).withDots i d else newNode type major minor := by
  unfold created
  rw [update_of_ne hi, update_self]

theorem created_nlink {type major minor : Nat} (hi : i ≠ d) : (created V type major minor i d e name i).nlink = 1 := by
  rw [created_self hi]
  split <;> rfl

inductive CreatePutResult (sb : Superblock) [Lost sb] (s : Core) (cwd : Nat) (path : Option (List UInt8)) (type major minor : Nat)
    (s' : Core) : Bool → Prop
  | same {r : Bool} : During sb s 0 (view sb s.disk) s' → CreatePutResult sb s cwd path type major minor s' r
  | new {q : List UInt8} {i d e n : Nat} {name : List UInt8} : path = some q → Nameable sb i → view sb s.disk i = .free →
      0 < i → NewEntry (view sb s.disk) cwd q d e name → NameOk name → (0 < n ↔ Held s d) →
      During sb s 0 (release (created (view sb s.disk) type major minor i d e name) d n) s' →
      CreatePutResult sb s cwd path type major minor s' true

theorem wp_createPut (hL : Layout sb) {c : Core} (hG : Guard E (view sb c.disk)) (hr : Ready sb (refs c) c) {cwd : Nat}
    (hc : 0 < refs c cwd) (hd : Dirs sb (view sb c.disk)) (ho : 0 < c.outstanding) {path : Option (List UInt8)}
    (hpath : ∀ q, path = some q → 0 ∉ q) {type major minor : Nat} (hty : type ≠ 0) (htl : type < 2 ^ 16)
    (hmaj : major < 2 ^ 16) (hmin : minor < 2 ^ 16) :
    Wp E (createPut sb cwd path type major minor) c fun r c' =>
      CreatePutResult sb c (c.itable cwd).inum path type major minor c' r := by
  cases path with
  | none => exact .same (during_zero hr)
  | some path =>
    simp only [createPut, wp_bind]
    refine (wp_create hL hG.iget hr hc hd hG.closed ho (hpath path rfl) hty htl hmaj hmin).mono fun r t ht => ?_
    cases ht with
    | fail h _ => exact .same h.during
    | old _ _ h _ _ =>
      simp only [wp_bind]
      exact (wp_putSame hr h).mono fun _ t' h' => .same h'.during
    | @new i j d e n name hfree hpos he hn hh h hj _ _ =>
      simp only [wp_bind]
      have htd : (view sb c.disk d).type = T_DIR := walkFrom_parent he.walk
      have hid : i ≠ d := ne_of_free hfree htd
      rw [← zero_add (one j)] at h
      refine (h.release hL hj ho).mono fun _ t' ⟨h', _⟩ => ?_
      rw [release_of_nlink (by rw [release_of_ne hid, created_nlink hid]; decide)] at h'
      exact .new rfl (h.ready.inv.nameable hj) hfree hpos he hn hh h'

section

variable (hL : Layout sb) (hw : World sb 0 0 s) (hp : p < NPROC) (hu : (s.proc p).state = .used)
  (hG : Guard E (view sb s.core.disk))
include hL hw hp hu hG

theorem world_createPut {m : List UInt8} {type major minor : Nat} {c : Call} (hty : type ≠ 0)
    (htl : type < 2 ^ 16) (hmaj : major < 2 ^ 16) (hmin : minor < 2 ^ 16)
    (hc : c.creates = (argstr m).map (·, type, major, minor)) :
    Wp (Ev E) (do
      let cwd := ((← get).proc p).cwd
      return result (← transaction (createPut sb cwd (argstr m) type major minor))) s fun r s' =>
        Done sb p c s s' ∧ (r = -1 → view sb s'.core.disk = view sb s.core.disk) := by
  simp only [wp_bind, wp_get, wp_pure]
  have hb := hw.begun
  have hcp : Wp E (createPut sb (s.proc p).cwd (argstr m) type major minor) (begun s.core) _ :=
    wp_createPut (c := begun s.core) hL hG hb.ready
    (hb.cwd_pos hp hu) hb.dirs Nat.one_pos (fun q hq => argstr_zero hq) hty htl hmaj hmin
  refine (world_transaction (y := fun _ => 0) hw hcp fun r t ht => ?_).mono fun r s' ⟨t, ht, e, hw', hw1⟩ => ?_
  · cases ht with
    | same h => exact hb.during_zero h hb.dirs .refl
    | @new q i d e n name hq hi hfree _ he hn _ h =>
      have htd : (view sb s.core.disk d).type = T_DIR := walkFrom_parent he.walk
      have hdl : Nameable sb d := ⟨lt_of_type (by rw [htd]; decide), fun _ => hw.live hp hu he.walk⟩
      have hf : (view sb s.core.disk i).type = 0 := congrArg Node.type hfree
      exact hb.during_zero h (dirs_created hL hb.dirs hi hdl htd he.le hn).release
        ((keeps_created hf htd).trans fun _ => release_type)
  · subst e
    cases ht with
    | same h => exact ⟨⟨hw', .same h.view (committed_ended hL hw1 h.logs.past)⟩, fun _ => h.view⟩
    | new hq hi hfree hpos he hn hh h =>
      rw [hq] at hc
      exact ⟨⟨hw', .create hc hi.lt hfree hpos he hn hh h.view (committed_ended hL hw1 h.logs.past)⟩, nofun⟩

theorem world_sys_mkdir {m : List UInt8} :
    Wp (Ev E) (sys_mkdir sb p m) s fun r s' =>
      Done sb p (.mkdir m) s s' ∧ (r = -1 → view sb s'.core.disk = view sb s.core.disk) :=
  world_createPut hL hw hp hu hG (by decide) (by decide) (by decide) (by decide) rfl

theorem world_sys_mknod {m : List UInt8} {major minor : Int} :
    Wp (Ev E) (sys_mknod sb p m major minor) s fun r s' =>
      Done sb p (.mknod m major minor) s s' ∧ (r = -1 → view sb s'.core.disk = view sb s.core.disk) := by
  have hlt : ∀ z : Int, (z % 2 ^ 16).toNat < 2 ^ 16 := fun z => by omega
  exact world_createPut hL hw hp hu hG (by decide) (by decide) (hlt major) (hlt minor) rfl

end

end

end Xv6.Fs
