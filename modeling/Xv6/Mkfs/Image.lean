/-
  Xv6.Mkfs.Image — the image that a run of mkfs leaves (see `Xv6.Mkfs.Model`).

  The counters are not checked: `freeinode` may pass NINODES, while `freeblock` cannot pass the
  image, where `rsect` dies. The root directory's size is rounded up by a whole block if it is a
  multiple of the block size, and then has a block too few. A file named "." gets an entry that
  does not count as a link.
-/

import Xv6.Mkfs.Append
import Xv6.Fs.Reach

namespace Xv6.Mkfs

open Fs (Dinode Dirent ptr blk place owner Agree dinode)
open Function (update update_self update_of_ne update_eq_self)
open Lib (Wp wp_bind wp_ite)

/-! ## The root directory -/

def dirBytes (es : List Dirent) : List UInt8 := es.flatMap fun e => dirent e.inum e.name

/-- The entries of the files, with inode numbers from `n` on. -/
def entriesFrom : Nat → List File → List Dirent
  | _, [] => []
  | n, f :: files => ⟨n, f.shortname⟩ :: entriesFrom (n + 1) files

def rootEntries (files : List File) : List Dirent :=
  ⟨ROOTINO, Fs.dot⟩ :: ⟨ROOTINO, Fs.dotdot⟩ :: entriesFrom (ROOTINO + 1) files

/-- The entry can be written and read back. -/
structure Writable (e : Dirent) : Prop where
  inum : e.inum < 2 ^ 16
  length : e.name.length ≤ DIRSIZ
  nul : 0 ∉ e.name

theorem length_dirent (n : Nat) (name : List UInt8) : (dirent n name).length = 16 := by
  rw [dirent, List.length_map, List.length_range]

theorem length_dirBytes (es : List Dirent) : (dirBytes es).length = 16 * es.length := by
  induction es with
  | nil => rfl
  | cons e es ih =>
    rw [dirBytes, List.flatMap_cons, List.length_append, length_dirent, ← dirBytes, ih, List.length_cons]
    omega

/-- The bytes of entry `e`. -/
def cut (c : List UInt8) (e : Nat) : List UInt8 := (List.range 16).map fun k => c.getD (16 * e + k) 0

theorem cut_zero (x : Dirent) (es : List Dirent) : cut (dirBytes (x :: es)) 0 = (List.range 16).map x.byte := by
  refine List.map_congr_left fun k hk => ?_
  have hk := List.mem_range.mp hk
  have hlen : (dirent x.inum x.name).length = 16 := length_dirent ..
  rw [dirBytes, List.flatMap_cons, List.getD_append _ _ _ _ (by omega), List.getD_eq_getElem _ _ (by omega)]
  simp only [dirent, List.getElem_map, List.getElem_range, Nat.mul_zero, Nat.zero_add]

theorem cut_succ (x : Dirent) (es : List Dirent) (e : Nat) : cut (dirBytes (x :: es)) (e + 1) = cut (dirBytes es) e := by
  refine List.map_congr_left fun k _ => ?_
  have hlen : (dirent x.inum x.name).length = 16 := length_dirent ..
  rw [dirBytes, List.flatMap_cons, List.getD_append_right _ _ _ _ (by omega), ← dirBytes, hlen]
  congr 1
  omega

theorem ofBytes_cut {es : List Dirent} (h : ∀ x ∈ es, Writable x) (e : Nat) :
    Dirent.ofBytes (cut (dirBytes es) e) = es.getD e ⟨0, []⟩ := by
  induction es generalizing e with
  | nil =>
    have : cut (dirBytes []) e = (List.range 16).map fun _ => 0 := rfl
    rw [this]
    rfl
  | cons x es ih =>
    cases e with
    | zero =>
      have hx := h x (List.mem_cons_self ..)
      rw [cut_zero, Dirent.ofBytes_byte hx.inum, Fs.cut_of_le hx.length hx.nul]
      rfl
    | succ e =>
      rw [cut_succ, ih fun y hy => h y (List.mem_cons_of_mem _ hy)]
      rfl

theorem length_entriesFrom (n : Nat) (files : List File) : (entriesFrom n files).length = files.length := by
  induction files generalizing n with
  | nil => rfl
  | cons f files ih => rw [entriesFrom, List.length_cons, ih, List.length_cons]

theorem length_rootEntries (files : List File) : (rootEntries files).length = files.length + 2 := by
  rw [rootEntries, List.length_cons, List.length_cons, length_entriesFrom]

theorem entriesFrom_append (n : Nat) (files : List File) (f : File) :
    entriesFrom n (files ++ [f]) = entriesFrom n files ++ [⟨n + files.length, f.shortname⟩] := by
  induction files generalizing n with
  | nil => rfl
  | cons g files ih =>
    rw [List.cons_append, entriesFrom, ih, entriesFrom, List.cons_append, List.length_cons]
    congr 4
    omega

theorem dirBytes_append (files : List File) (f : File) :
    dirBytes (rootEntries (files ++ [f])) = dirBytes (rootEntries files) ++ dirent (files.length + 2) f.shortname := by
  have e : ROOTINO + 1 + files.length = files.length + 2 := by
    show 2 + files.length = _
    omega
  rw [rootEntries, entriesFrom_append, e, rootEntries]
  simp only [dirBytes, List.flatMap_cons, List.flatMap_append, List.flatMap_nil, List.append_nil, List.append_assoc]

theorem mem_entriesFrom {n : Nat} {x : Dirent} {files : List File} (h : x ∈ entriesFrom n files) :
    n ≤ x.inum ∧ x.inum < n + files.length := by
  induction files generalizing n with
  | nil => exact absurd h List.not_mem_nil
  | cons f files ih =>
    rw [List.length_cons]
    rcases List.mem_cons.mp h with rfl | h
    · show n ≤ n ∧ n < _
      omega
    · have := ih h
      omega

theorem mem_rootEntries {x : Dirent} {files : List File} (h : x ∈ rootEntries files) :
    1 ≤ x.inum ∧ x.inum < files.length + 2 := by
  rcases List.mem_cons.mp h with rfl | h
  · show 1 ≤ 1 ∧ 1 < _
    omega
  · rcases List.mem_cons.mp h with rfl | h
    · show 1 ≤ 1 ∧ 1 < _
      omega
    · have : 2 ≤ x.inum ∧ x.inum < 2 + files.length := mem_entriesFrom h
      omega

theorem File.shortname_nul (f : File) : 0 ∉ f.shortname := by
  have hbase : 0 ∉ f.base := by
    unfold File.base
    split
    · exact fun h => f.nul (List.mem_of_mem_drop h)
    · exact f.nul
  unfold File.shortname
  split
  · exact fun h => hbase (List.mem_of_mem_tail h)
  · exact hbase

theorem writable_entriesFrom {n : Nat} {files : List File} (hn : n + files.length ≤ 2 ^ 16)
    (h : ∀ f ∈ files, f.shortname.length ≤ DIRSIZ) : ∀ x ∈ entriesFrom n files, Writable x := by
  induction files generalizing n with
  | nil => exact fun x hx => absurd hx (List.not_mem_nil)
  | cons f files ih =>
    rw [List.length_cons] at hn
    intro x hx
    rcases List.mem_cons.mp hx with rfl | hx
    · exact ⟨by show n < _; omega, h f (List.mem_cons_self ..), f.shortname_nul⟩
    · exact ih (by omega) (fun g hg => h g (List.mem_cons_of_mem _ hg)) x hx

theorem writable_rootEntries {files : List File} (hn : files.length ≤ NINODES - 2)
    (h : ∀ f ∈ files, f.shortname.length ≤ DIRSIZ) : ∀ x ∈ rootEntries files, Writable x := by
  intro x hx
  rcases List.mem_cons.mp hx with rfl | hx
  · exact ⟨by decide, by decide, by decide⟩
  · rcases List.mem_cons.mp hx with rfl | hx
    · exact ⟨by decide, by decide, by decide⟩
    · refine writable_entriesFrom ?_ h x hx
      have : NINODES - 2 + 2 ≤ 2 ^ 16 := by decide
      show 2 + files.length ≤ _
      omega

/-! ## Links -/

/-- A link to inode `i`. -/
def linksTo (i : Nat) (e : Dirent) : Bool := e.inum == i && e.name != Fs.dot

theorem countP_lt {n i : Nat} (h : i < n) (files : List File) : (entriesFrom n files).countP (linksTo i) = 0 := by
  induction files generalizing n with
  | nil => rfl
  | cons f files ih =>
    have hne : linksTo i ⟨n, f.shortname⟩ = false := by
      have : (n == i) = false := by simp; omega
      rw [linksTo, this, Bool.false_and]
    rw [entriesFrom, List.countP_cons_of_neg (by rw [hne]; simp), ih (by omega)]

theorem countP_entriesFrom (n : Nat) (files : List File) :
    (∀ i, n ≤ i → i < n + files.length → (entriesFrom n files).countP (linksTo i) = 1) ↔ ∀ f ∈ files, f.shortname ≠ Fs.dot := by
  induction files generalizing n with
  | nil => simp; omega
  | cons f files ih =>
    have hself : (entriesFrom n (f :: files)).countP (linksTo n) = if f.shortname = Fs.dot then 0 else 1 := by
      rw [entriesFrom, List.countP_cons, countP_lt (Nat.lt_succ_self n)]
      by_cases h : f.shortname = Fs.dot <;> simp [linksTo, h]
    have hother : ∀ i, n + 1 ≤ i → (entriesFrom n (f :: files)).countP (linksTo i) =
      (entriesFrom (n + 1) files).countP (linksTo i) := by
      intro i hi
      have : (n == i) = false := by simp; omega
      rw [entriesFrom, List.countP_cons_of_neg (by simp [linksTo, this])]
    rw [List.forall_mem_cons, ← ih (n + 1), List.length_cons]
    constructor
    · intro h
      refine ⟨fun hf => ?_, fun i h1 h2 => ?_⟩
      · have := h n (Nat.le_refl _) (by omega)
        rw [hself, if_pos hf] at this
        omega
      · rw [← hother i h1]
        exact h i (by omega) (by omega)
    · rintro ⟨hf, h⟩ i h1 h2
      rcases Nat.lt_or_ge n i with hlt | hge
      · rw [hother i hlt]
        exact h i hlt (by omega)
      · obtain rfl : i = n := by omega
        rw [hself, if_neg hf]

theorem countP_rootEntries (files : List File) :
    (∀ i, 1 ≤ i → i < files.length + 2 → (rootEntries files).countP (linksTo i) = 1) ↔ ∀ f ∈ files, f.shortname ≠ Fs.dot := by
  rw [← countP_entriesFrom (ROOTINO + 1) files]
  have hroot : (rootEntries files).countP (linksTo 1) = 1 := by
    rw [rootEntries, List.countP_cons, List.countP_cons, countP_lt (by decide)]
    rfl
  have hother : ∀ i, 2 ≤ i → (rootEntries files).countP (linksTo i) = (entriesFrom (ROOTINO + 1) files).countP (linksTo i) := by
    intro i hi
    have : (ROOTINO == i) = false := by
      have : ROOTINO ≠ i := by show 1 ≠ i; omega
      simpa using this
    rw [rootEntries, List.countP_cons_of_neg (by simp [linksTo, this]), List.countP_cons_of_neg (by simp [linksTo, this])]
  have e : ROOTINO + 1 = 2 := rfl
  rw [e] at hother ⊢
  constructor
  · intro h i h1 h2
    rw [← hother i h1]
    exact h i (by omega) (by omega)
  · intro h i h1 h2
    rcases Nat.lt_or_ge 1 i with hlt | hge
    · rw [hother i hlt]
      exact h i hlt (by omega)
    · obtain rfl : i = 1 := by omega
      exact hroot

/-! ## The files -/

/-- A file of one `read` at most that `main` takes. -/
structure File.Plain (f : File) : Prop where
  slash : Fs.slash ∉ f.base
  data : ∃ chunks, f.data = some chunks ∧ chunks.length ≤ 1
  length : f.shortname.length ≤ DIRSIZ

/-- The root directory has no more entries than there are inodes, and the other files have a block each at most. -/
structure Small (F : Nat → List UInt8) : Prop where
  root : (F ROOTINO).length ≤ 16 * NINODES
  files : ∀ k, k ≠ ROOTINO → (F k).length ≤ BSIZE

/-- The root directory has the entries of `files`, and every inode has one link. -/
structure Loaded (files : List File) (F : Nat → List UInt8) (t : St) : Prop where
  image : Image F t
  root : F ROOTINO = dirBytes (rootEntries files)
  free : t.freeinode = files.length + 2
  names : ∀ f ∈ files, f.shortname.length ≤ DIRSIZ
  type : ∀ k, 1 ≤ k → k < files.length + 2 → (dinode sb t.img k).type = if k = ROOTINO then T_DIR else T_FILE
  nlink : ∀ k, 1 ≤ k → k < files.length + 2 → (dinode sb t.img k).nlink = 1
  plain : (∀ f ∈ files, f.Plain) → ∀ k, k ≠ ROOTINO → (F k).length ≤ BSIZE

section

variable {E : Fail → Prop} {F : Nat → List UInt8} {t : St} {files : List File} {i : Nat}

theorem Small.set_root (h : ∀ k, k ≠ ROOTINO → (F k).length ≤ BSIZE) {p : List UInt8} (hp : p.length ≤ 16 * NINODES) :
    Small (update F ROOTINO p) :=
  ⟨by rwa [update_self], fun k hk => by rw [update_of_ne hk]; exact h k hk⟩

theorem Small.set_file (h : Small F) (hi : i ≠ ROOTINO) {c : List UInt8} (hc : c.length ≤ BSIZE) : Small (update F i c) where
  root := by
    rw [update_of_ne (Ne.symm hi)]
    exact h.root
  files k hk := by
    by_cases e : k = i
    · rwa [e, update_self]
    · rw [update_of_ne e]
      exact h.files k hk

theorem Small.room (h : Small F) : nmeta + ∑ k : Fin NINODES, need (blocksOf (F k).length) ≤ FSSIZE := by
  obtain ⟨r, hr⟩ : ∃ r : Fin NINODES, r.val = ROOTINO := ⟨⟨ROOTINO, by decide⟩, rfl⟩
  -- four blocks at most for the root directory
  have hle (k : Fin NINODES) : need (blocksOf (F k).length) ≤ 1 + if k = r then 4 else 0 := by
    split
    · rename_i e
      rw [e, hr]
      exact Nat.le_trans (need_mono (blocksOf_mono h.root)) (by decide)
    · rename_i e
      exact Nat.le_trans (need_mono (blocksOf_mono (h.files k fun h => e (Fin.ext (h.trans hr.symm))))) (by decide)
  have hsum := Finset.sum_le_sum fun k (_ : k ∈ Finset.univ) => hle k
  rw [Finset.sum_add_distrib, Finset.sum_ite_eq', if_pos (Finset.mem_univ _), Finset.sum_const, Finset.card_univ,
    Fintype.card_fin] at hsum
  exact Nat.le_trans (Nat.add_le_add_left hsum _) (by decide)

theorem wp_iappend_small (hI : Image F t) (hi : 1 ≤ i ∧ i < t.freeinode) {p : List UInt8}
    (hE : (∀ e, E e) ∨ Small (update F i (F i ++ p))) :
    Wp E (iappend i p) t fun _ t' => Image (update F i (F i ++ p)) t' ∧ Kept t t' := by
  rcases hE with hE | hs
  · exact wp_iappend hI hi (fun _ => hE _) fun _ => hE _
  · refine wp_iappend hI hi (fun hlong => ?_) fun hfull => absurd hs.room (Nat.not_le.mpr hfull)
    have hlen : (F i ++ p).length ≤ max (16 * NINODES) BSIZE := by
      by_cases e : i = ROOTINO
      · have := hs.root
        rw [← e, update_self] at this
        omega
      · have := hs.files i e
        rw [update_self] at this
        omega
    exact absurd (Nat.le_trans hlen (by decide)) (Nat.not_le.mpr hlong)

theorem wp_copyin (hI : Image F t) (hi : 1 ≤ i ∧ i < t.freeinode) {chunks : List (List UInt8)}
    (hE : (∀ e, E e) ∨ chunks.length ≤ 1 ∧ ∀ c : List UInt8, c.length ≤ BSIZE → Small (update F i (F i ++ c))) :
    Wp E (copyin i chunks) t fun _ t' =>
      ∃ c, Image (update F i (F i ++ c)) t' ∧ Kept t t' ∧ (chunks.length ≤ 1 → c.length ≤ BSIZE) := by
  have hdone : ∀ {P : Prop} {F : Nat → List UInt8} {t : St}, Image F t →
      ∃ c, Image (update F i (F i ++ c)) t ∧ Kept t t ∧ (P → c.length ≤ BSIZE) := fun hI =>
    ⟨[], by rw [List.append_nil, update_eq_self]; exact hI, .refl, fun _ => Nat.zero_le _⟩
  induction chunks generalizing F t with
  | nil => exact hdone hI
  | cons c cs ih =>
    have htake : (c.take BSIZE).length ≤ BSIZE := by rw [List.length_take]; omega
    simp only [copyin]
    refine wp_ite (fun _ => hdone hI) fun _ => ?_
    rw [wp_bind]
    refine (wp_iappend_small hI hi (hE.imp_right fun h => h.2 _ htake)).mono fun _ t1 ⟨hI1, hk1⟩ => ?_
    have hi1 : 1 ≤ i ∧ i < t1.freeinode := by rw [hk1.freeinode]; exact hi
    cases cs with
    | nil => exact ⟨c.take BSIZE, hI1, hk1, fun _ => htake⟩
    | cons c' cs =>
      have hE : ∀ e, E e := hE.resolve_right fun h => absurd h.1 (by simp)
      refine (ih hI1 hi1 (.inl hE)).mono fun _ t2 ⟨d, hI2, hk2, _⟩ => ⟨c.take BSIZE ++ d, ?_, hk1.trans hk2, fun h => ?_⟩
      · rwa [update_self, Function.update_idem, List.append_assoc] at hI2
      · simp at h

theorem wp_addFile (hL : Loaded files F t) (hn : files.length + 2 < NINODES) {f : File}
    (hE : (∀ e, E e) ∨ ∀ g ∈ files ++ [f], g.Plain) :
    Wp E (addFile ROOTINO f) t fun _ t' => ∃ F', Loaded (files ++ [f]) F' t' := by
  have hplain : (∀ e, E e) ∨ f.Plain := hE.imp_right fun h => h f (by simp)
  simp only [addFile, wp_bind]
  refine wp_assert (fun _ => ?_) fun hbad => hplain.elim (fun h => h _) fun h => absurd h.slash hbad
  cases hdata : f.data with
  | none =>
    refine hplain.elim (fun h => h _) fun h => ?_
    obtain ⟨_, e, _⟩ := h.data
    cases hdata.symm.trans e
  | some chunks =>
    simp only [wp_bind]
    refine wp_assert (fun hname => ?_) fun hbad => hplain.elim (fun h => h _) fun h => absurd h.length hbad
    refine (wp_ialloc hL.image (by rw [hL.free]; exact hn) (by decide) (by decide)).mono fun r t1 h => ?_
    obtain ⟨hr, hI1, hf1, hd1, ho1⟩ := h
    rw [hL.free] at hr hf1
    subst hr
    have hlen : (F ROOTINO ++ dirent (files.length + 2) f.shortname).length ≤ 16 * NINODES := by
      rw [hL.root, List.length_append, length_dirBytes, length_rootEntries, length_dirent]
      omega
    have h1 : 1 ≤ ROOTINO ∧ ROOTINO < t1.freeinode := ⟨Nat.le_refl 1, by rw [hf1]; show 1 < _; omega⟩
    have hsmall (h : ∀ g ∈ files ++ [f], g.Plain) : Small (update F ROOTINO _) :=
      .set_root (hL.plain fun g hg => h g (List.mem_append_left _ hg)) hlen
    refine (wp_iappend_small hI1 h1 (hE.imp_right hsmall)).mono fun _ t2 h => ?_
    obtain ⟨hI2, hk2⟩ := h
    have hne : files.length + 2 ≠ ROOTINO := by show _ ≠ 1; omega
    have hF : update F ROOTINO (F ROOTINO ++ dirent (files.length + 2) f.shortname) (files.length + 2) = [] := by
      rw [update_of_ne hne]
      exact (hL.image.built.rest _ hn (.inr (Nat.le_of_eq hL.free))).2.2
    have hone (h : ∀ g ∈ files ++ [f], g.Plain) : chunks.length ≤ 1 := by
      obtain ⟨_, e, hle⟩ := (h f (by simp)).data
      cases hdata.symm.trans e
      exact hle
    have hi2 : 1 ≤ files.length + 2 ∧ files.length + 2 < t2.freeinode := by rw [hk2.freeinode, hf1]; omega
    refine (wp_copyin hI2 hi2 (hE.imp_right fun h => ⟨hone h, fun c hc => ?_⟩)).mono fun _ t3 h => ?_
    · rw [hF]
      exact (hsmall h).set_file hne hc
    obtain ⟨c, hI3, hk3, hc⟩ := h
    refine ⟨_, hI3, ?_, ?_, ?_, ?_, ?_, ?_⟩
    · rw [update_of_ne (Ne.symm hne), update_self, hL.root, dirBytes_append]
    · rw [hk3.freeinode, hk2.freeinode, hf1, List.length_append]
      rfl
    · intro g hg
      rcases List.mem_append.mp hg with hg | hg
      · exact hL.names g hg
      · rw [List.mem_singleton.mp hg]
        exact hname
    · intro k h1 h2
      rw [List.length_append, List.length_singleton] at h2
      have hk : k < NINODES := by omega
      rw [(hk3.kind k hk).1, (hk2.kind k hk).1]
      by_cases e : k = files.length + 2
      · rw [e, hd1, if_neg hne]
        rfl
      · rw [ho1 k hk e]
        exact hL.type k h1 (by omega)
    · intro k h1 h2
      rw [List.length_append, List.length_singleton] at h2
      have hk : k < NINODES := by omega
      rw [(hk3.kind k hk).2, (hk2.kind k hk).2]
      by_cases e : k = files.length + 2
      · rw [e, hd1]
        rfl
      · rw [ho1 k hk e]
        exact hL.nlink k h1 (by omega)
    · intro h
      rw [hF]
      exact ((hsmall h).set_file hne (hc (hone h))).files

theorem wp_addFiles {rest : List File} (hL : Loaded files F t) (hn : files.length + rest.length + 2 ≤ NINODES)
    (hE : (∀ e, E e) ∨ ∀ g ∈ files ++ rest, g.Plain) :
    Wp E (rest.forM (addFile ROOTINO)) t fun _ t' => ∃ F', Loaded (files ++ rest) F' t' := by
  induction rest generalizing files F t with
  | nil => exact ⟨F, by rw [List.append_nil]; exact hL⟩
  | cons f rest ih =>
    rw [List.length_cons] at hn
    show Wp E (addFile ROOTINO f >>= fun _ => rest.forM (addFile ROOTINO)) t _
    rw [wp_bind]
    have e : files ++ [f] ++ rest = files ++ f :: rest := by rw [List.append_assoc]; rfl
    rw [← e] at hE ⊢
    refine (wp_addFile hL (by omega) (hE.imp_right fun h g hg => h g (List.mem_append_left _ hg))).mono fun _ t1 ⟨F1, hL1⟩ => ?_
    refine ih hL1 ?_ hE
    rw [List.length_append, List.length_singleton]
    omega

theorem wp_root {c : Nat → M Unit} {Q : Unit → St → Prop} (hc : ∀ F t, Loaded [] F t → Wp E (c ROOTINO) t Q) : Wp E (do
    let rootino ← ialloc T_DIR
    assert (rootino = ROOTINO)
    iappend rootino (dirent rootino Fs.dot)
    iappend rootino (dirent rootino Fs.dotdot)
    c rootino) ⟨empty, FSSIZE, 1, nmeta⟩ Q := by
  simp only [wp_bind]
  refine (wp_ialloc image_empty (by decide) (by decide) (by decide)).mono fun r t1 h => ?_
  obtain ⟨hr : r = ROOTINO, hI1, hf1, hd1, -⟩ := h
  subst hr
  refine wp_assert (fun _ => ?_) fun h => absurd rfl h
  have h1 : 1 ≤ ROOTINO ∧ ROOTINO < t1.freeinode := ⟨Nat.le_refl 1, by rw [hf1]; decide⟩
  have hs1 : Small (update (fun _ => []) ROOTINO ([] ++ dirent ROOTINO Fs.dot)) :=
    .set_root (fun _ _ => Nat.zero_le _) (by rw [List.nil_append, length_dirent]; decide)
  refine (wp_iappend_small hI1 h1 (.inr hs1)).mono fun _ t2 h => ?_
  obtain ⟨hI2, hk2⟩ := h
  have hs2 := Small.set_root hs1.files (p := ([] ++ dirent ROOTINO Fs.dot) ++ dirent ROOTINO Fs.dotdot) (by
    rw [List.nil_append, List.length_append, length_dirent, length_dirent]
    decide)
  refine (wp_iappend_small hI2 (by rw [hk2.freeinode]; exact h1) (.inr (by rw [update_self]; exact hs2))).mono
    fun _ t3 h3 => hc _ t3 ⟨h3.1, ?_, ?_, fun f hf => absurd hf List.not_mem_nil, fun k h1 h2 => ?_, fun k h1 h2 => ?_,
      fun _ => by rw [update_self]; exact hs2.files⟩
  · rw [update_self, update_self]
    rfl
  · rw [h3.2.freeinode, hk2.freeinode, hf1]
    rfl
  · obtain rfl : k = ROOTINO := Nat.le_antisymm (Nat.le_of_lt_succ h2) h1
    rw [(h3.2.kind _ (by decide)).1, (hk2.kind _ (by decide)).1, hd1, if_pos rfl]
    rfl
  · obtain rfl : k = ROOTINO := Nat.le_antisymm (Nat.le_of_lt_succ h2) h1
    rw [(h3.2.kind _ (by decide)).2, (hk2.kind _ (by decide)).2, hd1]
    rfl

/-! ## Inode numbers -/

/-- If `c` ends, it has taken `n` inode numbers. -/
def Takes (n : Nat) {α : Type} (c : M α) : Prop := ∀ t, Wp (fun _ => True) c t fun _ t' => t'.freeinode = t.freeinode + n

theorem Takes.bind {α β : Type} {m n : Nat} {c : M α} {f : α → M β} (hc : Takes m c) (hf : ∀ a, Takes n (f a)) :
    Takes (m + n) (c >>= f) := by
  intro t
  rw [wp_bind]
  refine (hc t).mono fun a u hu => (hf a u).mono fun _ v hv => ?_
  omega

theorem Takes.bind_zero {α β : Type} {n : Nat} {c : M α} {f : α → M β} (hc : Takes 0 c) (hf : ∀ a, Takes n (f a)) :
    Takes n (c >>= f) := by
  have := hc.bind hf
  rwa [Nat.zero_add] at this

theorem Takes.ite {α : Type} {n : Nat} {p : Prop} [Decidable p] {c d : M α} (hc : Takes n c) (hd : Takes n d) :
    Takes n (if p then c else d) := fun t => wp_ite (fun _ => hc t) fun _ => hd t

theorem takes_pure {α : Type} (a : α) : Takes 0 (pure a : M α) := fun _ => rfl

theorem takes_throw {α : Type} (n : Nat) (e : Fail) : Takes n (throw e : M α) := fun _ => trivial

theorem takes_get : Takes 0 (get : M St) := fun _ => rfl

theorem takes_assert (p : Prop) [Decidable p] : Takes 0 (assert p) := .ite (takes_pure _) (takes_throw _ _)

theorem takes_wsect (b : Nat) (v : Block) : Takes 0 (wsect b v) := fun _ => rfl

theorem takes_rsect (b : Nat) : Takes 0 (rsect b) := takes_get.bind_zero fun _ => .ite (takes_pure _) (takes_throw _ _)

theorem takes_newblock : Takes 0 newblock := fun _ => rfl

theorem takes_winode (i : Nat) (x : Dinode) : Takes 0 (winode i x) := (takes_rsect _).bind_zero fun _ => takes_wsect _ _

theorem takes_rinode (i : Nat) : Takes 0 (rinode i) := (takes_rsect _).bind_zero fun _ => takes_pure _

theorem takes_ialloc (type : Nat) : Takes 1 (ialloc type) := by
  have hnew : Takes 1 newinode := fun _ => rfl
  exact hnew.bind (n := 0) fun _ => (takes_winode _ _).bind_zero fun _ => takes_pure _

theorem takes_imapWord (x : Dinode) (fbn : Nat) : Takes 0 (imapWord x fbn) :=
  (takes_rsect _).bind_zero fun _ =>
    .ite (takes_newblock.bind_zero fun _ => (takes_wsect _ _).bind_zero fun _ => takes_pure _) (takes_pure _)

theorem takes_imap (x : Dinode) (fbn : Nat) : Takes 0 (imap x fbn) :=
  .ite (.ite (takes_newblock.bind_zero fun _ => takes_pure _) (takes_pure _))
    (.ite (takes_newblock.bind_zero fun _ => takes_imapWord _ _) (takes_imapWord _ _))

theorem takes_appendLoop (fuel : Nat) (x : Dinode) (off : Nat) (p : List UInt8) : Takes 0 (appendLoop fuel x off p) := by
  induction fuel generalizing x off p with
  | zero => exact takes_pure _
  | succ fuel ih =>
    exact .ite (takes_pure _) <| (takes_assert _).bind_zero fun _ => (takes_imap _ _).bind_zero fun _ =>
      (takes_rsect _).bind_zero fun _ => (takes_wsect _ _).bind_zero fun _ => ih _ _ _

theorem takes_iappend (i : Nat) (p : List UInt8) : Takes 0 (iappend i p) :=
  (takes_rinode _).bind_zero fun _ => (takes_appendLoop _ _ _ _).bind_zero fun _ => takes_winode _ _

theorem takes_copyin (i : Nat) (chunks : List (List UInt8)) : Takes 0 (copyin i chunks) := by
  induction chunks with
  | nil => exact takes_pure _
  | cons c cs ih => exact .ite (takes_pure _) ((takes_iappend _ _).bind_zero fun _ => ih)

theorem takes_addFile (i : Nat) (f : File) : Takes 1 (addFile i f) := by
  refine (takes_assert _).bind_zero fun _ => ?_
  cases f.data with
  | none => exact takes_throw _ _
  | some chunks =>
    exact (takes_assert _).bind_zero fun _ => (takes_ialloc _).bind (n := 0) fun _ =>
      (takes_iappend _ _).bind_zero fun _ => takes_copyin _ _

theorem takes_addFiles (i : Nat) (files : List File) : Takes files.length (files.forM (addFile i)) := by
  induction files with
  | nil => exact takes_pure _
  | cons f files ih =>
    rw [List.length_cons, Nat.add_comm]
    exact (takes_addFile i f).bind fun _ => ih

theorem takes_fixRoot (i : Nat) : Takes 0 (fixRoot i) := (takes_rinode _).bind_zero fun _ => takes_winode _ _

theorem takes_balloc (n : Nat) : Takes 0 (balloc n) := (takes_assert _).bind_zero fun _ => takes_wsect _ _

/-- Whether or not the inode table has room, each file takes an inode number. -/
theorem wp_main_freeinode : Wp (fun _ => True) (main files) start fun _ t => t.freeinode = files.length + 2 := by
  rw [main, wp_bind]
  refine wp_blank.mono fun _ t0 h0 => ?_
  subst h0
  have h : Takes (1 + files.length) (do
      let rootino ← ialloc T_DIR
      assert (rootino = ROOTINO)
      iappend rootino (dirent rootino Fs.dot)
      iappend rootino (dirent rootino Fs.dotdot)
      files.forM (addFile rootino)
      fixRoot rootino
      let s ← get
      balloc s.freeblock) :=
    (takes_ialloc _).bind fun _ => (takes_assert _).bind_zero fun _ => (takes_iappend _ _).bind_zero fun _ =>
      (takes_iappend _ _).bind_zero fun _ => (takes_addFiles _ _).bind (n := 0) fun _ =>
        (takes_fixRoot _).bind_zero fun _ => takes_get.bind_zero fun _ => takes_balloc _
  refine (h _).mono fun _ t ht => ?_
  have : t.freeinode = 1 + (1 + files.length) := ht
  omega

/-! ## The end of the run -/

/-- What `fixRoot` makes of the size. -/
def rounded (n : Nat) : Nat := (n / BSIZE + 1) * BSIZE

theorem rounded_eq {n : Nat} (h : (n + 2) % 64 ≠ 0) : rounded (16 * (n + 2)) = blocksOf (16 * (n + 2)) * BSIZE := by
  simp only [rounded, blocksOf, BSIZE]
  omega

/-- The bitmap block with the first `used` bits set. -/
def bitmap (used : Nat) : Block := (List.range used).foldl Fs.mark fun _ => 0

/-- The image when the files are in it, and after `fixRoot` and `balloc`. -/
def final (t : St) : St := { t with
  img := update (Fs.setDinode sb t.img ROOTINO
    { dinode sb t.img ROOTINO with size := rounded (dinode sb t.img ROOTINO).size }) sb.bmapstart (bitmap t.freeblock) }

theorem wp_main (hn : files.length + 2 ≤ NINODES) (hE : (∀ e, E e) ∨ ∀ f ∈ files, f.Plain) :
    Wp E (main files) start fun _ t => ∃ F u, Loaded files F u ∧ t = final u := by
  rw [main, wp_bind]
  refine wp_blank.mono fun _ t0 h0 => ?_
  subst h0
  refine wp_root (c := fun rootino => do
    files.forM (addFile rootino)
    fixRoot rootino
    let s ← get
    balloc s.freeblock) fun F t hL => ?_
  rw [wp_bind]
  refine (wp_addFiles hL (by rw [List.length_nil]; omega) hE).mono fun _ u ⟨F', hL'⟩ => ?_
  have hB := hL'.image.built
  simp only [fixRoot, wp_bind]
  refine wp_rinode hB.len (by decide) (wp_winode hB.len (by decide) ?_)
  simp only [Lib.wp_get, balloc, wp_bind]
  refine wp_assert (fun _ => ?_) fun h => absurd (Nat.lt_of_le_of_lt hB.room (by decide)) h
  exact wp_wsect hB.len (by decide) ⟨F', u, hL', rfl⟩

theorem marked_foldl (n bi : Nat) (b : Block) :
    Fs.marked ((List.range n).foldl Fs.mark b) bi = (decide (bi < n) || Fs.marked b bi) := by
  induction n with
  | zero => simp
  | succ n ih =>
    rw [List.range_succ, List.foldl_append, List.foldl_cons, List.foldl_nil, Fs.marked_mark, ih, ← Bool.or_assoc]
    congr 1
    rw [Bool.eq_iff_iff]
    simp only [Bool.or_eq_true, beq_iff_eq, decide_eq_true_eq]
    omega

theorem bit_final {b : Nat} (hb : b < FSSIZE) : Fs.bit sb (final t).img b = decide (b < t.freeblock) := by
  have h1 : b / BPB = 0 := Nat.div_eq_of_lt (Nat.lt_trans hb (by decide))
  have h2 : b % BPB = b := Nat.mod_eq_of_lt (Nat.lt_trans hb (by decide))
  have h3 : (final t).img sb.bmapstart = bitmap t.freeblock := by simp only [final, update_self]
  rw [Fs.bit, Fs.BBLOCK, h1, h2, Nat.zero_add, h3, bitmap, marked_foldl]
  have : Fs.marked (fun _ => 0) b = false := by simp [Fs.marked]
  rw [this, Bool.or_false]

theorem final_data {b : Nat} (hb : nmeta ≤ b) : (final t).img b = t.img b := by
  have h1 : sb.bmapstart < nmeta := by decide
  show update _ sb.bmapstart _ b = _
  rw [update_of_ne (by omega), setDinode_data (by decide) hb]

theorem final_inode {k : Nat} (hk : k < NINODES) : dinode sb (final t).img k =
    dinode sb (Fs.setDinode sb t.img ROOTINO { dinode sb t.img ROOTINO with size := rounded (dinode sb t.img ROOTINO).size }) k :=
  Fs.dinode_update_of_ne _ _ (Nat.ne_of_lt (Fs.IBLOCK_lt layout hk))

theorem final_other {k : Nat} (hk : k < NINODES) (h : k ≠ ROOTINO) : dinode sb (final t).img k = dinode sb t.img k := by
  rw [final_inode hk, Fs.dinode_setDinode_of_ne _ _ h]

def rootDir (t : St) : Fs.Node := Fs.view sb t.img ROOTINO

/-- What the kernel takes for granted, and more. -/
structure WellFormed (t : St) : Prop where
  /-- Every inode number used is one of the inode table. -/
  inums : t.freeinode ≤ sb.ninodes
  /-- The blocks of the inodes are distinct, data blocks, and the bitmap has a 1 for them and the metadata only. -/
  blocks : Fs.Blocks sb (dinode sb t.img) t.img
  /-- Every file has the blocks for its size. -/
  full : ∀ i < sb.ninodes, (dinode sb t.img i).type ≠ 0 → Fs.Sound t.img (dinode sb t.img i)
  /-- The root directory names allocated inodes. -/
  entries : ∀ e < (rootDir t).slots, ((rootDir t).entry e).inum ≠ 0 →
    ((rootDir t).entry e).inum < sb.ninodes ∧ (dinode sb t.img ((rootDir t).entry e).inum).type ≠ 0
  nlink : ∀ i < sb.ninodes, (dinode sb t.img i).type ≠ 0 →
    (dinode sb t.img i).nlink = ((List.range (rootDir t).slots).map (rootDir t).entry).countP (linksTo i)

section

variable (hL : Loaded files F t)
include hL

theorem Loaded.size : (dinode sb t.img ROOTINO).size = 16 * (files.length + 2) := by
  have hf := hL.image.built.files ROOTINO (by decide) (by rw [hL.free]; show 1 < _; omega)
  rw [hf.size, hL.root, length_dirBytes, length_rootEntries]

theorem Loaded.le : files.length + 2 ≤ NINODES := hL.free ▸ hL.image.built.inodes.2

theorem Loaded.final_root : dinode sb (final t).img ROOTINO =
    { dinode sb t.img ROOTINO with size := rounded (16 * (files.length + 2)) } := by
  have hfits : (dinode sb t.img ROOTINO).Fits := Fs.dinode_fits ..
  have hlt : rounded (16 * (files.length + 2)) < 2 ^ 32 := by
    have := hL.le
    simp only [rounded, BSIZE, NINODES] at *
    omega
  rw [final_inode (by decide), hL.size, Fs.dinode_setDinode]
  exact ⟨hfits.type, hfits.major, hfits.minor, hfits.nlink, hlt, hfits.addrs⟩

theorem Loaded.agree {k : Nat} (hk : k < NINODES) : Agree t.img (final t).img (dinode sb t.img k) := fun _ hq =>
  final_data (hL.image.built.range hk hq).1

theorem Loaded.type_final {k : Nat} (hk : k < NINODES) :
    (dinode sb (final t).img k).type = if k = 0 ∨ files.length + 2 ≤ k then 0 else if k = ROOTINO then T_DIR else T_FILE := by
  have h : (dinode sb (final t).img k).type = (dinode sb t.img k).type := by
    by_cases e : k = ROOTINO
    · rw [e, hL.final_root]
    · rw [final_other hk e]
  rw [h]
  split
  · rename_i hfree
    rw [(hL.image.built.rest k hk (by rw [hL.free]; exact hfree)).1]
    rfl
  · exact hL.type k (by omega) (by omega)

theorem Loaded.nlink_final {k : Nat} (h1 : 1 ≤ k) (h2 : k < files.length + 2) : (dinode sb (final t).img k).nlink = 1 := by
  have hk : k < NINODES := Nat.lt_of_lt_of_le h2 hL.le
  rw [← hL.nlink k h1 h2]
  by_cases e : k = ROOTINO
  · rw [e, hL.final_root]
  · rw [final_other hk e]

theorem Loaded.blocks : Fs.Blocks sb (dinode sb (final t).img) (final t).img := by
  have hB := hL.image.built
  have hptr : ∀ k < NINODES, ∀ q, ptr (final t).img (dinode sb (final t).img k) q = ptr t.img (dinode sb t.img k) q := by
    intro k hk q
    rw [← (hL.agree hk).ptr_eq]
    by_cases e : k = ROOTINO
    · rw [e, hL.final_root]
      rfl
    · rw [final_other hk e]
  refine ⟨?_, fun b h1 h2 => ?_, fun i => Fs.dinode_fits ..⟩
  · rw [Fs.owner_congr sb hptr]
    exact hB.own.congr_used fun b _ hb => bit_final hb
  · rw [bit_final h2, decide_eq_true_eq]
    exact Nat.lt_of_lt_of_le h1 hB.low

theorem Loaded.root_blks (n : Nat) : blk (final t).img (dinode sb (final t).img ROOTINO) n ≠ 0 ↔
    n < blocksOf (16 * (files.length + 2)) := by
  have hf := hL.image.built.files ROOTINO (by decide) (by rw [hL.free]; show 1 < _; omega)
  rw [hL.final_root, blk_size, blk, (hL.agree (by decide)).ptr_eq, ← blk, hf.blks n, hL.root, length_dirBytes, length_rootEntries]

theorem Loaded.sound {k : Nat} (hk : k < NINODES) (hne : k ≠ ROOTINO) (ht : (dinode sb (final t).img k).type ≠ 0) :
    Fs.Sound (final t).img (dinode sb (final t).img k) := by
  rw [hL.type_final hk] at ht
  split at ht
  · exact absurd rfl ht
  · rename_i h
    rw [final_other hk hne]
    exact ((hL.image.built.files k (by omega) (by rw [hL.free]; omega)).agree (hL.agree hk)).sound

theorem Loaded.root_sound : Fs.Sound (final t).img (dinode sb (final t).img ROOTINO) ↔ (files.length + 2) % 64 ≠ 0 := by
  have hle := hL.le
  have hsize : (dinode sb (final t).img ROOTINO).size = rounded (16 * (files.length + 2)) := by rw [hL.final_root]
  constructor
  · intro h hmod
    have := (hL.root_blks (16 * (files.length + 2) / BSIZE)).mp (h.full _ (by
      rw [hsize, rounded, Nat.add_mul, Nat.one_mul]
      exact Nat.lt_add_of_pos_right Fs.BSIZE_pos))
    simp only [blocksOf, BSIZE] at this
    omega
  · intro hmod
    refine ⟨?_, fun n hn => (hL.root_blks n).mpr ?_⟩
    · rw [hsize]
      simp only [rounded, BSIZE, NINODES, MAXFILE, NDIRECT, NINDIRECT] at *
      omega
    · rw [hsize, rounded_eq hmod] at hn
      exact Nat.lt_of_mul_lt_mul_right hn

theorem Loaded.root_type : (dinode sb (final t).img ROOTINO).type ≠ 0 := by
  rw [hL.type_final (by decide), if_neg (by show ¬ (1 = 0 ∨ _ ≤ 1); omega)]
  decide

theorem Loaded.slots : (rootDir (final t)).slots = rounded (16 * (files.length + 2)) / 16 := by
  rw [rootDir, Fs.view, if_pos (by decide), Fs.node_of_type hL.root_type, Fs.Node.slots, hL.final_root]

theorem Loaded.entry (hmod : (files.length + 2) % 64 ≠ 0) {e : Nat} (he : e < (rootDir (final t)).slots) :
    (rootDir (final t)).entry e = (rootEntries files).getD e ⟨0, []⟩ := by
  have hf := hL.image.built.files ROOTINO (by decide) (by rw [hL.free]; show 1 < _; omega)
  rw [hL.slots] at he
  have hbyte : ∀ k < 16, (rootDir (final t)).byte (16 * e + k) = (dirBytes (rootEntries files)).getD (16 * e + k) 0 := by
    intro k hk
    have hlt : 16 * e + k < rounded (16 * (files.length + 2)) := by
      simp only [rounded, BSIZE] at he ⊢
      omega
    have hm : 16 * e + k < blocksOf (F ROOTINO).length * BSIZE := by
      rwa [hL.root, length_dirBytes, length_rootEntries, ← rounded_eq hmod]
    rw [rootDir, Fs.view, if_pos (by decide), Fs.node_of_type hL.root_type, hL.final_root]
    show Fs.byteAt _ _ _ = _
    rw [Fs.byteAt, if_pos hlt, blk_size, ← hL.root]
    exact (hf.agree (hL.agree (by decide))).bytes _ hm
  rw [Fs.Node.entry, ← ofBytes_cut (writable_rootEntries (by have := hL.le; omega) hL.names) e, cut]
  congr 1
  exact List.map_congr_left fun k hk => hbyte k (List.mem_range.mp hk)

theorem Loaded.links (hmod : (files.length + 2) % 64 ≠ 0) {i : Nat} (hi : i ≠ 0) :
    ((List.range (rootDir (final t)).slots).map (rootDir (final t)).entry).countP (linksTo i) =
      (rootEntries files).countP (linksTo i) := by
  have hlen : (rootEntries files).length ≤ (rootDir (final t)).slots := by
    rw [hL.slots, length_rootEntries]
    simp only [rounded, BSIZE]
    omega
  have hmap : (List.range (rootDir (final t)).slots).map (rootDir (final t)).entry =
      rootEntries files ++ List.replicate ((rootDir (final t)).slots - (rootEntries files).length) ⟨0, []⟩ := by
    refine List.ext_getElem (by simp; omega) fun k h1 h2 => ?_
    have hk : k < (rootDir (final t)).slots := by simpa using h1
    rw [List.getElem_map, List.getElem_range, hL.entry hmod hk, List.getElem_append]
    split
    · rename_i h
      rw [List.getD_eq_getElem _ _ h]
    · rw [List.getD_eq_default _ _ (by omega), List.getElem_replicate]
  have h0 : linksTo i ⟨0, []⟩ = false := by
    have : (0 == i) = false := by simpa using Ne.symm hi
    rw [linksTo, this, Bool.false_and]
  rw [hmap, List.countP_append, List.countP_replicate, h0]
  simp

theorem Loaded.entry_inum (hmod : (files.length + 2) % 64 ≠ 0) {e : Nat} (he : e < (rootDir (final t)).slots)
    (h0 : ((rootDir (final t)).entry e).inum ≠ 0) :
    1 ≤ ((rootDir (final t)).entry e).inum ∧ ((rootDir (final t)).entry e).inum < files.length + 2 := by
  rw [hL.entry hmod he] at h0 ⊢
  rcases Nat.lt_or_ge e (rootEntries files).length with h | h
  · rw [List.getD_eq_getElem _ _ h]
    exact mem_rootEntries (List.getElem_mem h)
  · rw [List.getD_eq_default _ _ h] at h0
    exact absurd rfl h0

theorem Loaded.type_ne {k : Nat} (h1 : 1 ≤ k) (h2 : k < files.length + 2) : (dinode sb (final t).img k).type ≠ 0 := by
  rw [hL.type_final (Nat.lt_of_lt_of_le h2 hL.le), if_neg (by omega)]
  split <;> decide

theorem Loaded.wellFormed : WellFormed (final t) ↔ (files.length + 2) % 64 ≠ 0 ∧ ∀ f ∈ files, f.shortname ≠ Fs.dot := by
  have hle := hL.le
  have hused : ∀ k < NINODES, (dinode sb (final t).img k).type ≠ 0 → 1 ≤ k ∧ k < files.length + 2 := fun k hk ht => by
    rw [hL.type_final hk] at ht
    split at ht
    · exact absurd rfl ht
    · omega
  constructor
  · intro h
    have hmod := hL.root_sound.mp (h.full ROOTINO (by decide) (hL.type_ne (Nat.le_refl 1) (by show 1 < _; omega)))
    refine ⟨hmod, (countP_rootEntries files).mp fun i h1 h2 => ?_⟩
    rw [← hL.links hmod (by omega), ← h.nlink i (Nat.lt_of_lt_of_le h2 hle) (hL.type_ne h1 h2), hL.nlink_final h1 h2]
  · rintro ⟨hmod, hdot⟩
    refine ⟨?_, hL.blocks, fun i hi ht => ?_, fun e he h0 => ?_, fun i hi ht => ?_⟩
    · show t.freeinode ≤ _
      rw [hL.free]
      exact hle
    · by_cases e : i = ROOTINO
      · rw [e]
        exact hL.root_sound.mpr hmod
      · exact hL.sound hi e ht
    · obtain ⟨h1, h2⟩ := hL.entry_inum hmod he h0
      exact ⟨Nat.lt_of_lt_of_le h2 hle, hL.type_ne h1 h2⟩
    · obtain ⟨h1, h2⟩ := hused i hi ht
      rw [hL.nlink_final h1 h2, hL.links hmod (by omega), (countP_rootEntries files).mpr hdot i h1 h2]

end

end

/-! ## Every run -/

/-- For every run that ends, of which files whatever. -/
theorem mkfs_image {files : List File} {t : St} (h : main files start = .ok ((), t)) :
    WellFormed t ↔ files.length + 2 ≤ NINODES ∧ (files.length + 2) % 64 ≠ 0 ∧ ∀ f ∈ files, f.shortname ≠ Fs.dot := by
  have hfree := wp_main_freeinode.of_ok h
  by_cases hn : files.length + 2 ≤ NINODES
  · obtain ⟨F, u, hL, rfl⟩ := (wp_main (E := fun _ => True) hn (.inl fun _ => trivial)).of_ok h
    rw [hL.wellFormed]
    exact ⟨fun hw => ⟨hn, hw⟩, fun hw => hw.2⟩
  · refine ⟨fun hw => absurd ?_ hn, fun hw => absurd hw.1 hn⟩
    rw [← hfree]
    exact hw.inums

/-- The file `user/_f` with the bytes `hi`. -/
def hi : File := ⟨[0x75, 0x73, 0x65, 0x72, 0x2f, 0x5f, 0x66], by decide, some [[0x68, 0x69]]⟩

theorem main_hi : ∃ t, main [hi] start = .ok ((), t) ∧ ∃ F u, Loaded [hi] F u ∧ t = final u := by
  have hw : Wp (fun _ => False) (main [hi]) start _ :=
    wp_main (by decide) (.inr (by rintro f (_ | ⟨_, ⟨⟩⟩); exact ⟨by decide, ⟨_, rfl, by decide⟩, by decide⟩))
  obtain ⟨⟨⟩, t, h, hL⟩ := hw.returns
  exact ⟨t, h, hL⟩

theorem hi_names : ∀ f ∈ [hi], f.shortname ≠ Fs.dot := by decide

theorem mkfs_image_hi : ∃ t, main [hi] start = .ok ((), t) ∧ WellFormed t := by
  obtain ⟨t, h, -⟩ := main_hi
  exact ⟨t, h, (mkfs_image h).mpr ⟨by decide, by decide, hi_names⟩⟩

def sixtyTwo : List File := (List.finRange 62).map fun k : Fin 62 =>
  ⟨[0x61, UInt8.ofNat (0x30 + k.val)], by revert k; decide, some []⟩

theorem sixtyTwo_plain : ∀ f ∈ sixtyTwo, f.Plain := by
  intro f hf
  obtain ⟨k, -, rfl⟩ := List.mem_map.mp hf
  clear hf
  refine ⟨?_, ⟨[], rfl, by decide⟩, ?_⟩
  · revert k
    decide
  · revert k
    decide

/-- With the 64 entries the root directory's only block is full; its size says two blocks. -/
theorem full_root : ∃ t, main sixtyTwo start = .ok ((), t) ∧ ¬ WellFormed t := by
  have hlen : sixtyTwo.length = 62 := by rw [sixtyTwo, List.length_map, List.length_finRange]
  have hw : Wp (fun _ => False) (main sixtyTwo) start _ := wp_main (by rw [hlen]; decide) (.inr sixtyTwo_plain)
  obtain ⟨⟨⟩, t, h, F, u, hL, rfl⟩ := hw.returns
  refine ⟨_, h, fun hw => ?_⟩
  have := (hL.wellFormed.mp hw).1
  rw [hlen] at this
  exact this rfl

/-- Where it is well-formed the kernel can start from it. -/
theorem mkfs_boots {files : List File} {t : St} (h : main files start = .ok ((), t)) (hw : WellFormed t) : Fs.Image sb t.img := by
  have hfree := wp_main_freeinode.of_ok h
  have hn : files.length + 2 ≤ NINODES := hfree ▸ hw.inums
  obtain ⟨F, u, hL, rfl⟩ := (wp_main (E := fun _ => True) hn (.inl fun _ => trivial)).of_ok h
  have hmod := (hL.wellFormed.mp hw).1
  have hview : ∀ i, (Fs.view sb (final u).img i).type = T_DIR → i = ROOTINO := fun i hi => by
    unfold Fs.view at hi
    split at hi
    · rename_i hlt
      rw [Fs.node_type, hL.type_final hlt] at hi
      split at hi
      · cases hi
      · split at hi
        · assumption
        · cases hi
    · cases hi
  refine ⟨hw.blocks, hw.full, fun _ _ h => absurd rfl h, fun i hi _ ht => ?_,
    ⟨fun i _ hi => ?_, fun i _ hi e he => ⟨?_, fun _ => rfl⟩⟩, ?_⟩
  · rw [hL.type_final hi] at ht
    split at ht
    · exact absurd rfl ht
    · rw [hL.nlink_final (by omega) (by omega)]
      decide
  · rw [hview i hi]
    have ht := hL.type_ne (k := ROOTINO) (Nat.le_refl 1) (by show 1 < _; omega)
    rw [Fs.view, if_pos (by decide), Fs.node_of_type ht, hL.final_root]
    show rounded _ % 16 = 0
    simp only [rounded, BSIZE]
    omega
  · rw [hview i hi] at he ⊢
    by_cases h0 : ((Fs.view sb (final u).img ROOTINO).entry e).inum = 0
    · rw [h0]
      decide
    · exact Nat.lt_of_lt_of_le (hL.entry_inum hmod he h0).2 hn
  · rw [Fs.view, if_pos (by decide), Fs.node_type, hL.type_final (by decide), if_neg (by show ¬ (1 = 0 ∨ _ ≤ 1); omega),
      if_pos rfl]

theorem mkfs_boots_hi : ∃ t, main [hi] start = .ok ((), t) ∧ Fs.Image sb t.img := by
  obtain ⟨t, h, F, u, hL, rfl⟩ := main_hi
  exact ⟨_, h, mkfs_boots h (hL.wellFormed.mpr ⟨by decide, hi_names⟩)⟩

end Xv6.Mkfs
