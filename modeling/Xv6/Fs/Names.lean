/-
  Xv6.Fs.Names — directories and paths, in the file system as its users see it.

  A directory is a node whose bytes are entries of 16 bytes each (`Node.entry`), and `Dirs` says
  that those of every directory are whole and name inodes that there can be. `walk` is what a
  path leads to: the specification of `namex`.
-/

import Mathlib.Data.List.GetD
import Mathlib.Data.List.TakeWhile
import Xv6.Fs.Dir
import Xv6.Fs.View

namespace Xv6.Fs

namespace Node

def slots (v : Node) : Nat := v.size / 16

def entry (v : Node) (e : Nat) : Dirent := .ofBytes ((List.range 16).map fun k => v.byte (16 * e + k))

def named (v : Node) (name : List UInt8) (e : Nat) : Bool := decide ((v.entry e).inum ≠ 0) && namecmp name (v.entry e).name

def find (v : Node) (name : List UInt8) : Option Nat := Lib.first (v.named name) 0 v.slots

/-- The directory with another entry `e`, which may be one past its end. -/
def setEntry (v : Node) (e : Nat) (x : Dirent) : Node :=
  { v with
    size := max v.size (16 * e + 16)
    byte := fun o => if 16 * e ≤ o ∧ o < 16 * e + 16 then x.byte (o - 16 * e) else v.byte o }

/-- No entry but "." and ".." is in use. -/
def isEmpty (v : Node) : Prop := ∀ e, 2 ≤ e → e < v.slots → (v.entry e).inum = 0

end Node

/-- An entry may have this inode number. -/
structure Nameable (sb : Superblock) [Lost sb] (i : Nat) : Prop where
  lt : i < sb.ninodes
  live : i ≠ 0 → Live sb i

structure Dirs (sb : Superblock) [Lost sb] (V : Nat → Node) : Prop where
  size : ∀ i, Live sb i → (V i).type = T_DIR → (V i).size % 16 = 0
  names : ∀ i, Live sb i → (V i).type = T_DIR → ∀ e < (V i).slots, Nameable sb ((V i).entry e).inum

/-- No directory has an entry that names a free inode, and the root is there. -/
structure Closed (V : Nat → Node) : Prop where
  root : (V ROOTINO).type ≠ 0
  entry : ∀ i, (V i).type = T_DIR → ∀ e < (V i).slots, ((V i).entry e).inum ≠ 0 → (V ((V i).entry e).inum).type ≠ 0

/-- A path element as the kernel uses it. -/
structure NameOk (name : List UInt8) : Prop where
  length : name.length ≤ DIRSIZ
  zero : 0 ∉ name
  ne : name ≠ []

/-! ## Entries and bytes -/

/-- What an entry keeps of a name. -/
def cut (name : List UInt8) : List UInt8 := Str.cstr (Str.mem name) 0 DIRSIZ

theorem length_cut_le {name : List UInt8} : (cut name).length ≤ DIRSIZ := Str.length_cstr_le

theorem cut_of_le {name : List UInt8} (h : name.length ≤ DIRSIZ) (h0 : 0 ∉ name) : cut name = name := by
  rw [cut, Str.cstr_mem h0, List.drop_zero, List.take_of_length_le h]

theorem cut_cut {name : List UInt8} : cut (cut name) = cut name := cut_of_le length_cut_le Str.zero_not_mem_cstr

theorem namecmp_iff {s t : List UInt8} : namecmp s t = true ↔ cut s = cut t := by
  rw [namecmp, beq_iff_eq, Str.strncmp_eq_zero]
  rfl

theorem Dirent.byte_name (x : Dirent) {k : Nat} (hk : k < DIRSIZ) : x.byte (k + 2) = (cut x.name).getD k 0 := by
  have h : DIRSIZ = 14 := rfl
  rw [byte, if_neg (by omega), if_pos (by omega), Str.strncpy_apply, if_pos (by omega)]
  rfl

theorem Dirent.ofBytes_byte {x : Dirent} (hi : x.inum < 2 ^ 16) :
    Dirent.ofBytes ((List.range 16).map x.byte) = ⟨x.inum, cut x.name⟩ := by
  have hname : (Dirent.ofBytes ((List.range 16).map x.byte)).name = cut x.name := by
    rw [← cut_cut]
    refine Str.cstr_congr fun k _ hk => ?_
    have hk : k < DIRSIZ := by omega
    have hlt : k + 2 < 16 := Nat.add_lt_add_right hk 2
    rw [List.getD_eq_getElem _ _ (by simpa using hlt), List.getElem_map, List.getElem_range, x.byte_name hk]
    rfl
  have hinum : (Dirent.ofBytes ((List.range 16).map x.byte)).inum = x.inum :=
    half_of_bytes (b := fun k => byteOf x.inum k) (o := 0) rfl rfl hi
  rw [← hname, ← hinum]

section

variable {v : Node} {e m : Nat} {x : Dirent}

theorem entry_link (hi : x.inum < 2 ^ 16) : (v.setEntry e x).entry e = ⟨x.inum, cut x.name⟩ := by
  have : (List.range 16).map (fun k => (v.setEntry e x).byte (16 * e + k)) = (List.range 16).map x.byte := by
    refine List.map_congr_left fun k hk => ?_
    have hk := List.mem_range.mp hk
    show (if 16 * e ≤ 16 * e + k ∧ 16 * e + k < 16 * e + 16 then _ else _) = _
    rw [if_pos (by omega), Nat.add_sub_cancel_left]
  rw [Node.entry, this, Dirent.ofBytes_byte hi]

theorem entry_setEntry_self (hi : x.inum < 2 ^ 16) (hl : x.name.length ≤ DIRSIZ) (h0 : 0 ∉ x.name) :
    (v.setEntry e x).entry e = x := by
  rw [entry_link hi, cut_of_le hl h0]

theorem entry_setEntry_of_ne (h : m ≠ e) : (v.setEntry e x).entry m = v.entry m := by
  unfold Node.entry
  congr 1
  refine List.map_congr_left fun k hk => ?_
  have hk := List.mem_range.mp hk
  show (if 16 * e ≤ 16 * m + k ∧ 16 * m + k < 16 * e + 16 then _ else _) = _
  rw [if_neg (by omega)]

theorem entry_setEntry_zero (name : List UInt8) : ((v.setEntry e ⟨0, name⟩).entry e).inum = 0 := by
  have hb : ∀ k < 2, (v.setEntry e ⟨0, name⟩).byte (16 * e + k) = 0 := fun k hk => by
    show (if 16 * e ≤ 16 * e + k ∧ 16 * e + k < 16 * e + 16 then _ else _) = _
    rw [if_pos (by omega), Nat.add_sub_cancel_left]
    simp [Dirent.byte, byteOf, hk]
  simp only [Node.entry, Dirent.ofBytes, List.getD_eq_getElem?_getD, List.getElem?_map]
  rw [show (List.range 16)[0]? = some 0 from rfl, show (List.range 16)[1]? = some 1 from rfl]
  simp only [Option.map_some, Option.getD_some, hb 0 (by omega), hb 1 (by omega)]
  rfl

theorem slots_setEntry (h : v.size % 16 = 0) : (v.setEntry e x).slots = max v.slots (e + 1) := by
  show max v.size (16 * e + 16) / 16 = max (v.size / 16) (e + 1)
  omega

theorem size_setEntry (h : v.size % 16 = 0) : (v.setEntry e x).size % 16 = 0 := by
  show max v.size (16 * e + 16) % 16 = 0
  omega

theorem named_iff {name : List UInt8} : v.named name e = true ↔ (v.entry e).inum ≠ 0 ∧ namecmp name (v.entry e).name = true := by
  rw [Node.named, Bool.and_eq_true, decide_eq_true_eq]

theorem find_some {name : List UInt8} (h : v.find name = some e) :
    e < v.slots ∧ (v.entry e).inum ≠ 0 ∧ namecmp name (v.entry e).name = true := by
  obtain ⟨-, h1, h2, -⟩ := Lib.first_some h
  exact ⟨by omega, named_iff.mp h2⟩

theorem find_none {name : List UInt8} (h : v.find name = none) (he : e < v.slots) (hn : (v.entry e).inum ≠ 0) :
    namecmp name (v.entry e).name = false := by
  have := Lib.first_none h e (Nat.zero_le _) (by omega)
  by_contra hc
  have : v.named name e = true := named_iff.mpr ⟨hn, by simpa using hc⟩
  simp_all

end

/-! ## Paths -/

theorem length_dropWhile_le (p : UInt8 → Bool) (l : List UInt8) : (l.dropWhile p).length ≤ l.length :=
  (List.dropWhile_suffix p).length_le

theorem head_dropWhile {f : UInt8 → Bool} {l q : List UInt8} {c : UInt8} (h : l.dropWhile f = c :: q) : f c = false := by
  have := List.head?_dropWhile_not f l
  rwa [h] at this

theorem skipelem_some {path rest name : List UInt8} (h : skipelem path = some (name, rest)) :
    rest.length < path.length ∧ name.length ≤ DIRSIZ ∧ name ≠ [] ∧ ∀ c ∈ name, c ∈ path := by
  unfold skipelem at h
  dsimp only at h
  split at h
  · cases h
  · rename_i hne
    cases h
    set p := path.dropWhile (· = slash) with hp
    have hpl : p.length ≤ path.length := length_dropWhile_le ..
    obtain ⟨c, q, hcq⟩ : ∃ c q, p = c :: q := List.exists_cons_of_ne_nil hne
    have hc : c ≠ slash := by simpa using head_dropWhile hcq
    refine ⟨?_, by simp only [List.length_take]; omega, ?_, fun x hx => ?_⟩
    · have h1 : ((p.dropWhile (· ≠ slash)).dropWhile (· = slash)).length ≤ (p.dropWhile (· ≠ slash)).length :=
        length_dropWhile_le ..
      have h2 : (p.dropWhile (· ≠ slash)).length ≤ q.length := by
        rw [hcq, List.dropWhile_cons_of_pos (by simpa using hc)]
        exact length_dropWhile_le ..
      have h3 : p.length = q.length + 1 := by rw [hcq]; rfl
      omega
    · rw [hcq, List.takeWhile_cons_of_pos (by simpa using hc)]
      simp [DIRSIZ]
    · have h1 : x ∈ p := (List.takeWhile_prefix _).sublist.subset (List.mem_of_mem_take hx)
      exact (List.dropWhile_suffix _).sublist.subset h1

theorem NameOk.of_skipelem {path rest name : List UInt8} (h0 : 0 ∉ path) (h : skipelem path = some (name, rest)) :
    NameOk name := by
  obtain ⟨-, h1, h2, h3⟩ := skipelem_some h
  exact ⟨h1, fun hc => h0 (h3 0 hc), h2⟩

/-- What `namex` finds at inode `i`: the inode, and the last element if its parent is asked for. -/
def walkFrom (V : Nat → Node) (nameiparent : Bool) : Nat → Nat → List UInt8 → List UInt8 → Option (Nat × List UInt8)
  | 0, _, _, _ => none
  | fuel + 1, i, path, name =>
    match skipelem path with
    | none => if nameiparent then none else some (i, name)
    | some (name, path) =>
      if (V i).type ≠ T_DIR then none
      else if nameiparent ∧ path = [] then some (i, name)
      else
        match (V i).find name with
        | none => none
        | some e => walkFrom V nameiparent fuel ((V i).entry e).inum path name

def walk (V : Nat → Node) (cwd : Nat) (path : List UInt8) (nameiparent : Bool) : Option (Nat × List UInt8) :=
  walkFrom V nameiparent (path.length + 1) (if path.head? = some slash then ROOTINO else cwd) path []

section

variable {V : Nat → Node} {fuel i : Nat} {path name : List UInt8} {r : Nat × List UInt8}

theorem walkFrom_end (h : walkFrom V true fuel i path name = some r) : (V r.1).type = T_DIR ∧ (0 ∉ path → NameOk r.2) := by
  induction fuel generalizing i path name with
  | zero => cases h
  | succ fuel ih =>
    simp only [walkFrom] at h
    split at h
    · simp at h
    · rename_i name' path' hs
      split at h
      · cases h
      · rename_i ht
        split at h
        · cases h
          exact ⟨not_not.mp ht, fun h0 => .of_skipelem h0 hs⟩
        · split at h
          · cases h
          · refine (ih h).imp_right fun ih h0 => ih fun hc => h0 ?_
            unfold skipelem at hs
            dsimp only at hs
            split at hs
            · cases hs
            · cases hs
              exact (List.dropWhile_suffix _).sublist.subset ((List.dropWhile_suffix _).sublist.subset
                ((List.dropWhile_suffix _).sublist.subset hc))

theorem walkFrom_parent (h : walkFrom V true fuel i path name = some r) : (V r.1).type = T_DIR := (walkFrom_end h).1

theorem walkFrom_live {sb : Superblock} [Lost sb] (hd : Dirs sb V) (hi : Live sb i) {parent : Bool}
    (h : walkFrom V parent fuel i path name = some r) : Live sb r.1 := by
  induction fuel generalizing i path name with
  | zero => cases h
  | succ fuel ih =>
    simp only [walkFrom] at h
    split at h
    · split at h
      · cases h
      · cases h
        exact hi
    · split at h
      · cases h
      · rename_i ht
        split at h
        · cases h
          exact hi
        · split at h
          · cases h
          · rename_i e he
            obtain ⟨hlt, hne, -⟩ := find_some he
            exact ih ((hd.names i hi (not_not.mp ht) e hlt).live hne) h

theorem walk_live {sb : Superblock} [Lost sb] (hd : Dirs sb V) {cwd : Nat} (hc : Live sb cwd) {parent : Bool}
    (h : walk V cwd path parent = some r) : Live sb r.1 := by
  refine walkFrom_live hd ?_ h
  split
  · exact Lost.root
  · exact hc

end

theorem walkFrom_congr {V V' : Nat → Node} (ht : ∀ i, (V' i).type = (V i).type)
    (hd : ∀ i, (V i).type = T_DIR → (V' i).size = (V i).size ∧ (V' i).byte = (V i).byte) {parent : Bool}
    (fuel i : Nat) (path name : List UInt8) :
    walkFrom V' parent fuel i path name = walkFrom V parent fuel i path name := by
  induction fuel generalizing i path name with
  | zero => rfl
  | succ fuel ih =>
    simp only [walkFrom, ht]
    split
    · rfl
    · split
      · rfl
      · rename_i htype
        obtain ⟨h1, h2⟩ := hd i (not_not.mp htype)
        have hentry : (V' i).entry = (V i).entry := by funext e; simp only [Node.entry, h2]
        have hfind : ∀ n, (V' i).find n = (V i).find n := fun n => by
          unfold Node.find Node.slots Node.named
          rw [h1, hentry]
        rw [hfind]
        split
        · rfl
        · split
          · rfl
          · rw [hentry]
            exact ih ..

end Xv6.Fs
