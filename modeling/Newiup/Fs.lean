import Newiup.Wp

/-!
# C strings, paths and the file system

The daemon meets the file system through a handful of system calls on path
texts.  A path text is resolved to a *location*, its list of components with
repeated and trailing slashes dropped; a location may hold an entry, and an
entry is an inode with its mode bits and its bytes, so that two locations can
name the same file.  Symbolic links and the components `.` and `..` are outside
the model.

Of the text itself two things matter besides the location it leads to.  The empty
path leads nowhere, and a path that ends in a slash leads to directories only:
`stat`, `open` and `rename` refuse it for anything else.  `access` and `remove` are
called by the daemon with the paths of files that it has found or makes, and take
such a path for the name before the slash.

What is written to a device or to a FIFO goes to whoever reads there.  The data of
its inode stands for what has been sent so far, and no path reads it back.

Every system call may fail for reasons of its own.  Its outcome is read from a
list of *results* carried next to the file system; a call succeeds only where it
is possible and its result is not a failure.

## Main definitions

* `snprintf`, `rindex` — the string functions of the C library that are used.
* `resolve`, `namesFile` — the location a path text names, and whether the text can
  stand for a file.
* `Fs`, `World`, `Os` — file system, file system with pending results, and the
  programs over it.
* `mkdir`, `rename`, `remove`, `openRead`, `openTrunc`, `readFd`, `writeFd` — the
  system calls.
-/

namespace Newiup

/-- A C string, without its terminator. -/
abbrev CString := List Char

instance : LawfulBEq CString := inferInstance

/-- A path text. -/
abbrev Path := CString

/-- The contents of a file. -/
abbrev Bytes := List UInt8

/-- Inode numbers, which open file descriptors stand for. -/
abbrev Ino := ℕ

/-! ### Strings -/

/-- What `snprintf(buf, size, "%s..", ..)` leaves in `buf`. -/
def snprintf (size : ℕ) (s : CString) : CString := s.take (size - 1)

theorem snprintf_of_lt {k : ℕ} {s : CString} (h : s.length < k) : snprintf k s = s :=
  List.take_of_length_le (by omega)

/-- `rindex(s, c)`: the text before the last `c` and the text after it. -/
def rindex (c : Char) : CString → Option (CString × CString)
  | [] => none
  | x :: xs =>
      match rindex c xs with
      | some (a, b) => some (x :: a, b)
      | none => if x = c then some ([], xs) else none

theorem rindex_eq_none {c : Char} {s : CString} : rindex c s = none ↔ c ∉ s := by
  induction s with
  | nil => simp [rindex]
  | cons x xs ih =>
    cases hr : rindex c xs with
    | none =>
      have hxs := ih.mp hr
      by_cases hx : x = c
      · simp [rindex, hr, hx]
      · simp [rindex, hr, hx, hxs, Ne.symm hx]
    | some q =>
      have hxs : c ∈ xs := by
        by_contra hno
        rw [ih.mpr hno] at hr
        cases hr
      simp [rindex, hr, hxs]

/-- The text before and after the last `c`. -/
theorem eq_of_rindex {c : Char} {s a b : CString} (h : rindex c s = some (a, b)) :
    s = a ++ c :: b ∧ c ∉ b := by
  induction s generalizing a with
  | nil => cases h
  | cons x xs ih =>
    unfold rindex at h
    split at h
    · next a' b' hr =>
      cases h
      obtain ⟨hxs, hb⟩ := ih hr
      exact ⟨by rw [hxs]; rfl, hb⟩
    · next hr =>
      split at h
      · next hx =>
        cases h
        exact ⟨by rw [hx]; rfl, rindex_eq_none.mp hr⟩
      · cases h

/-- What is appended decides when it has a `c`, and is added to the rest when it has
none. -/
theorem rindex_append (c : Char) (s z : CString) : rindex c (s ++ z) =
    match rindex c z with
    | some (a, b) => some (s ++ a, b)
    | none => (rindex c s).map fun p => (p.1, p.2 ++ z) := by
  induction s with
  | nil => cases hz : rindex c z with
    | none => simpa [rindex] using hz
    | some q => simpa [rindex] using hz
  | cons x xs ih =>
    rw [List.cons_append, rindex, ih]
    cases hz : rindex c z with
    | some q => rfl
    | none =>
      cases hr : rindex c xs with
      | some q => simp [rindex, hr]
      | none =>
        by_cases hx : x = c
        · simp [rindex, hr, hx]
        · simp [rindex, hr, hx]

/-! ### Locations -/

/-- Where a path leads: from the root or from the working directory, through
the named components. -/
structure Loc where
  /-- The path starts at the root. -/
  absolute : Bool
  /-- The components, outermost first. -/
  names : List CString
  deriving DecidableEq

/-- The directory a location lies in. -/
def Loc.parent (l : Loc) : Loc := ⟨l.absolute, l.names.dropLast⟩

/-- The location a path text names. -/
def resolve (p : Path) : Loc := ⟨p.head? == some '/', (p.splitOn '/').filter (· ≠ [])⟩

/-- The path text can name something other than a directory: it is not empty and does not
end in a slash. -/
def namesFile (p : Path) : Bool := p.getLast?.any (· != '/')

/-! ### Inodes and file systems -/

/-- An inode: `st_mode` and the bytes of the file. -/
structure Inode where
  /-- The file type and permission bits. -/
  mode : ℕ
  /-- The contents. -/
  data : Bytes
  deriving DecidableEq

/-- `S_IFMT`, the bits of the file type. -/
def S_IFMT : ℕ := 0o170000
/-- `S_IFDIR`, the type of a directory. -/
def S_IFDIR : ℕ := 0o040000
/-- `S_IFREG`, the type of a regular file. -/
def S_IFREG : ℕ := 0o100000
/-- `S_IFIFO`, the type of a FIFO. -/
def S_IFIFO : ℕ := 0o010000
/-- `S_IFCHR`, the type of a character device. -/
def S_IFCHR : ℕ := 0o020000
/-- `S_IFBLK`, the type of a block device. -/
def S_IFBLK : ℕ := 0o060000

/-- `S_ISDIR(st_mode)`. -/
def Inode.isDir (n : Inode) : Bool := n.mode &&& S_IFMT == S_IFDIR
/-- `S_ISREG(st_mode)`. -/
def Inode.isReg (n : Inode) : Bool := n.mode &&& S_IFMT == S_IFREG

/-- A device or a FIFO: it is opened like a file, and keeps nothing. -/
def Inode.isStream (n : Inode) : Bool :=
  n.mode &&& S_IFMT == S_IFIFO || n.mode &&& S_IFMT == S_IFCHR || n.mode &&& S_IFMT == S_IFBLK

/-- A regular file is no directory. -/
theorem Inode.isDir_of_isReg {n : Inode} (h : n.isReg = true) : n.isDir = false := by
  have hm : n.mode &&& S_IFMT = S_IFREG := by simpa [Inode.isReg] using h
  rw [Inode.isDir, hm]
  rfl

/-- A regular file is no device. -/
theorem Inode.isStream_of_isReg {n : Inode} (h : n.isReg = true) : n.isStream = false := by
  have hm : n.mode &&& S_IFMT = S_IFREG := by simpa [Inode.isReg] using h
  rw [Inode.isStream, hm]
  rfl

/-- Nor is a directory. -/
theorem Inode.isStream_of_isDir {n : Inode} (h : n.isDir = true) : n.isStream = false := by
  have hm : n.mode &&& S_IFMT = S_IFDIR := by simpa [Inode.isDir] using h
  rw [Inode.isStream, hm]
  rfl

/-- What is a device is not a regular file. -/
theorem Inode.isReg_of_isStream {n : Inode} (h : n.isStream = true) : n.isReg = false := by
  by_contra hr
  rw [Inode.isStream_of_isReg (Bool.not_eq_false _ ▸ hr)] at h
  cases h

/-- The bit of `S_IFDIR` is set in the mode of a directory. -/
theorem Inode.bit_of_isDir {n : Inode} (h : n.isDir = true) : n.mode &&& S_IFDIR ≠ 0 := by
  have hm : n.mode &&& S_IFMT = S_IFDIR := by simpa [Inode.isDir] using h
  rw [show S_IFDIR = S_IFMT &&& S_IFDIR from rfl, ← Nat.and_assoc, hm]
  decide

/-- A file system.  Inode numbers are handed out in order, and every entry
refers to one that has been handed out. -/
structure Fs where
  /-- The entry at a location. -/
  entry : Loc → Option Ino
  /-- The inodes. -/
  inode : Ino → Inode
  /-- The next inode number. -/
  next : Ino
  /-- Entries refer to inodes in use. -/
  entry_lt : ∀ l i, entry l = some i → i < next

namespace Fs

/-- The inode `stat` finds at a path.  The empty path leads nowhere, and one that ends
in a slash to directories only. -/
def stat (fs : Fs) (p : Path) : Option Inode :=
  ((fs.entry (resolve p)).map fs.inode).filter fun n =>
    p ≠ [] ∧ (p.getLast? = some '/' → n.isDir = true)

/-- `access(p, 0)` succeeds. -/
def has (fs : Fs) (p : Path) : Bool := (fs.entry (resolve p)).isSome

/-- The inode a path text leads to, as `stat` finds it. -/
def find (fs : Fs) (p : Path) : Option Ino :=
  (fs.entry (resolve p)).filter fun i =>
    p ≠ [] ∧ (p.getLast? = some '/' → (fs.inode i).isDir = true)

/-- The contents of the regular file at a path. -/
def read (fs : Fs) (p : Path) : Option Bytes :=
  ((fs.find p).map fs.inode).bind fun n => if n.isReg then some n.data else none

/-- The location lies in a directory that is there. -/
def inDir (fs : Fs) (l : Loc) : Bool :=
  ((fs.entry l.parent).map fun i => (fs.inode i).isDir) == some true

/-- The file system without the entry at `l`. -/
def unlink (fs : Fs) (l : Loc) : Fs where
  entry := Function.update fs.entry l none
  inode := fs.inode
  next := fs.next
  entry_lt := by
    intro l' i h
    by_cases hl : l' = l
    · simp [hl] at h
    · rw [Function.update_of_ne hl] at h; exact fs.entry_lt l' i h

/-- The file system with `l` bound to an inode in use. -/
def link (fs : Fs) (l : Loc) (i : Ino) (hi : i < fs.next) : Fs where
  entry := Function.update fs.entry l (some i)
  inode := fs.inode
  next := fs.next
  entry_lt := by
    intro l' j h
    by_cases hl : l' = l
    · rw [hl, Function.update_self] at h; cases h; exact hi
    · rw [Function.update_of_ne hl] at h; exact fs.entry_lt l' j h

/-- The file system with a new inode at `l`. -/
def make (fs : Fs) (l : Loc) (n : Inode) : Fs where
  entry := Function.update fs.entry l (some fs.next)
  inode := Function.update fs.inode fs.next n
  next := fs.next + 1
  entry_lt := by
    intro l' j h
    by_cases hl : l' = l
    · rw [hl, Function.update_self] at h; cases h; exact Nat.lt_succ_self _
    · rw [Function.update_of_ne hl] at h; exact Nat.lt_succ_of_lt (fs.entry_lt l' j h)

/-- The file system with the bytes of inode `i` replaced. -/
def setData (fs : Fs) (i : Ino) (b : Bytes) : Fs :=
  { fs with inode := Function.update fs.inode i { fs.inode i with data := b } }

/-- The empty file system with the directories `ds` in it. -/
def empty : Fs where
  entry := fun _ => none
  inode := fun _ => ⟨0, []⟩
  next := 0
  entry_lt := by intro l i h; cases h

/-- What is written at `l` stays there: it is not the place of a device or of a FIFO. -/
def Keeps (fs : Fs) (l : Loc) : Prop := ∀ i, fs.entry l = some i → (fs.inode i).isStream = false

/-- `fs'` is `fs` with new entries at locations that satisfy `P`: what was there
before is there still, with the same contents. -/
structure Grown (P : Loc → Prop) (fs fs' : Fs) : Prop where
  /-- Old entries stay; a new one lies where `P` allows and has a new inode. -/
  entry : ∀ l, fs'.entry l = fs.entry l ∨
    (P l ∧ fs.entry l = none ∧ ∀ j, fs'.entry l = some j → fs.next ≤ j)
  /-- Old inodes are as they were. -/
  inode : ∀ i, i < fs.next → fs'.inode i = fs.inode i
  /-- Inode numbers only grow. -/
  next_le : fs.next ≤ fs'.next

@[simp] theorem entry_unlink (fs : Fs) (l l' : Loc) :
    (fs.unlink l).entry l' = if l' = l then none else fs.entry l' := by
  simp [unlink, Function.update_apply]

@[simp] theorem entry_link (fs : Fs) (l l' : Loc) (i : Ino) (hi : i < fs.next) :
    (fs.link l i hi).entry l' = if l' = l then some i else fs.entry l' := by
  simp [link, Function.update_apply]

@[simp] theorem entry_make (fs : Fs) (l l' : Loc) (n : Inode) :
    (fs.make l n).entry l' = if l' = l then some fs.next else fs.entry l' := by
  simp [make, Function.update_apply]

@[simp] theorem entry_setData (fs : Fs) (i : Ino) (b : Bytes) (l : Loc) :
    (fs.setData i b).entry l = fs.entry l := rfl

theorem inode_make (fs : Fs) (l : Loc) (n : Inode) (i : Ino) :
    (fs.make l n).inode i = if i = fs.next then n else fs.inode i := by
  simp [make, Function.update_apply]

theorem inode_setData (fs : Fs) (i j : Ino) (b : Bytes) :
    (fs.setData i b).inode j = if j = i then { fs.inode i with data := b } else fs.inode j := by
  simp [setData, Function.update_apply]

/-- A path that can name a file leads to what is at its location. -/
theorem find_of_namesFile {fs : Fs} {p : Path} (h : namesFile p = true) :
    fs.find p = fs.entry (resolve p) := by
  have hp : p ≠ [] := by
    rintro rfl
    cases h
  have hlast : p.getLast? ≠ some '/' := by
    intro hc
    rw [namesFile, hc] at h
    cases h
  unfold find
  cases fs.entry (resolve p) with
  | none => rfl
  | some i => simp [hp, hlast]

theorem entry_of_find {fs : Fs} {p : Path} {i : Ino} (h : fs.find p = some i) :
    fs.entry (resolve p) = some i := (Option.filter_eq_some_iff.mp h).1

/-- Only a path that can name a file leads to a regular file. -/
theorem namesFile_of_find {fs : Fs} {p : Path} {i : Ino} (h : fs.find p = some i)
    (hr : (fs.inode i).isReg = true) : namesFile p = true := by
  have hp := (Option.filter_eq_some_iff.mp h).2
  simp only [Inode.isDir_of_isReg hr, decide_eq_true_eq, Bool.false_eq_true, imp_false] at hp
  obtain ⟨hne, hlast⟩ := hp
  cases hc : p.getLast? with
  | none => exact absurd (List.getLast?_eq_none_iff.mp hc) hne
  | some c =>
    rw [hc] at hlast
    simpa [namesFile, hc] using hlast

theorem read_eq_some {fs : Fs} {p : Path} {b : Bytes} :
    fs.read p = some b ↔ ∃ i, fs.entry (resolve p) = some i ∧ (fs.inode i).isReg = true ∧
      (fs.inode i).data = b ∧ namesFile p = true := by
  constructor
  · intro h
    obtain ⟨n, hn, hb⟩ := Option.bind_eq_some_iff.mp h
    obtain ⟨i, hi, rfl⟩ := Option.map_eq_some_iff.mp hn
    split at hb
    · next hr =>
      exact ⟨i, entry_of_find hi, hr, Option.some.inj hb, namesFile_of_find hi hr⟩
    · cases hb
  · rintro ⟨i, hi, hr, hb, hp⟩
    rw [read, find_of_namesFile hp, hi, Option.map_some, Option.bind_some, if_pos hr, hb]

theorem has_iff {fs : Fs} {p : Path} : fs.has p = true ↔ ∃ i, fs.entry (resolve p) = some i :=
  Option.isSome_iff_exists

/-- Reading depends on the entry and its inode only. -/
theorem read_congr {fs fs' : Fs} {p : Path} (he : fs'.entry (resolve p) = fs.entry (resolve p))
    (hi : ∀ i, fs.entry (resolve p) = some i → fs'.inode i = fs.inode i) :
    fs'.read p = fs.read p := by
  unfold read find
  rw [he]
  cases h : fs.entry (resolve p) with
  | none => rfl
  | some i =>
    simp only [Option.filter_some, hi i h]
    split
    · rw [Option.map_some, Option.map_some, hi i h]
    · rfl

theorem read_unlink_of_ne {fs : Fs} {l : Loc} {p : Path} (h : resolve p ≠ l) :
    (fs.unlink l).read p = fs.read p :=
  read_congr (by rw [entry_unlink, if_neg h]) fun _ _ => rfl

theorem read_unlink_self (fs : Fs) (p : Path) : (fs.unlink (resolve p)).read p = none := by
  unfold read find
  rw [entry_unlink, if_pos rfl]
  rfl

/-- There is no device where nothing is. -/
theorem keeps_of_none {fs : Fs} {l : Loc} (h : fs.entry l = none) : fs.Keeps l := by
  intro i hi
  rw [h] at hi
  cases hi

/-- A directory that is made keeps no device in its place. -/
theorem Keeps.make {fs : Fs} {l l' : Loc} {n : Inode} (h : fs.Keeps l) (hn : n.isDir = true) :
    (fs.make l' n).Keeps l := by
  intro i hi
  rw [entry_make] at hi
  rw [inode_make]
  split at hi
  · cases hi
    rw [if_pos rfl]
    exact Inode.isStream_of_isDir hn
  · rw [if_neg (fs.entry_lt _ _ hi).ne]
    exact h i hi

namespace Grown

theorem refl (P : Loc → Prop) (fs : Fs) : Grown P fs fs :=
  ⟨fun _ => Or.inl rfl, fun _ _ => rfl, le_rfl⟩

theorem trans {P : Loc → Prop} {fs₁ fs₂ fs₃ : Fs} (h : Grown P fs₁ fs₂) (h' : Grown P fs₂ fs₃) :
    Grown P fs₁ fs₃ where
  entry l := by
    rcases h.entry l with h₁ | ⟨hP, h₁, h₂⟩
    · rcases h'.entry l with h₃ | ⟨hP, h₃, h₄⟩
      · exact Or.inl (h₃.trans h₁)
      · exact Or.inr ⟨hP, h₁ ▸ h₃, fun j hj => h.next_le.trans (h₄ j hj)⟩
    · refine Or.inr ⟨hP, h₁, fun j hj => ?_⟩
      rcases h'.entry l with h₃ | ⟨-, -, h₄⟩
      · exact h₂ j (h₃ ▸ hj)
      · exact h.next_le.trans (h₄ j hj)
  inode i hi := (h'.inode i (hi.trans_le h.next_le)).trans (h.inode i hi)
  next_le := h.next_le.trans h'.next_le

theorem mono {P R : Loc → Prop} {fs fs' : Fs} (h : Grown P fs fs') (hPR : ∀ l, P l → R l) :
    Grown R fs fs' :=
  ⟨fun l => (h.entry l).imp id fun h => ⟨hPR l h.1, h.2⟩, h.inode, h.next_le⟩

theorem make {P : Loc → Prop} {fs : Fs} {l : Loc} {n : Inode} (hl : fs.entry l = none)
    (hP : P l) : Grown P fs (fs.make l n) where
  entry l' := by
    rw [entry_make]
    split
    · next h => subst h; exact Or.inr ⟨hP, hl, fun j hj => by cases hj; exact le_rfl⟩
    · exact Or.inl rfl
  inode i hi := by rw [inode_make, if_neg hi.ne]
  next_le := Nat.le_succ _

/-- A present entry is untouched. -/
theorem entry_of_some {P : Loc → Prop} {fs fs' : Fs} (h : Grown P fs fs') {l : Loc} {i : Ino}
    (hl : fs.entry l = some i) : fs'.entry l = some i := by
  rcases h.entry l with h | ⟨-, h, -⟩
  · exact h.trans hl
  · rw [h] at hl; cases hl

theorem read {P : Loc → Prop} {fs fs' : Fs} (h : Grown P fs fs') {p : Path} {b : Bytes}
    (hr : fs.read p = some b) : fs'.read p = some b := by
  obtain ⟨i, hi, -⟩ := read_eq_some.mp hr
  rw [← hr]
  refine read_congr ((h.entry_of_some hi).trans hi.symm) fun j hj => ?_
  exact h.inode j (fs.entry_lt _ _ hj)

end Grown

end Fs

/-! ### Worlds and programs -/

/-- The results of the system calls to come, in order: `none` is a failure, and
`some k` a success, where `k` bounds the bytes a `read` or `write` transfers and
`0` sets no bound.  Once the list is exhausted every call succeeds in full. -/
abbrev Sys := List (Option ℕ)

/-- A file system with the results of the calls still to be made on it. -/
structure World where
  /-- The file system. -/
  fs : Fs
  /-- The results to come. -/
  sys : Sys

/-- Programs that make system calls. -/
abbrev Os := StateM World

/-- The result of the next system call. -/
def result : Os (Option ℕ) := fun w =>
  match w.sys with
  | [] => (some 0, w)
  | r :: rs => (r, { w with sys := rs })

/-- The file system at this point. -/
def getFs : Os Fs := fun w => (w.fs, w)

/-- Replace the file system. -/
def setFs (fs : Fs) : Os Unit := fun w => ((), { w with fs := fs })

/-! ### System calls -/

/-- The inode `mkdir` makes; it takes the permissions and the sticky bit from the mode. -/
def newDir (mode : ℕ) : Inode := ⟨S_IFDIR ||| (mode &&& 0o1777), []⟩

/-- Whatever the mode, it is a directory. -/
theorem isDir_newDir (mode : ℕ) : (newDir mode).isDir = true := by
  have h : (S_IFDIR ||| (mode &&& 0o1777)) &&& S_IFMT = S_IFDIR := by
    rw [Nat.and_or_distrib_right, Nat.and_assoc, show 0o1777 &&& S_IFMT = 0 from rfl,
      Nat.and_zero, Nat.or_zero]
    rfl
  simpa [Inode.isDir, newDir] using h

/-- `mkdir(p, mode)`: possible where nothing is at `p` and `p` lies in a directory. -/
def mkdir (p : Path) (mode : ℕ) : Os Bool := do
  let r ← result
  let fs ← getFs
  if r.isSome && (fs.entry (resolve p)).isNone && fs.inDir (resolve p) then
    setFs (fs.make (resolve p) (newDir mode))
    return true
  else
    return false

/-- `remove(p)`. -/
def remove (p : Path) : Os Bool := do
  let r ← result
  let fs ← getFs
  if r.isSome && fs.has p then
    setFs (fs.unlink (resolve p))
    return true
  else
    return false

/-- The paths let the inode `i` go from `old` to `new`: a path that ends in a slash stands
for a directory, what is replaced is a directory exactly if `i` is one, and a new entry
lies in a directory. -/
def Fs.renames (fs : Fs) (old new : Path) (i : Ino) : Bool :=
  (namesFile old && namesFile new || (fs.inode i).isDir && old != [] && new != []) &&
    (fs.entry (resolve new)).elim (fs.inDir (resolve new)) fun j =>
      (fs.inode j).isDir == (fs.inode i).isDir

/-- `rename(old, new)`.  Two names of one file are left alone.  The daemon renames files;
of a directory only the entry itself is moved. -/
def rename (old new : Path) : Os Bool := do
  let r ← result
  let fs ← getFs
  match h : fs.entry (resolve old) with
  | none => return false
  | some i =>
      if r.isSome && fs.renames old new i then
        if fs.entry (resolve new) = some i then
          return true
        setFs ((fs.link (resolve new) i (fs.entry_lt _ _ h)).unlink (resolve old))
        return true
      else
        return false

/-- `open(p, O_RDONLY)`. -/
def openRead (p : Path) : Os (Option Ino) := do
  let r ← result
  let fs ← getFs
  return if r.isSome then fs.find p else none

/-- `open(p, O_CREAT|O_TRUNC|O_WRONLY, mode)`: empties the regular file at `p`, or makes
one in a directory that is there.  A device or a FIFO is opened as it is.  A directory and
a socket are refused, and so is every path that ends in a slash. -/
def openTrunc (p : Path) (mode : ℕ) : Os (Option Ino) := do
  let r ← result
  let fs ← getFs
  if r.isNone || !namesFile p then
    return none
  match fs.entry (resolve p) with
  | none =>
      if fs.inDir (resolve p) then
        setFs (fs.make (resolve p) ⟨S_IFREG ||| mode, []⟩)
        return some fs.next
      return none
  | some i =>
      if (fs.inode i).isReg then
        setFs (fs.setData i [])
        return some i
      return if (fs.inode i).isStream then some i else none

/-- The number of bytes a transfer of at most `n` bytes moves. -/
def transfer (k n : ℕ) : ℕ := if k = 0 then n else min k n

theorem transfer_pos (k : ℕ) {n : ℕ} (hn : 0 < n) : 0 < transfer k n := by
  unfold transfer
  split <;> omega

/-- `read(fd, buf, n)` at offset `pos`: `none` is an error and `[]` the end of
the file. -/
def readFd (fd : Ino) (pos n : ℕ) : Os (Option Bytes) := do
  let r ← result
  let fs ← getFs
  return r.map fun k => ((fs.inode fd).data.drop pos).take (transfer k n)

/-- `write(fd, buf, n)` at the end of the file: the number of bytes written. -/
def writeFd (fd : Ino) (buf : Bytes) : Os (Option ℕ) := do
  let r ← result
  let fs ← getFs
  match r with
  | none => return none
  | some k =>
      let out := buf.take (transfer k buf.length)
      setFs (fs.setData fd ((fs.inode fd).data ++ out))
      return some out.length

/-! ### Rules

One rule for each call, whatever its result is: the postcondition has to hold of
the success and of the failure. -/

section Rules

variable {w : World}

theorem wp_getFs {α : Type} {f : Fs → Os α} {Q : α → World → Prop} (h : wp (f w.fs) Q w) :
    wp (getFs >>= f) Q w := h

theorem wp_result {Q : Option ℕ → World → Prop}
    (h : ∀ r sys, Q r ⟨w.fs, sys⟩) : wp result Q w := by
  unfold wp result
  obtain ⟨fs, sys⟩ := w
  cases sys with
  | nil => exact h _ _
  | cons r rs => exact h _ _

@[simp] theorem wp_result_nil {fs : Fs} {Q : Option ℕ → World → Prop} :
    wp result Q ⟨fs, []⟩ ↔ Q (some 0) ⟨fs, []⟩ := Iff.rfl

@[simp] theorem wp_result_cons {fs : Fs} {r : Option ℕ} {rs : Sys}
    {Q : Option ℕ → World → Prop} : wp result Q ⟨fs, r :: rs⟩ ↔ Q r ⟨fs, rs⟩ := Iff.rfl

@[simp] theorem wp_getFs_iff {Q : Fs → World → Prop} : wp getFs Q w ↔ Q w.fs w := Iff.rfl

@[simp] theorem wp_setFs_iff {fs : Fs} {Q : Unit → World → Prop} :
    wp (setFs fs) Q w ↔ Q () ⟨fs, w.sys⟩ := Iff.rfl

/-- Where no call is made to fail, the next one succeeds. -/
theorem wp_result_ok {Q : Option ℕ → World → Prop} (hsys : none ∉ w.sys)
    (h : ∀ k sys, none ∉ sys → Q (some k) ⟨w.fs, sys⟩) : wp result Q w := by
  obtain ⟨fs, sys⟩ := w
  cases sys with
  | nil => exact h 0 [] (by simp)
  | cons r rs =>
    cases r with
    | none => exact absurd List.mem_cons_self hsys
    | some k => exact h k rs fun hr => hsys (List.mem_cons_of_mem _ hr)

theorem wp_mkdir {p : Path} {mode : ℕ} {Q : Bool → World → Prop}
    (hok : ∀ sys, w.fs.entry (resolve p) = none →
      Q true ⟨w.fs.make (resolve p) (newDir mode), sys⟩)
    (hfail : ∀ sys, Q false ⟨w.fs, sys⟩) : wp (mkdir p mode) Q w := by
  rw [mkdir, wp_bind]
  refine wp_result fun r sys => wp_getFs ?_
  show wp (ite _ _ _) Q _
  refine wp_ite (fun h => ?_) (fun _ => hfail sys)
  simp only [Bool.and_eq_true, Option.isNone_iff_eq_none] at h
  exact hok sys h.1.2

theorem wp_remove {p : Path} {Q : Bool → World → Prop}
    (hok : ∀ sys, Q true ⟨w.fs.unlink (resolve p), sys⟩)
    (hfail : ∀ sys, Q false ⟨w.fs, sys⟩) : wp (remove p) Q w := by
  rw [remove, wp_bind]
  refine wp_result fun r sys => wp_getFs ?_
  show wp (ite _ _ _) Q _
  exact wp_ite (fun _ => hok sys) (fun _ => hfail sys)

/-- A `remove` that is not made to fail leaves nothing behind. -/
theorem wp_remove_nil {fs : Fs} {p : Path} {Q : Bool → World → Prop}
    (h : ∀ r fs', Fs.entry fs' (resolve p) = none →
      (∀ l, l ≠ resolve p → fs'.entry l = fs.entry l) → Q r ⟨fs', []⟩) :
    wp (remove p) Q ⟨fs, []⟩ := by
  simp only [remove, wp_bind, wp_result_nil, wp_getFs_iff, Option.isSome_some, Bool.true_and]
  refine wp_ite (fun _ => ?_) fun hp => ?_
  · exact h true _ (by rw [Fs.entry_unlink, if_pos rfl]) fun l hl => by
      rw [Fs.entry_unlink, if_neg hl]
  · exact h false fs (by simpa [Fs.has] using hp) fun _ _ => rfl

/-- Where a file goes by a rename, its path can name one. -/
theorem Fs.namesFile_of_renames {fs : Fs} {old new : Path} {i : Ino}
    (h : fs.renames old new i = true) (hr : (fs.inode i).isReg = true) :
    namesFile new = true := by
  simp only [Fs.renames, Inode.isDir_of_isReg hr, Bool.false_and, Bool.or_false,
    Bool.and_eq_true] at h
  exact h.1.2

theorem wp_rename {old new : Path} {Q : Bool → World → Prop}
    (hmove : ∀ sys i (h : w.fs.entry (resolve old) = some i),
      w.fs.renames old new i = true → w.fs.entry (resolve new) ≠ some i →
      Q true ⟨(w.fs.link (resolve new) i (w.fs.entry_lt _ _ h)).unlink (resolve old), sys⟩)
    (hkeep : ∀ b sys, Q b ⟨w.fs, sys⟩) : wp (rename old new) Q w := by
  rw [rename, wp_bind]
  refine wp_result fun r sys => wp_getFs ?_
  show wp (match h : w.fs.entry (resolve old) with
    | none => _
    | some i => _) Q _
  split
  · exact hkeep _ sys
  · next i h =>
    refine wp_ite (fun hc => wp_ite (fun _ => hkeep _ sys) fun hne => ?_) (fun _ => hkeep _ sys)
    rw [Bool.and_eq_true] at hc
    exact hmove sys i h hc.2 hne

theorem wp_openRead {p : Path} {Q : Option Ino → World → Prop}
    (hok : ∀ sys i, w.fs.entry (resolve p) = some i → Q (some i) ⟨w.fs, sys⟩)
    (hfail : ∀ sys, Q none ⟨w.fs, sys⟩) : wp (openRead p) Q w := by
  rw [openRead, wp_bind]
  refine wp_result fun r sys => wp_getFs ?_
  show Q (if r.isSome then w.fs.find p else none) ⟨w.fs, sys⟩
  split
  · cases h : w.fs.find p with
    | none => exact hfail sys
    | some i => exact hok sys i (Fs.entry_of_find h)
  · exact hfail sys

theorem wp_openTrunc {p : Path} {mode : ℕ} {Q : Option Ino → World → Prop}
    (hnew : ∀ sys, w.fs.entry (resolve p) = none → namesFile p = true →
      Q (some w.fs.next) ⟨w.fs.make (resolve p) ⟨S_IFREG ||| mode, []⟩, sys⟩)
    (hold : ∀ sys i, w.fs.entry (resolve p) = some i → (w.fs.inode i).isReg = true →
      namesFile p = true → Q (some i) ⟨w.fs.setData i [], sys⟩)
    (hstream : ∀ sys i, w.fs.entry (resolve p) = some i → (w.fs.inode i).isStream = true →
      namesFile p = true → Q (some i) ⟨w.fs, sys⟩)
    (hfail : ∀ sys, Q none ⟨w.fs, sys⟩) : wp (openTrunc p mode) Q w := by
  rw [openTrunc, wp_bind]
  refine wp_result fun r sys => wp_getFs ?_
  show wp (ite _ _ _) Q _
  refine wp_ite (fun _ => hfail sys) (fun hp => ?_)
  have hname : namesFile p = true := by
    by_contra hno
    exact hp (by simp [hno])
  show wp (match w.fs.entry (resolve p) with
    | none => _
    | some i => _) Q _
  split
  · next h => exact wp_ite (fun _ => hnew sys h hname) fun _ => hfail sys
  · next i h =>
    refine wp_ite (fun hreg => hold sys i h hreg hname) fun _ => ?_
    show Q (if (w.fs.inode i).isStream = true then some i else none) _
    split
    · next hs => exact hstream sys i h hs hname
    · exact hfail sys

theorem wp_readFd {fd : Ino} {pos n : ℕ} {Q : Option Bytes → World → Prop}
    (hok : ∀ sys k, (0 < n → 0 < k) →
      Q (some (((w.fs.inode fd).data.drop pos).take k)) ⟨w.fs, sys⟩)
    (hfail : ∀ sys, Q none ⟨w.fs, sys⟩) : wp (readFd fd pos n) Q w := by
  rw [readFd, wp_bind]
  refine wp_result fun r sys => wp_getFs ?_
  cases r with
  | none => exact hfail sys
  | some k => exact hok sys _ (transfer_pos k)

theorem wp_writeFd {fd : Ino} {buf : Bytes} {Q : Option ℕ → World → Prop}
    (hok : ∀ sys k, Q (some (buf.take k).length)
      ⟨w.fs.setData fd ((w.fs.inode fd).data ++ buf.take k), sys⟩)
    (hfail : ∀ sys, Q none ⟨w.fs, sys⟩) : wp (writeFd fd buf) Q w := by
  rw [writeFd, wp_bind]
  refine wp_result fun r sys => wp_getFs ?_
  cases r with
  | none => exact hfail sys
  | some k => exact hok sys _

/-! ### Calls that are not made to fail -/

theorem wp_openRead_nil {fs : Fs} {p : Path} {i : Ino} {Q : Option Ino → World → Prop}
    (hi : fs.entry (resolve p) = some i) (hp : namesFile p = true) :
    wp (openRead p) Q ⟨fs, []⟩ ↔ Q (some i) ⟨fs, []⟩ := by
  simp only [openRead, wp_bind, wp_result_nil, wp_getFs_iff, wp_pure, Option.isSome_some, if_true,
    Fs.find_of_namesFile hp, hi]

theorem wp_openTrunc_new {fs : Fs} {p : Path} {mode : ℕ} {Q : Option Ino → World → Prop}
    (hi : fs.entry (resolve p) = none) (hp : namesFile p = true)
    (hdir : fs.inDir (resolve p) = true) :
    wp (openTrunc p mode) Q ⟨fs, []⟩ ↔
      Q (some fs.next) ⟨fs.make (resolve p) ⟨S_IFREG ||| mode, []⟩, []⟩ := by
  simp only [openTrunc, wp_bind, wp_result_nil, wp_getFs_iff, Option.isNone_some, hp, Bool.not_true,
    Bool.or_false, Bool.false_eq_true, if_false, hi, hdir, if_true, wp_setFs_iff, wp_pure]

theorem wp_openTrunc_old {fs : Fs} {p : Path} {i : Ino} {mode : ℕ} {Q : Option Ino → World → Prop}
    (hi : fs.entry (resolve p) = some i) (hp : namesFile p = true)
    (hr : (fs.inode i).isReg = true) :
    wp (openTrunc p mode) Q ⟨fs, []⟩ ↔ Q (some i) ⟨fs.setData i [], []⟩ := by
  simp only [openTrunc, wp_bind, wp_result_nil, wp_getFs_iff, Option.isNone_some, hp, Bool.not_true,
    Bool.or_false, Bool.false_eq_true, if_false, hi, hr, if_true, wp_setFs_iff, wp_pure]

theorem wp_openTrunc_stream {fs : Fs} {p : Path} {i : Ino} {mode : ℕ}
    {Q : Option Ino → World → Prop} (hi : fs.entry (resolve p) = some i)
    (hp : namesFile p = true) (hs : (fs.inode i).isStream = true) :
    wp (openTrunc p mode) Q ⟨fs, []⟩ ↔ Q (some i) ⟨fs, []⟩ := by
  simp only [openTrunc, wp_bind, wp_result_nil, wp_getFs_iff, Option.isNone_some, hp, Bool.not_true,
    Bool.or_false, Bool.false_eq_true, if_false, hi, Inode.isReg_of_isStream hs, hs, if_true,
    wp_pure]

end Rules

end Newiup
