import Newiup.Utils

/-!
# What `recursive_make_dir` makes

The recursion goes up the path until it meets something that is there or a directory
that can be made, and comes down again making directories.  It makes nothing but
missing directories.  What it returns is another matter: the test of the mode is a
test of one bit, and that bit is also set for a socket and for a block device.

## Main definitions

* `MadeDirs` — nothing but new directories at prefixes of a path.
* `MakesDirectory` — what `recursive_make_dir` is for.
* `Inode.PassesForDir` — the bit is set and it is not a directory.

## Main results

* `makesDirectory_iff` — **the result is right exactly when the path does not lead to
  what passes for a directory.**
-/

namespace Newiup

/-! ### Prefixes of a path -/

/-- The number of components that begin in a text; `b` says that a component may
begin with its first character. -/
def starts : Bool → Path → ℕ
  | _, [] => 0
  | b, c :: cs => if c = '/' then starts true cs else b.toNat + starts false cs

/-- Whether a component may begin after a text. -/
def mayStart : Bool → Path → Bool
  | b, [] => b
  | _, c :: cs => mayStart (decide (c = '/')) cs

theorem starts_append (b : Bool) (p q : Path) :
    starts b (p ++ q) = starts b p + starts (mayStart b p) q := by
  induction p generalizing b with
  | nil => simp [starts, mayStart]
  | cons c cs ih =>
    by_cases hc : c = '/'
    · simp [starts, mayStart, hc, ih]
    · simp [starts, mayStart, hc, ih, Nat.add_assoc]

theorem starts_le_of_prefix {b : Bool} {p q : Path} (h : q <+: p) : starts b q ≤ starts b p := by
  obtain ⟨z, rfl⟩ := h
  rw [starts_append]
  exact Nat.le_add_right _ _

/-- The components are counted where they begin. -/
theorem length_names (p : Path) : (resolve p).names.length = starts true p := by
  -- the first piece continues a component where none may begin
  have key : ∀ p : Path, ∃ h t, p.splitOn '/' = h :: t ∧
      ((h :: t).filter (· ≠ [])).length = starts true p ∧
      (t.filter (· ≠ [])).length = starts false p := by
    intro p
    induction p with
    | nil => exact ⟨[], [], rfl, rfl, rfl⟩
    | cons c cs ih =>
      obtain ⟨h, t, hs, ht, hf⟩ := ih
      rw [List.splitOn_cons_eq_if_modifyHead, hs]
      by_cases hc : c = '/'
      · refine ⟨[], h :: t, by simp [hc], ?_, ?_⟩
        · rw [starts, if_pos hc, ← ht]
          rfl
        · rw [starts, if_pos hc, ← ht]
      · refine ⟨c :: h, t, by simp [hc], ?_, ?_⟩
        · rw [starts, if_neg hc, ← hf]
          simp [Nat.add_comm]
        · rw [starts, if_neg hc, ← hf]
          simp
  obtain ⟨h, t, hs, ht, -⟩ := key p
  rw [← ht, resolve, hs]

theorem mayStart_concat (b : Bool) (p : Path) : mayStart b (p ++ ['/']) = true := by
  induction p generalizing b with
  | nil => rfl
  | cons c cs ih => exact ih _

/-- A path that is not made of slashes only has a component after what `get_pre_path`
leaves of it. -/
theorem getPrePath_split {p : Path} (hp : ∃ c ∈ p, c ≠ '/') :
    ∃ x c y, p = x ++ c :: y ∧ c ≠ '/' ∧ mayStart true x = true ∧ getPrePath p <+: x := by
  -- the first pass leaves a text that ends in a component, the second what is before it
  set r := p.rdropWhile (· == '/') with hr
  set x := r.rdropWhile (· != '/') with hx
  have hrne : r ≠ [] := by
    intro h
    obtain ⟨c, hc, hne⟩ := hp
    have := List.rdropWhile_eq_nil_iff.mp h c hc
    exact hne (by simpa using this)
  have hsplit : x ++ r.rtakeWhile (· != '/') = r := List.rdropWhile_append_rtakeWhile
  cases hy : r.rtakeWhile (· != '/') with
  | nil =>
    have hlast := List.rtakeWhile_eq_nil_iff.mp hy hrne
    exact absurd (by simpa using hlast) (by simpa using List.rdropWhile_last_not _ _ hrne)
  | cons c y =>
    rw [hy] at hsplit
    obtain ⟨z, hz⟩ : r <+: p := List.rdropWhile_prefix _ _
    refine ⟨x, c, y ++ z, by rw [← hz, ← hsplit]; simp, ?_, ?_, List.rdropWhile_prefix _ _⟩
    · have hc : c ∈ r.rtakeWhile (· != '/') := by rw [hy]; exact List.mem_cons_self
      simpa using List.mem_rtakeWhile_imp hc
    · rcases List.eq_nil_or_concat x with h | ⟨q, d, h⟩
      · rw [h]
        rfl
      · have hd := List.rdropWhile_last_not (p := (· != '/')) (l := r) (by rw [← hx, h]; simp)
        simp only [← hx, h] at hd
        obtain rfl : d = '/' := by simpa using hd
        rw [h, List.concat_eq_append]
        exact mayStart_concat true q

/-- **No prefix of what `get_pre_path` leaves leads where the path leads.** -/
theorem resolve_ne_of_getPrePath {p q : Path} (hp : p ≠ []) (hq : q <+: getPrePath p) :
    resolve q ≠ resolve p := by
  by_cases hs : ∃ c ∈ p, c ≠ '/'
  · -- the path has one component more
    obtain ⟨x, c, y, rfl, hc, hx, hpre⟩ := getPrePath_split hs
    intro h
    have hlen := congrArg (fun l => l.names.length) h
    simp only [length_names] at hlen
    have hle : starts true q ≤ starts true x := starts_le_of_prefix (hq.trans hpre)
    rw [starts_append, hx, starts, if_neg hc] at hlen
    have : Bool.toNat true = 1 := rfl
    omega
  · -- nothing is left of slashes only, and they lead to the root
    push Not at hs
    have hnil : q = [] := by
      have hr : p.rdropWhile (· == '/') = [] := by
        rw [List.rdropWhile_eq_nil_iff]
        exact fun c hc => by simpa using hs c hc
      rw [getPrePath, hr] at hq
      exact List.prefix_nil.mp hq
    subst hnil
    cases p with
    | nil => exact absurd rfl hp
    | cons c cs =>
      obtain rfl : c = '/' := hs c List.mem_cons_self
      intro h
      have := congrArg Loc.absolute h
      simp [resolve] at this

/-! ### What is made -/

/-- A directory is at the path. -/
def Fs.IsDirectory (fs : Fs) (p : Path) : Prop := ∃ n, fs.stat p = some n ∧ n.isDir = true

/-- Nothing but new directories at prefixes of the path.  A failure may leave some of the
directories behind, so that this is said of every run, and whether the last of them is there is
said by the result. -/
structure MadeDirs (p : Path) (fs fs' : Fs) : Prop where
  /-- What was there is as it was, and what is new lies at a prefix. -/
  grown : Fs.Grown (fun l => ∃ q, q <+: p ∧ l = resolve q) fs fs'
  /-- What is new is a directory. -/
  dirs : ∀ l i, fs.entry l = none → fs'.entry l = some i → (fs'.inode i).isDir = true

/-- The call makes nothing but missing directories of the path, and it returns
`NEWIUP_OK` exactly when the path is a directory in the end. -/
def MakesDirectory (p : Path) (mode : ℕ) (w : World) : Prop :=
  MadeDirs p w.fs ((recursiveMakeDir p mode).run w).2.fs ∧
    (((recursiveMakeDir p mode).run w).1 = NEWIUP_OK ↔
      ((recursiveMakeDir p mode).run w).2.fs.IsDirectory p)

/-- The bit of `S_IFDIR` is set in the mode of something else: the type of a socket and
that of a block device have it too. -/
def Inode.PassesForDir (n : Inode) : Prop := n.mode &&& S_IFDIR ≠ 0 ∧ n.isDir = false

instance (n : Inode) : Decidable n.PassesForDir := inferInstanceAs (Decidable (_ ∧ _))

section Rules

variable {p : Path} {mode : ℕ} {w : World}

theorem MadeDirs.refl (p : Path) (fs : Fs) : MadeDirs p fs fs :=
  ⟨.refl _ fs, fun l i h h' => by rw [h] at h'; cases h'⟩

theorem MadeDirs.trans {fs₁ fs₂ fs₃ : Fs} (h : MadeDirs p fs₁ fs₂) (h' : MadeDirs p fs₂ fs₃) :
    MadeDirs p fs₁ fs₃ where
  grown := h.grown.trans h'.grown
  dirs l i h₁ h₃ := by
    cases h₂ : fs₂.entry l with
    | none => exact h'.dirs l i h₂ h₃
    | some j =>
      obtain rfl : j = i := Option.some.inj ((h'.grown.entry_of_some h₂).symm.trans h₃)
      rw [h'.grown.inode j (fs₂.entry_lt l j h₂)]
      exact h.dirs l j h₁ h₂

theorem MadeDirs.make {fs : Fs} {q : Path} (hq : q <+: p) (h : fs.entry (resolve q) = none) :
    MadeDirs p fs (fs.make (resolve q) (newDir mode)) where
  grown := .make h ⟨q, hq, rfl⟩
  dirs l i h₁ h₂ := by
    rw [Fs.entry_make] at h₂
    split at h₂
    · cases h₂
      rw [Fs.inode_make, if_pos rfl]
      exact isDir_newDir mode
    · rw [h₁] at h₂
      cases h₂

/-- **Nothing but directories is made.** -/
theorem recursiveMakeDir_madeDirs (p : Path) (mode : ℕ) (w : World) :
    wp (recursiveMakeDir p mode) (fun _ w' => MadeDirs p w.fs w'.fs) w :=
  recursiveMakeDir_fs (MadeDirs.refl p) MadeDirs.trans p w fun _ _ => MadeDirs.make

/-- The directories above the path do not come to lie at the path. -/
theorem MadeDirs.entry_eq {fs fs' : Fs} (hp : p ≠ []) (h : MadeDirs (getPrePath p) fs fs') :
    fs'.entry (resolve p) = fs.entry (resolve p) := by
  rcases h.grown.entry (resolve p) with h | ⟨⟨q, hq, hl⟩, -⟩
  · exact h
  · exact absurd hl.symm (resolve_ne_of_getPrePath hp hq)

theorem isDirectory_make {fs : Fs} (hp : p ≠ []) :
    (fs.make (resolve p) (newDir mode)).IsDirectory p := by
  refine ⟨newDir mode, ?_, isDir_newDir mode⟩
  rw [Fs.stat, Fs.entry_make, if_pos rfl]
  simp [Fs.inode_make, hp, isDir_newDir]

/-- What `stat` does not find is no directory, nor does it become one above. -/
theorem not_isDirectory {fs fs' : Fs} (hp : p ≠ []) (hs : fs.stat p = none)
    (h : MadeDirs (getPrePath p) fs fs') : ¬fs'.IsDirectory p := by
  rintro ⟨n, hn, hdir⟩
  rw [Fs.stat, h.entry_eq hp] at hn
  rw [Fs.stat] at hs
  cases he : fs.entry (resolve p) with
  | none =>
    rw [he] at hn
    cases hn
  | some i =>
    have hi : fs'.inode i = fs.inode i := h.grown.inode i (fs.entry_lt _ _ he)
    rw [he, Option.map_some] at hn hs
    rw [hi, hs] at hn
    cases hn

/-- **The result**, where what `stat` finds is no socket and no block device. -/
theorem wp_recursiveMakeDir_result (hpass : ¬∃ n, w.fs.stat p = some n ∧ n.PassesForDir) :
    wp (recursiveMakeDir p mode) (fun r w' => r = NEWIUP_OK ↔ w'.fs.IsDirectory p) w := by
  rw [recursiveMakeDir]
  split
  · next hp =>
    refine iff_of_false newiup_fail_ne_ok ?_
    rintro ⟨n, hn, -⟩
    simp [Fs.stat, hp] at hn
  next hp =>
  refine wp_getFs ?_
  split
  · next info hs =>
    show (if _ then NEWIUP_OK else NEWIUP_FAIL) = NEWIUP_OK ↔ _
    split
    · next hbit =>
      refine iff_of_true rfl ⟨info, hs, ?_⟩
      by_contra hdir
      exact hpass ⟨info, hs, hbit, by simpa using hdir⟩
    · next hbit =>
      refine iff_of_false newiup_fail_ne_ok ?_
      rintro ⟨n, hn, hdir⟩
      cases hs.symm.trans hn
      exact hbit (Inode.bit_of_isDir hdir)
  · next hs =>
    have hnot : ∀ {fs'}, MadeDirs (getPrePath p) w.fs fs' → ¬fs'.IsDirectory p :=
      not_isDirectory hp hs
    -- the directory is made at once, or after the one above it; else it is not there
    rw [wp_bind]
    refine wp_oneDirMake (fun sys _ => ?_) fun sys => ?_
    · rw [if_pos rfl]
      exact iff_of_true rfl (isDirectory_make hp)
    · rw [if_neg newiup_fail_ne_ok]
      refine wp_ite (fun _ => iff_of_false newiup_fail_ne_ok (hnot (.refl _ _))) fun _ => ?_
      rw [wp_bind]
      refine wp_mono (recursiveMakeDir_madeDirs (getPrePath p) mode ⟨w.fs, sys⟩) fun r w' hm => ?_
      refine wp_ite (fun _ => iff_of_false newiup_fail_ne_ok (hnot hm)) fun _ => ?_
      refine wp_oneDirMake (fun sys _ => iff_of_true rfl (isDirectory_make hp)) fun sys => ?_
      exact iff_of_false newiup_fail_ne_ok (hnot hm)

/-- What passes for a directory is left alone, with success. -/
theorem wp_recursiveMakeDir_passes {n : Inode} (hs : w.fs.stat p = some n)
    (hn : n.PassesForDir) :
    wp (recursiveMakeDir p mode) (fun r w' => r = NEWIUP_OK ∧ ¬w'.fs.IsDirectory p) w := by
  have hp : p ≠ [] := by
    rintro rfl
    simp [Fs.stat] at hs
  rw [recursiveMakeDir, dif_neg hp]
  refine wp_getFs ?_
  rw [hs]
  refine ⟨if_pos hn.1, ?_⟩
  rintro ⟨m, hm, hdir⟩
  cases hs.symm.trans hm
  rw [hn.2] at hdir
  cases hdir

end Rules

/-- **When `recursive_make_dir` does what it is for.**  It always makes nothing but
missing directories; what it returns is right exactly when the path does not lead to a
socket, a block device or whatever else passes for a directory. -/
theorem makesDirectory_iff (p : Path) (mode : ℕ) (w : World) :
    MakesDirectory p mode w ↔ ¬∃ n, w.fs.stat p = some n ∧ n.PassesForDir := by
  constructor
  · rintro ⟨-, h⟩ ⟨n, hs, hn⟩
    have hrun : wp (recursiveMakeDir p mode) _ w := wp_recursiveMakeDir_passes hs hn
    obtain ⟨hok, hnot⟩ : _ ∧ _ := hrun
    exact hnot (h.mp hok)
  · intro h
    exact ⟨recursiveMakeDir_madeDirs p mode w, wp_recursiveMakeDir_result h⟩

/-- `S_IFSOCK`, the type of a socket. -/
def S_IFSOCK : ℕ := 0o140000

/-- A disk with a socket at `/o`. -/
def socketFs : Fs :=
  (Fs.empty.make (resolve "/".toList) (newDir DIR_MODE)).make (resolve "/o".toList)
    ⟨S_IFSOCK ||| 0o755, []⟩

/-- **A socket passes for a directory**: the path of one is reported as a directory. -/
theorem socket_passes_for_directory :
    ¬∀ (p : Path) (mode : ℕ) (fs : Fs), p.length < 2048 → MakesDirectory p mode ⟨fs, []⟩ := by
  intro h
  have hs : socketFs.stat "/o".toList = some ⟨S_IFSOCK ||| 0o755, []⟩ := by decide +kernel
  have hrun : wp (recursiveMakeDir "/o".toList DIR_MODE) _ ⟨socketFs, []⟩ :=
    wp_recursiveMakeDir_passes hs (by decide)
  obtain ⟨hok, hnot⟩ : _ ∧ _ := hrun
  exact hnot ((h "/o".toList DIR_MODE socketFs (by decide)).2.mp hok)

end Newiup
