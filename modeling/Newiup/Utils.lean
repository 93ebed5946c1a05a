import Newiup.Fs
import Mathlib.Data.List.DropRight

/-!
# File utilities

The functions of `utils/utils.c` the daemon calls on files and directories.
They return `NEWIUP_OK` or `NEWIUP_FAIL` as the C functions return `0` or `-1`.

Each of them is a program over the file system: it reads the results of its system calls
one after the other, and nothing is assumed about them.  So it stops where the C function
stops, and what it has done up to there stays: `move_file` may leave a part of the copy
behind, and `recursive_make_dir` some of the ancestors.  The rule of a function says what
holds of the file system in all these cases, and it is what the proofs about its callers
use.

## Main definitions

* `recursiveMakeDir` — make a directory and its missing ancestors.
* `fileExistsState`, `isFile`, `isDir`, `createFile`, `deleteFile` — one call each.
* `moveFile` — copy, then remove the original.
-/

namespace Newiup

/-- `NEWIUP_OK`. -/
def NEWIUP_OK : ℤ := 0
/-- `NEWIUP_FAIL`. -/
def NEWIUP_FAIL : ℤ := -1

theorem newiup_fail_ne_ok : NEWIUP_FAIL ≠ NEWIUP_OK := by decide

/-- `NEWIUP_PATH_LEN`. -/
def NEWIUP_PATH_LEN : ℕ := 1024
/-- `DIR_MODE`. -/
def DIR_MODE : ℕ := 0o755

/-! ### Tests -/

/-- `access(filename, 0)`. -/
def fileExistsState (p : Path) : Os ℤ := do
  return if (← getFs).has p then NEWIUP_OK else NEWIUP_FAIL

/-- `is_file`: a regular file is at the path. -/
def isFile (p : Path) : Os ℤ := do
  return if ((← getFs).stat p).elim false Inode.isReg then NEWIUP_OK else NEWIUP_FAIL

/-- `is_dir`: a directory is at the path. -/
def isDir (p : Path) : Os ℤ := do
  return if ((← getFs).stat p).elim false Inode.isDir then NEWIUP_OK else NEWIUP_FAIL

/-! ### Directories -/

/-- `one_dir_make`. -/
def oneDirMake (p : Path) (mode : ℕ) : Os ℤ := do
  return if ← mkdir p mode then NEWIUP_OK else NEWIUP_FAIL

/-- `get_pre_path`: drop trailing slashes, the last component, and the slashes
before it. -/
def getPrePath (p : Path) : Path :=
  ((p.rdropWhile (· == '/')).rdropWhile (· != '/')).rdropWhile (· == '/')

theorem getPrePath_initial (p : Path) : getPrePath p <+: p :=
  ((List.rdropWhile_prefix _ _).trans (List.rdropWhile_prefix _ _)).trans
    (List.rdropWhile_prefix _ _)

/-- One of the first two passes drops the last character. -/
theorem getPrePath_length_lt {p : Path} (hp : p ≠ []) : (getPrePath p).length < p.length := by
  obtain ⟨q, c, rfl⟩ : ∃ q c, p = q ++ [c] :=
    ⟨p.dropLast, p.getLast hp, (List.dropLast_append_getLast hp).symm⟩
  have hle : (getPrePath (q ++ [c])).length ≤ q.length := by
    unfold getPrePath
    refine (List.IsPrefix.length_le (List.rdropWhile_prefix _ _)).trans ?_
    by_cases hc : c = '/'
    · -- the first pass drops the slash
      subst hc
      rw [List.rdropWhile_concat_pos _ _ _ (by simp)]
      exact ((List.rdropWhile_prefix _ _).trans (List.rdropWhile_prefix _ _)).length_le
    · -- the first pass keeps everything, the second drops `c`
      rw [List.rdropWhile_concat_neg _ _ _ (by simpa using hc),
        List.rdropWhile_concat_pos _ _ _ (by simpa using hc)]
      exact (List.rdropWhile_prefix _ _).length_le
  simpa using Nat.lt_succ_of_le hle

/-- `recursive_make_dir`. -/
def recursiveMakeDir (p : Path) (mode : ℕ) : Os ℤ :=
  if _h : p = [] then
    return NEWIUP_FAIL
  else do
    match (← getFs).stat p with
    | some info =>
        -- the bit test also accepts a socket or a block device
        return if info.mode &&& S_IFDIR ≠ 0 then NEWIUP_OK else NEWIUP_FAIL
    | none =>
        if (← oneDirMake p mode) = NEWIUP_OK then
          return NEWIUP_OK
        if p.length > 2047 then
          return NEWIUP_FAIL
        if (← recursiveMakeDir (getPrePath p) mode) ≠ NEWIUP_OK then
          return NEWIUP_FAIL
        oneDirMake p mode
  termination_by p.length
  decreasing_by exact getPrePath_length_lt ‹_›

/-! ### Files -/

/-- `create_file`. -/
def createFile (p : Path) : Os ℤ := do
  return if (← openTrunc p 0o666).isSome then NEWIUP_OK else NEWIUP_FAIL

/-- `delete_file`: the result of `remove` is dropped. -/
def deleteFile (p : Path) : Os ℤ := do
  let _ ← remove p
  return NEWIUP_OK

/-- `st_blksize`. -/
def blocksize : ℕ := 4096

/-- The copy loop of `move_file`, from offset `pos` of `sd`.  Each round moves at
least one byte, so the length of the source bounds the number of rounds. -/
def copyLoop (sd dd : Ino) : ℕ → ℕ → Os ℤ
  | 0, _ => return NEWIUP_FAIL
  | fuel + 1, pos => do
      match ← readFd sd pos blocksize with
      | none => return NEWIUP_FAIL
      | some buf =>
          if buf = [] then
            return NEWIUP_OK
          if (← writeFd dd buf) ≠ some buf.length then
            return NEWIUP_FAIL
          copyLoop sd dd fuel (pos + buf.length)

/-- `move_file`. -/
def moveFile (origFile destFile : Path) : Os ℤ := do
  match ← openRead origFile with
  | none => return NEWIUP_FAIL
  | some sd =>
      -- `fstat(sd, &st)`
      if (← result).isNone then
        return NEWIUP_FAIL
      let st := (← getFs).inode sd
      match ← openTrunc destFile (st.mode &&& 0o7777) with
      | none => return NEWIUP_FAIL
      | some dd =>
          if (← copyLoop sd dd (st.data.length + 1) 0) ≠ NEWIUP_OK then
            return NEWIUP_FAIL
          let _ ← remove origFile
          return NEWIUP_OK

/-! ### Rules -/

section Rules

variable {w : World}

@[simp] theorem wp_fileExistsState {p : Path} {Q : ℤ → World → Prop} :
    wp (fileExistsState p) Q w ↔ Q (if w.fs.has p then NEWIUP_OK else NEWIUP_FAIL) w := Iff.rfl

@[simp] theorem wp_isDir {p : Path} {Q : ℤ → World → Prop} :
    wp (isDir p) Q w ↔
      Q (if (w.fs.stat p).elim false Inode.isDir then NEWIUP_OK else NEWIUP_FAIL) w := Iff.rfl

/-- Making a file removes none. -/
theorem wp_createFile_ge (p : Path) {q : Path} (hq : w.fs.has q = true) :
    wp (createFile p) (fun _ w' => w'.fs.has q = true) w := by
  rw [createFile, wp_bind]
  refine wp_openTrunc (fun sys _ _ => ?_) (fun sys i _ _ _ => hq) (fun _ _ _ _ _ => hq)
    fun _ => hq
  show Fs.has (w.fs.make (resolve p) ⟨S_IFREG ||| 0o666, []⟩) q = true
  rw [Fs.has, Fs.entry_make]
  split
  exacts [rfl, hq]

/-- A file that is deleted without failure is gone. -/
theorem wp_deleteFile_ok {p : Path} {fs : Fs} {sys : Sys} (hsys : none ∉ sys) :
    wp (deleteFile p) (fun _ w' => w'.fs.has p = false) ⟨fs, sys⟩ := by
  rw [deleteFile, wp_bind, remove, wp_bind]
  refine wp_result_ok hsys fun k sys _ => wp_getFs ?_
  refine wp_ite (fun _ => ?_) fun h => ?_
  · show Fs.has (fs.unlink (resolve p)) p = false
    rw [Fs.has, Fs.entry_unlink, if_pos rfl]
    rfl
  · simpa using h

/-- Deleting adds nothing. -/
theorem wp_deleteFile_le (p : Path) (l : Loc) :
    wp (deleteFile p) (fun _ w' => w'.fs.entry l = none ∨ w'.fs.entry l = w.fs.entry l) w := by
  rw [deleteFile, wp_bind]
  refine wp_remove (fun _ => ?_) fun _ => Or.inr rfl
  show (w.fs.unlink _).entry l = none ∨ (w.fs.unlink _).entry l = _
  rw [Fs.entry_unlink]
  split
  exacts [Or.inl rfl, Or.inr rfl]

theorem wp_oneDirMake {p : Path} {mode : ℕ} {Q : ℤ → World → Prop}
    (hok : ∀ sys, w.fs.entry (resolve p) = none →
      Q NEWIUP_OK ⟨w.fs.make (resolve p) (newDir mode), sys⟩)
    (hfail : ∀ sys, Q NEWIUP_FAIL ⟨w.fs, sys⟩) : wp (oneDirMake p mode) Q w := by
  rw [oneDirMake, wp_bind]
  exact wp_mkdir hok hfail

/-- **The rule for `recursive_make_dir`.**  Between before and after stands every
preorder that the calls of `one_dir_make` at prefixes of the path stay in. -/
theorem recursiveMakeDir_rel {R : World → World → Prop} {mode : ℕ} (hrefl : ∀ w, R w w)
    (htrans : ∀ {w₁ w₂ w₃}, R w₁ w₂ → R w₂ w₃ → R w₁ w₃) :
    ∀ (n : ℕ) (p : Path) (w : World), p.length = n →
    (∀ q w, q <+: p → wp (oneDirMake q mode) (fun _ w' => R w w') w) →
    wp (recursiveMakeDir p mode) (fun _ w' => R w w') w := by
  intro n
  induction n using Nat.strong_induction_on with
  | _ n ih =>
    intro p w hn hmake
    rw [recursiveMakeDir]
    split
    · exact hrefl w
    next hp =>
    refine wp_getFs ?_
    split
    · exact hrefl w
    · rw [wp_bind]
      refine wp_mono (hmake p w List.prefix_rfl) fun r w₁ h₁ => ?_
      refine wp_ite (fun _ => h₁) fun _ => wp_ite (fun _ => h₁) fun _ => ?_
      rw [wp_bind]
      have hlt : (getPrePath p).length < n := hn ▸ getPrePath_length_lt hp
      refine wp_mono (ih _ hlt _ w₁ rfl fun q w hq =>
        hmake q w (hq.trans (getPrePath_initial p))) fun r w₂ h₂ => ?_
      refine wp_ite (fun _ => htrans h₁ h₂) fun _ => ?_
      exact wp_mono (hmake p w₂ List.prefix_rfl) fun r w₃ h₃ => htrans (htrans h₁ h₂) h₃

/-- The rule for what is said of the file system only. -/
theorem recursiveMakeDir_fs {R : Fs → Fs → Prop} {mode : ℕ} (hrefl : ∀ fs, R fs fs)
    (htrans : ∀ {fs₁ fs₂ fs₃}, R fs₁ fs₂ → R fs₂ fs₃ → R fs₁ fs₃) (p : Path) (w : World)
    (hmake : ∀ fs q, q <+: p → fs.entry (resolve q) = none →
      R fs (fs.make (resolve q) (newDir mode))) :
    wp (recursiveMakeDir p mode) (fun _ w' => R w.fs w'.fs) w :=
  recursiveMakeDir_rel (R := fun w w' => R w.fs w'.fs) (fun w => hrefl w.fs) htrans _ p w rfl
    fun q _ hq => wp_oneDirMake (fun _ h => hmake _ q hq h) fun _ => hrefl _

/-- Directories are made only at the path and at prefixes of it, and only where
nothing was. -/
theorem recursiveMakeDir_grown (mode : ℕ) (p : Path) (w : World) :
    wp (recursiveMakeDir p mode)
      (fun _ w' => Fs.Grown (fun l => ∃ q, q <+: p ∧ l = resolve q) w.fs w'.fs) w :=
  recursiveMakeDir_fs (Fs.Grown.refl _) Fs.Grown.trans p w fun _ q hq h => .make h ⟨q, hq, rfl⟩

/-- The copy loop writes to the destination only, and where it reports success it
has appended all that was left of the source. -/
theorem wp_copyLoop {sd dd : Ino} (hne : sd ≠ dd) : ∀ (fuel pos : ℕ) (w : World),
    wp (copyLoop sd dd fuel pos) (fun r w' => w'.fs.entry = w.fs.entry ∧
      (∀ i, i ≠ dd → w'.fs.inode i = w.fs.inode i) ∧
      (w'.fs.inode dd).mode = (w.fs.inode dd).mode ∧
      (r = NEWIUP_OK → (w'.fs.inode dd).data =
        (w.fs.inode dd).data ++ (w.fs.inode sd).data.drop pos)) w := by
  intro fuel
  induction fuel with
  | zero =>
    intro pos w
    exact ⟨rfl, fun _ _ => rfl, rfl, fun h => absurd h newiup_fail_ne_ok⟩
  | succ fuel ih =>
    intro pos w
    rw [copyLoop, wp_bind]
    refine wp_readFd (fun sys k hk => ?_) fun sys => ?_
    · refine wp_ite (fun hnil => ?_) (fun _ => ?_)
      · -- the end of the source
        have hk' : k ≠ 0 := (hk (by decide)).ne'
        refine ⟨rfl, fun _ _ => rfl, rfl, fun _ => ?_⟩
        rw [List.take_eq_nil_iff] at hnil
        rw [hnil.resolve_left hk', List.append_nil]
        rfl
      · rw [wp_bind]
        refine wp_writeFd (fun sys j => ?_) fun sys => ?_
        · refine wp_ite (fun _ => ?_) (fun hfull => ?_)
          · rw [wp_pure]
            refine ⟨rfl, fun i hi => ?_, ?_, fun h => absurd h newiup_fail_ne_ok⟩
            · rw [Fs.inode_setData, if_neg hi]
            · rw [Fs.inode_setData, if_pos rfl]
          · -- a full write: the rest of the loop starts after it
            set rest := (w.fs.inode sd).data.drop pos with hrest
            set buf := rest.take k with hbuf
            have hall : buf.take j = buf := by
              have hlen : (buf.take j).length = buf.length := by simpa using hfull
              exact List.take_of_length_le (by rw [List.length_take] at hlen; omega)
            have hsplit : buf ++ rest.drop buf.length = rest :=
              List.prefix_iff_eq_append.mp (List.take_prefix k rest)
            refine wp_mono (ih _ _) fun r w' ⟨he, hi, hm, hd⟩ => ⟨he, ?_, ?_, ?_⟩
            · exact fun i hne => (hi i hne).trans (by rw [Fs.inode_setData, if_neg hne])
            · exact hm.trans (by rw [Fs.inode_setData, if_pos rfl])
            · intro hr
              rw [hd hr, Fs.inode_setData, if_pos rfl, Fs.inode_setData, if_neg hne, hall,
                List.append_assoc, ← List.drop_drop, ← hrest, hsplit]
        · exact ⟨rfl, fun _ _ => rfl, rfl, fun h => absurd h newiup_fail_ne_ok⟩
    · exact ⟨rfl, fun _ _ => rfl, rfl, fun h => absurd h newiup_fail_ne_ok⟩

/-- A file made by `open` is a regular one. -/
theorem isReg_openMode (m : ℕ) (b : Bytes) :
    (Inode.mk (S_IFREG ||| (m &&& 0o7777)) b).isReg = true := by
  have h : (S_IFREG ||| (m &&& 0o7777)) &&& S_IFMT = S_IFREG := by
    rw [Nat.and_or_distrib_right, Nat.and_assoc, show 0o7777 &&& S_IFMT = 0 from rfl,
      Nat.and_zero, Nat.or_zero]
    rfl
  simpa [Inode.isReg] using h

/-- The part of `move_file` after both files are open: the destination is an empty
regular file other than the source. -/
theorem wp_copyLoop_from_start {o d : Path} {sd dd : Ino} {b : Bytes} {fuel : ℕ}
    (ho : w.fs.entry (resolve o) = some sd) (hd : w.fs.entry (resolve d) = some dd)
    (hne : sd ≠ dd) (hreg : (w.fs.inode sd).isReg = true) (hb : (w.fs.inode sd).data = b)
    (hdreg : (w.fs.inode dd).isReg = true) (hempty : (w.fs.inode dd).data = [])
    (hop : namesFile o = true) (hdp : namesFile d = true) :
    wp (copyLoop sd dd fuel 0) (fun r w' => w'.fs.read o = some b ∧
      w'.fs.entry (resolve d) = some dd ∧
      (r = NEWIUP_OK → w'.fs.read d = some b)) w := by
  refine wp_mono (wp_copyLoop hne fuel 0 w) fun r w' ⟨he, hi, hm, hdata⟩ => ⟨?_, ?_, ?_⟩
  · exact Fs.read_eq_some.mpr
      ⟨sd, by rw [he, ho], by rw [hi sd hne, hreg], by rw [hi sd hne, hb], hop⟩
  · rw [he, hd]
  · intro hr
    refine Fs.read_eq_some.mpr ⟨dd, by rw [he, hd], ?_, ?_, hdp⟩
    · unfold Inode.isReg at hdreg ⊢
      rw [hm]; exact hdreg
    · rw [hdata hr, hempty, hb]; rfl

/-- **`move_file` between two different files**, the destination not a device.  Where it
reports success the destination holds the content of the source, and otherwise the source
still does. -/
theorem wp_moveFile {o d : Path} {b : Bytes} (hr : w.fs.read o = some b)
    (hne : w.fs.entry (resolve d) ≠ w.fs.entry (resolve o)) (hkeeps : w.fs.Keeps (resolve d)) :
    wp (moveFile o d) (fun r w' => (r = NEWIUP_OK → w'.fs.read d = some b) ∧
      (r ≠ NEWIUP_OK → w'.fs.read o = some b)) w := by
  obtain ⟨sd, ho, hreg, hb, hop⟩ := Fs.read_eq_some.mp hr
  have hloc : resolve d ≠ resolve o := fun h => hne (by rw [h])
  have hfail : ∀ fs sys, Fs.read fs o = some b →
      (NEWIUP_FAIL = NEWIUP_OK → (World.mk fs sys).fs.read d = some b) ∧
      (NEWIUP_FAIL ≠ NEWIUP_OK → (World.mk fs sys).fs.read o = some b) :=
    fun fs sys h => ⟨fun h' => absurd h' newiup_fail_ne_ok, fun _ => h⟩
  -- from the two open files to the end
  have hrest : ∀ (w₁ : World) (dd : Ino) (fuel : ℕ), w₁.fs.entry (resolve o) = some sd →
      w₁.fs.entry (resolve d) = some dd → sd ≠ dd → (w₁.fs.inode sd).isReg = true →
      (w₁.fs.inode sd).data = b → (w₁.fs.inode dd).isReg = true → (w₁.fs.inode dd).data = [] →
      namesFile d = true →
      wp (do
        if (← copyLoop sd dd fuel 0) ≠ NEWIUP_OK then
          return NEWIUP_FAIL
        let _ ← remove o
        return NEWIUP_OK) (fun r w' => (r = NEWIUP_OK → w'.fs.read d = some b) ∧
          (r ≠ NEWIUP_OK → w'.fs.read o = some b)) w₁ := by
    intro w₁ dd fuel ho₁ hd₁ hne₁ hreg₁ hb₁ hdreg hempty hdp
    rw [wp_bind]
    refine wp_mono (wp_copyLoop_from_start ho₁ hd₁ hne₁ hreg₁ hb₁ hdreg hempty hop hdp) ?_
    intro r w₂ ⟨hsrc, hent, hok⟩
    refine wp_ite (fun _ => hfail w₂.fs w₂.sys hsrc) (fun hr => ?_)
    rw [wp_bind]
    have hdst : w₂.fs.read d = some b := hok (not_not.mp hr)
    refine wp_remove (fun sys => ⟨fun _ => ?_, fun h => absurd rfl h⟩)
      (fun sys => ⟨fun _ => hdst, fun h => absurd rfl h⟩)
    exact (Fs.read_unlink_of_ne hloc).trans hdst
  rw [moveFile, wp_bind]
  refine wp_openRead (fun sys i hi => ?_) fun sys => hfail w.fs sys hr
  obtain rfl : sd = i := Option.some.inj (ho.symm.trans hi)
  simp only [wp_bind]
  refine wp_result fun r sys => wp_ite (fun _ => hfail w.fs sys hr) fun _ => wp_getFs ?_
  rw [wp_bind]
  refine wp_openTrunc (fun sys hnone hdp => ?_) (fun sys dd hdd hdreg hdp => ?_)
    (fun sys dd hdd hdev _ => ?_) fun sys => hfail _ sys hr
  · have hlt : sd < w.fs.next := w.fs.entry_lt _ _ ho
    refine hrest _ _ _ ?_ ?_ hlt.ne ?_ ?_ ?_ ?_ hdp
    · rw [Fs.entry_make, if_neg hloc.symm, ho]
    · rw [Fs.entry_make, if_pos rfl]
    · rw [Fs.inode_make, if_neg hlt.ne, hreg]
    · rw [Fs.inode_make, if_neg hlt.ne, hb]
    · rw [Fs.inode_make, if_pos rfl]
      exact isReg_openMode _ _
    · rw [Fs.inode_make, if_pos rfl]
  · have hsd : sd ≠ dd := fun h => hne (by rw [hdd, ho, h])
    refine hrest _ _ _ ho hdd hsd ?_ ?_ ?_ ?_ hdp
    · rw [Fs.inode_setData, if_neg hsd, hreg]
    · rw [Fs.inode_setData, if_neg hsd, hb]
    · rw [Fs.inode_setData, if_pos rfl]; exact hdreg
    · rw [Fs.inode_setData, if_pos rfl]
  · -- a device would have been opened
    rw [hkeeps dd hdd] at hdev
    cases hdev

end Rules

end Newiup
