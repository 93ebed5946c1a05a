import Newiup.MoveFile
import Newiup.MakeDir
import Newiup.Relocation

/-!
# Finished files that meet

The moving finish actions bring the files of a monitored tree into one directory, or
into one directory a day, under the last component of their paths.  What is there under
that name is replaced.

The finish of one file knows nothing of the others, and what it finds at its destination
is replaced.  So the question is about the sequence as a whole.  It is answered for stores
in general in `Relocation`; what is left is that a finish action, seen from the files it
is about, is one move of a store; an action that copies is different only where a file
goes to its own place.

## Main definitions

* `doMoveToAll` — the finish actions of a group on one file after another.
* `allSucceed` — no call that they make fails.
* `FilesKept` — every file is under `move-to` in the end.

## Main results

* `files_kept_iff` — **the files are kept exactly when no two go to one path, none goes
  to the path of a file that is moved later, and none is copied onto itself.**
-/

namespace Newiup

/-! ### The files of a disk -/

namespace Fs

/-- The contents of the regular files. -/
def files (fs : Fs) (l : Loc) : Option Bytes :=
  ((fs.entry l).map fs.inode).bind fun n => if n.isReg then some n.data else none

/-- The disk is a tree: nothing has two names. -/
def OneName (fs : Fs) : Prop := ∀ l l' i, fs.entry l = some i → fs.entry l' = some i → l = l'

theorem files_resolve (fs : Fs) {p : Path} (hp : namesFile p = true) :
    fs.files (resolve p) = fs.read p := by
  rw [files, read, find_of_namesFile hp]

theorem namesFile_of_read {fs : Fs} {p : Path} (h : (fs.read p).isSome = true) :
    namesFile p = true := by
  obtain ⟨b, hb⟩ := Option.isSome_iff_exists.mp h
  obtain ⟨i, -, -, -, hp⟩ := read_eq_some.mp hb
  exact hp

/-- A file can be brought to a path: the text can name one, and there is a regular file to
replace or a directory to put it into. -/
def takesFile (fs : Fs) (p : Path) : Bool :=
  namesFile p && (fs.entry (resolve p)).elim (fs.inDir (resolve p)) fun i => (fs.inode i).isReg

theorem files_congr {fs fs' : Fs} {l l' : Loc} (he : fs'.entry l = fs.entry l')
    (hi : ∀ i, fs.entry l' = some i → fs'.inode i = fs.inode i) : fs'.files l = fs.files l' := by
  unfold files
  rw [he]
  cases h : fs.entry l' with
  | none => rfl
  | some i => simp only [Option.map_some, Option.bind_some, hi i h]

theorem files_of_none {fs : Fs} {l : Loc} (h : fs.entry l = none) : fs.files l = none := by
  rw [files, h]
  rfl

theorem OneName.unlink {fs : Fs} (h : fs.OneName) (l : Loc) : (fs.unlink l).OneName := by
  intro k k' i hk hk'
  rw [entry_unlink] at hk hk'
  split at hk
  · cases hk
  · split at hk'
    · cases hk'
    · exact h k k' i hk hk'

theorem OneName.make {fs : Fs} (h : fs.OneName) (l : Loc) (n : Inode) : (fs.make l n).OneName := by
  -- the new inode is at no other place
  have hnew : ∀ k, fs.entry k ≠ some fs.next := fun k hk =>
    absurd (fs.entry_lt k _ hk) (Nat.lt_irrefl _)
  intro k k' i hk hk'
  rw [entry_make] at hk hk'
  split at hk
  · cases hk
    split at hk'
    · next h₁ h₂ => rw [h₁, h₂]
    · exact absurd hk' (hnew k')
  · split at hk'
    · cases hk'
      exact absurd hk (hnew k)
    · exact h k k' i hk hk'

/-- A file is renamed. -/
theorem OneName.rename {fs : Fs} (h : fs.OneName) {l k : Loc} {i : Ino} (hi : fs.entry k = some i) :
    ((fs.link l i (fs.entry_lt _ _ hi)).unlink k).OneName := by
  -- what is at the new name was at the old one, which is free now
  have hold : ∀ q j, ((fs.link l i (fs.entry_lt _ _ hi)).unlink k).entry q = some j →
      q = l ∧ i = j ∨ q ≠ k ∧ fs.entry q = some j := by
    intro q j hq
    rw [entry_unlink] at hq
    split at hq
    · cases hq
    · next hqk =>
      rw [entry_link] at hq
      split at hq
      · next hql => exact Or.inl ⟨hql, Option.some.inj hq⟩
      · exact Or.inr ⟨hqk, hq⟩
  intro q q' j hq hq'
  rcases hold q j hq with ⟨rfl, rfl⟩ | ⟨hne, hq⟩
  · rcases hold q' i hq' with ⟨rfl, -⟩ | ⟨hne', hq'⟩
    · rfl
    · exact absurd (h _ _ _ hq' hi) hne'
  · rcases hold q' j hq' with ⟨-, rfl⟩ | ⟨-, hq'⟩
    · exact absurd (h _ _ _ hq hi) hne
    · exact h _ _ _ hq hq'

theorem files_rename {fs : Fs} {l k : Loc} {i : Ino} (hi : fs.entry k = some i) (hne : l ≠ k) :
    ((fs.link l i (fs.entry_lt _ _ hi)).unlink k).files = shift false fs.files ⟨k, l⟩ := by
  rw [shift, if_neg hne]
  funext q
  by_cases hqk : q = k
  · subst hqk
    rw [Function.update_self]
    exact files_of_none (by rw [entry_unlink, if_pos rfl])
  · rw [Function.update_of_ne hqk]
    by_cases hql : q = l
    · subst hql
      rw [Function.update_self]
      refine files_congr ?_ fun _ _ => rfl
      rw [entry_unlink, if_neg hqk, entry_link, if_pos rfl, hi]
    · rw [Function.update_of_ne hql]
      refine files_congr ?_ fun _ _ => rfl
      rw [entry_unlink, if_neg hqk, entry_link, if_neg hql]

theorem oneName_congr {fs fs' : Fs} (h : fs.OneName) (he : fs'.entry = fs.entry) : fs'.OneName := by
  unfold OneName
  rw [he]
  exact h

theorem files_unlink {fs : Fs} {l : Loc} :
    (fs.unlink l).files = Function.update fs.files l none := by
  funext k
  by_cases hk : k = l
  · subst hk
    rw [Function.update_self]
    exact files_of_none (by rw [entry_unlink, if_pos rfl])
  · rw [Function.update_of_ne hk]
    exact files_congr (by rw [entry_unlink, if_neg hk]) fun _ _ => rfl

/-- What is written to a file is seen under its name only. -/
theorem files_setData_of_ne {fs : Fs} (h : fs.OneName) {l k : Loc} {i : Ino} {b : Bytes}
    (hi : fs.entry l = some i) (hk : k ≠ l) : (fs.setData i b).files k = fs.files k := by
  refine files_congr rfl fun j hj => ?_
  rw [inode_setData, if_neg]
  rintro rfl
  exact hk (h _ _ _ hj hi)

/-- A directory that is made is no file. -/
theorem files_make_newDir {fs : Fs} {l : Loc} (h : fs.entry l = none) (mode : ℕ) :
    (fs.make l (newDir mode)).files = fs.files := by
  funext k
  by_cases hk : k = l
  · subst hk
    have hdir := isDir_newDir mode
    have hreg : (newDir mode).isReg = false := by
      unfold Inode.isDir at hdir
      unfold Inode.isReg
      rw [eq_of_beq hdir]
      rfl
    rw [files_of_none h, files, entry_make, if_pos rfl, Option.map_some, inode_make, if_pos rfl]
    simp [hreg]
  · refine files_congr (by rw [entry_make, if_neg hk]) fun i hi => ?_
    rw [inode_make, if_neg (fs.entry_lt k i hi).ne]

end Fs

/-! ### The finish actions of a group -/

/-- The finish action moves the file. -/
def EndProcess.moves (act : EndProcess) : Bool := act ≠ .keep ∧ act ≠ .delete

/-- The finish action sorts by the day. -/
def EndProcess.timed : EndProcess → Bool
  | .sameMoveTime => true
  | .diffMoveTime => true
  | _ => false

/-- `do_move_to` on the files of a group, each with the date of its day. -/
def doMoveToAll (mg : MonitorGroup) : List (CString × Path) → Os Unit
  | [] => return
  | (date, src) :: ms => do
      let _ ← doMoveTo date mg.finishAct mg.moveTo src
      doMoveToAll mg ms

/-- The directories that `do_move_to` and `store_by_time` make. -/
def makeMoveDirs (date : CString) (act : EndProcess) (moveTo : Path) : Os ℤ := do
  if act ≠ .sameMoveTime ∧ (← isDir moveTo) ≠ NEWIUP_OK then
    if (← recursiveMakeDir moveTo DIR_MODE) ≠ NEWIUP_OK then
      return NEWIUP_FAIL
  if act.timed then
    recursiveMakeDir (timeDir date moveTo) DIR_MODE
  else
    return NEWIUP_OK

/-- The calls of one finish action succeed: the directories are there or can be made, the
source is a regular file, and so is what is at the destination, if anything is. -/
def moveSucceeds (mg : MonitorGroup) (date : CString) (src : Path) (fs : Fs) : Bool :=
  let out := (makeMoveDirs date mg.finishAct mg.moveTo).run ⟨fs, []⟩
  out.1 == NEWIUP_OK && (fs.read src).isSome &&
    (finishPath mg date src).elim false out.2.fs.takesFile

/-- So do the calls of all of them, one after the other. -/
def allSucceed (mg : MonitorGroup) : List (CString × Path) → Fs → Bool
  | [], _ => true
  | (date, src) :: ms, fs => moveSucceeds mg date src fs &&
      allSucceed mg ms ((doMoveTo date mg.finishAct mg.moveTo src).run ⟨fs, []⟩).2.fs

/-- From where and to where a finish action moves a file. -/
def finishMove (mg : MonitorGroup) (x : CString × Path) : Move Loc :=
  ⟨resolve x.2, resolve ((finishPath mg x.1 x.2).getD [])⟩

/-- `move_file` or `rename`. -/
def moveOne (copies : Bool) (src dst : Path) : Os Unit := do
  if copies then
    let _ ← moveFile src dst
  else
    let _ ← rename src dst

section Rules

variable {mg : MonitorGroup} {date : CString} {src d : Path} {fs : Fs} {w : World}

/-- What making directories does to the rest of the disk. -/
structure Prepared (w w' : World) : Prop where
  sys : w.sys = [] → w'.sys = []
  oneName : w.fs.OneName → w'.fs.OneName
  files : w'.fs.files = w.fs.files

theorem Prepared.refl (w : World) : Prepared w w := ⟨id, id, rfl⟩

theorem Prepared.trans {w₁ w₂ w₃ : World} (h : Prepared w₁ w₂) (h' : Prepared w₂ w₃) :
    Prepared w₁ w₃ :=
  ⟨fun hs => h'.sys (h.sys hs), fun ho => h'.oneName (h.oneName ho), h'.files.trans h.files⟩

theorem wp_oneDirMake_prepared (p : Path) (mode : ℕ) :
    wp (oneDirMake p mode) (fun _ w' => Prepared w w') w := by
  have hsys : wp (oneDirMake p mode) (fun _ w' => w.sys = [] → w'.sys = []) w := by
    obtain ⟨fs, sys⟩ := w
    cases sys with
    | cons r rs => exact fun h => absurd h (List.cons_ne_nil _ _)
    | nil =>
      simp only [oneDirMake, mkdir, wp_bind, wp_result_nil, wp_getFs_iff]
      refine wp_ite (fun _ _ => rfl) fun _ _ => rfl
  have hfs : wp (oneDirMake p mode) (fun _ w' => (w.fs.OneName → w'.fs.OneName) ∧
      w'.fs.files = w.fs.files) w :=
    wp_oneDirMake (fun _ h => ⟨fun ho => ho.make _ _, Fs.files_make_newDir h mode⟩)
      fun _ => ⟨id, rfl⟩
  exact wp_mono (wp_and hsys hfs) fun _ _ h => ⟨h.1, h.2.1, h.2.2⟩

theorem wp_recursiveMakeDir_prepared (p : Path) (mode : ℕ) :
    wp (recursiveMakeDir p mode) (fun _ w' => Prepared w w') w :=
  recursiveMakeDir_rel Prepared.refl Prepared.trans _ p w rfl fun _ _ _ =>
    wp_oneDirMake_prepared _ _

theorem wp_makeMoveDirs (date : CString) (act : EndProcess) (moveTo : Path) :
    wp (makeMoveDirs date act moveTo) (fun _ w' => Prepared w w') w := by
  have hday : ∀ w₁, Prepared w w₁ → wp (if act.timed then
      recursiveMakeDir (timeDir date moveTo) DIR_MODE else return NEWIUP_OK)
      (fun _ w' => Prepared w w') w₁ := fun w₁ h₁ =>
    wp_ite (fun _ => wp_mono (wp_recursiveMakeDir_prepared _ _) fun _ _ h => h₁.trans h)
      fun _ => h₁
  rw [makeMoveDirs, wp_bind, wp_isDir]
  refine wp_ite (fun _ => ?_) fun _ => hday w (.refl w)
  rw [wp_bind]
  refine wp_mono (wp_recursiveMakeDir_prepared _ _) fun r w₁ h₁ => ?_
  exact wp_ite (fun _ => h₁) fun _ => hday w₁ h₁

/-- A directory that may have to be made comes before two programs alike. -/
theorem wp_after_dir {c c' : Prop} [Decidable c] [Decidable c'] {x y y' : Os ℤ}
    {P Q : World → Prop} (hc : c ↔ c')
    (hy : ∀ w, wp y' (fun r w₁ => r = NEWIUP_OK ∧ P w₁) w → wp y (fun _ w' => Q w') w)
    (h : wp (if c' then do
      let r ← x
      if r ≠ NEWIUP_OK then pure NEWIUP_FAIL else y'
      else y') (fun r w₁ => r = NEWIUP_OK ∧ P w₁) w) :
    wp (if c then do
      let r ← x
      if r ≠ NEWIUP_OK then pure NEWIUP_FAIL else y
      else y) (fun _ w' => Q w') w := by
  by_cases hcc : c
  · rw [if_pos (hc.mp hcc), wp_bind] at h
    rw [if_pos hcc, wp_bind]
    refine wp_mono h fun r w₁ h₁ => ?_
    refine wp_ite (fun hr => ?_) fun hr => ?_
    · rw [if_pos hr] at h₁
      exact absurd h₁.1 newiup_fail_ne_ok
    · rw [if_neg hr] at h₁
      exact hy w₁ h₁
  · rw [if_neg fun h' => hcc (hc.mpr h')] at h
    rw [if_neg hcc]
    exact hy w h

/-- The file is moved when its directory is made. -/
theorem wp_storeByTime_after (copies : Bool) {dir : Path} {Q : World → Prop}
    (h : wp (recursiveMakeDir (timeDir date dir) DIR_MODE) (fun r w₁ => r = NEWIUP_OK ∧
      wp (moveOne copies src (pathIn (timeDir date dir) src)) (fun _ w' => Q w') w₁) w) :
    wp (storeByTime date src dir (!copies)) (fun _ w' => Q w') w := by
  rw [storeByTime, wp_bind]
  refine wp_mono h fun r w₁ h₁ => ?_
  obtain ⟨hr, h₁⟩ := h₁
  rw [if_neg (not_not.mpr hr)]
  cases copies with
  | true => exact h₁
  | false => exact h₁

/-- The finish action, after its directories are made. -/
theorem wp_doMoveTo_after {Q : World → Prop} (hd : finishPath mg date src = some d)
    (h : wp (makeMoveDirs date mg.finishAct mg.moveTo)
      (fun r w₁ => r = NEWIUP_OK ∧
        wp (moveOne mg.finishAct.copies src d) (fun _ w' => Q w') w₁) w) :
    wp (doMoveTo date mg.finishAct mg.moveTo src) (fun _ w' => Q w') w := by
  rw [makeMoveDirs, wp_bind, wp_isDir] at h
  unfold doMoveTo
  unfold finishPath at hd
  cases hf : mg.finishAct with
  | keep => rw [hf] at hd; cases hd
  | delete => rw [hf] at hd; cases hd
  | sameMove =>
    rw [hf] at hd h
    cases hd
    refine wp_after_dir ?_ ?_ h
    · simp
    · exact fun w hw => hw.2
  | diffMove =>
    rw [hf] at hd h
    cases hd
    refine wp_after_dir ?_ ?_ h
    · simp
    · exact fun w hw => hw.2
  | sameMoveTime =>
    rw [hf] at hd h
    cases hd
    -- no look at `move-to`
    dsimp only at h
    rw [if_neg (by simp)] at h
    rw [if_neg (by decide)]
    dsimp only
    rw [wp_bind, wp_isDir, if_neg (by simp)]
    exact wp_storeByTime_after false h
  | diffMoveTime =>
    rw [hf] at hd h
    cases hd
    refine wp_after_dir ?_ ?_ h
    · simp
    · exact fun w hw => wp_storeByTime_after true hw

theorem wp_rename_files (hone : fs.OneName) (hr : (fs.read src).isSome = true)
    (hd : fs.takesFile d = true) :
    wp (rename src d) (fun _ w' => w'.sys = [] ∧ w'.fs.OneName ∧
      w'.fs.files = shift false fs.files ⟨resolve src, resolve d⟩) ⟨fs, []⟩ := by
  obtain ⟨b, hb⟩ := Option.isSome_iff_exists.mp hr
  obtain ⟨i, hi, hreg, -, hsp⟩ := Fs.read_eq_some.mp hb
  obtain ⟨hdp, hplace⟩ := Bool.and_eq_true_iff.mp hd
  have hren : fs.renames src d i = true := by
    refine Bool.and_eq_true_iff.mpr ⟨by rw [hsp, hdp]; rfl, ?_⟩
    cases he : fs.entry (resolve d) with
    | none => rwa [he] at hplace
    | some j =>
      rw [he] at hplace
      rw [Option.elim_some, Inode.isDir_of_isReg hreg, Inode.isDir_of_isReg hplace]
      rfl
  simp only [rename, wp_bind, wp_result_nil, wp_getFs_iff]
  split
  · next h => rw [hi] at h; cases h
  next j hj =>
  obtain rfl : i = j := Option.some.inj (hi.symm.trans hj)
  simp only [Option.isSome_some, Bool.true_and, hren, if_true]
  refine wp_ite (fun hsame => ?_) fun hne => ?_
  · -- the file is where it goes
    refine ⟨rfl, hone, ?_⟩
    rw [shift, if_pos (hone _ _ _ hsame hi), if_neg Bool.false_ne_true]
    rfl
  · simp only [wp_bind, wp_setFs_iff, wp_pure]
    have hloc : resolve d ≠ resolve src := fun he => hne (he ▸ hi)
    exact ⟨trivial, hone.rename hi, Fs.files_rename hi hloc⟩

theorem wp_remove_of_has {p : Path} {Q : Bool → World → Prop} (h : fs.has p = true)
    (hQ : Q true ⟨fs.unlink (resolve p), []⟩) : wp (remove p) Q ⟨fs, []⟩ := by
  simp only [remove, wp_bind, wp_result_nil, wp_getFs_iff, Option.isSome_some, Bool.true_and]
  rw [if_pos h]
  exact hQ

/-- The copy between two open files, and the removal of the source. -/
theorem wp_copy_remove {sd dd : Ino} {b : Bytes} {fuel : ℕ} (hone : fs.OneName)
    (hs : fs.entry (resolve src) = some sd) (hd : fs.entry (resolve d) = some dd) (hne : sd ≠ dd)
    (hreg : (fs.inode sd).isReg = true) (hb : (fs.inode sd).data = b)
    (hdreg : (fs.inode dd).isReg = true) (hempty : (fs.inode dd).data = [])
    (hsp : namesFile src = true) (hdp : namesFile d = true) (hfuel : b.length < fuel) :
    wp (do
      if (← copyLoop sd dd fuel 0) ≠ NEWIUP_OK then
        return NEWIUP_FAIL
      let _ ← remove src
      return NEWIUP_OK) (fun _ w' => w'.sys = [] ∧ w'.fs.OneName ∧ w'.fs.files =
        Function.update (Function.update fs.files (resolve d) (some b)) (resolve src) none)
      ⟨fs, []⟩ := by
  rw [wp_bind]
  have hstart : wp (copyLoop sd dd fuel 0) _ ⟨fs, []⟩ :=
    wp_copyLoop_from_start hs hd hne hreg hb hdreg hempty hsp hdp
  have hloop := wp_and (wp_copyLoop hne fuel 0 ⟨fs, []⟩)
    (wp_copyLoop_nil fuel 0 fs (by rw [hb]; omega) (Or.inl hne))
  refine wp_mono (wp_and hloop hstart) fun r w₂ h₂ => ?_
  obtain ⟨⟨⟨hent, hino, -⟩, hok, hsys, -⟩, -, -, hread⟩ := h₂
  obtain ⟨fs₂, sys⟩ := w₂
  dsimp only at hent hino hsys hread
  subst hsys
  rw [if_neg (not_not.mpr hok), wp_bind]
  -- the loop has written the destination; what is left is to remove the source
  refine wp_remove_of_has (Fs.has_iff.mpr ⟨sd, by rw [hent, hs]⟩) ?_
  refine ⟨rfl, (Fs.oneName_congr hone hent).unlink _, ?_⟩
  change (fs₂.unlink (resolve src)).files = _
  rw [Fs.files_unlink]
  congr 1
  funext k
  by_cases hk : k = resolve d
  · rw [hk, Function.update_self, Fs.files_resolve _ hdp]
    exact hread hok
  · rw [Function.update_of_ne hk]
    refine Fs.files_congr (by rw [hent]) fun i hi => hino i ?_
    rintro rfl
    exact hk (hone _ _ _ hi hd)

theorem wp_moveFile_files {b : Bytes} (hone : fs.OneName) (hr : fs.read src = some b)
    (hd : fs.takesFile d = true) :
    wp (moveFile src d) (fun _ w' => w'.sys = [] ∧ w'.fs.OneName ∧
      w'.fs.files = shift true fs.files ⟨resolve src, resolve d⟩) ⟨fs, []⟩ := by
  obtain ⟨sd, hs, hreg, hb, hsp⟩ := Fs.read_eq_some.mp hr
  obtain ⟨hdp, hplace⟩ := Bool.and_eq_true_iff.mp hd
  rw [moveFile, wp_bind, wp_openRead_nil hs hsp]
  simp only [wp_bind, wp_result_nil, Option.isNone_some, Bool.false_eq_true, if_false, wp_getFs_iff]
  by_cases hloc : resolve d = resolve src
  · -- the file is emptied, and its only name removed
    rw [wp_openTrunc_old (hloc ▸ hs) hdp hreg]
    dsimp only
    rw [wp_bind]
    have hnil : ((fs.setData sd []).inode sd).data = [] := by
      rw [Fs.inode_setData, if_pos rfl]
    have hloop : wp (copyLoop sd sd ((fs.inode sd).data.length + 1) 0) _ ⟨fs.setData sd [], []⟩ :=
      wp_copyLoop_nil _ 0 _ (by rw [hnil]; exact Nat.succ_pos _) (Or.inr hnil)
    refine wp_mono (wp_and hloop (wp_copyLoop_empty hnil)) fun r w₂ h₂ => ?_
    obtain ⟨⟨hok, hsys, -⟩, hfs⟩ := h₂
    obtain ⟨fs₂, sys⟩ := w₂
    dsimp only at hsys hfs
    subst hsys hfs
    rw [if_neg (not_not.mpr hok), wp_bind]
    refine wp_remove_of_has (Fs.has_iff.mpr ⟨sd, hs⟩) ?_
    refine ⟨rfl, (Fs.oneName_congr hone rfl).unlink _, ?_⟩
    change ((fs.setData sd []).unlink (resolve src)).files = _
    rw [Fs.files_unlink, hloc, shift, if_pos rfl, if_pos rfl]
    funext k
    by_cases hk : k = resolve src
    · rw [hk, Function.update_self, Function.update_self]
    · rw [Function.update_of_ne hk, Function.update_of_ne hk, Fs.files_setData_of_ne hone hs hk]
  · have hgoal : ∀ (fs₁ : Fs), (∀ k, k ≠ resolve d → fs₁.files k = fs.files k) →
        Function.update (Function.update fs₁.files (resolve d) (some b)) (resolve src) none =
          shift true fs.files ⟨resolve src, resolve d⟩ := by
      intro fs₁ hsame
      rw [shift, if_neg hloc, Fs.files_resolve _ hsp, hr]
      congr 1
      funext k
      by_cases hk : k = resolve d
      · rw [hk, Function.update_self, Function.update_self]
      · rw [Function.update_of_ne hk, Function.update_of_ne hk, hsame k hk]
    -- the destination is made, or emptied; no other file has its inode
    cases hd : fs.entry (resolve d) with
    | none =>
      have hlt : sd < fs.next := fs.entry_lt _ _ hs
      rw [hd, Option.elim_none] at hplace
      rw [wp_openTrunc_new hd hdp hplace]
      dsimp only
      have hone₁ := hone.make (resolve d) ⟨S_IFREG ||| (fs.inode sd).mode &&& 0o7777, []⟩
      refine wp_mono (wp_copy_remove (d := d) (b := b) hone₁ ?_ ?_ hlt.ne ?_ ?_ ?_ ?_ hsp hdp ?_)
        fun _ _ h => ⟨h.1, h.2.1, ?_⟩
      · rw [Fs.entry_make, if_neg (Ne.symm hloc), hs]
      · rw [Fs.entry_make, if_pos rfl]
      · rw [Fs.inode_make, if_neg hlt.ne, hreg]
      · rw [Fs.inode_make, if_neg hlt.ne, hb]
      · rw [Fs.inode_make, if_pos rfl]
        exact isReg_openMode _ _
      · rw [Fs.inode_make, if_pos rfl]
      · rw [hb]
        exact Nat.lt_succ_self _
      · rw [h.2.2]
        refine hgoal _ fun k hk => ?_
        refine Fs.files_congr (by rw [Fs.entry_make, if_neg hk]) fun i hi => ?_
        rw [Fs.inode_make, if_neg (fs.entry_lt _ _ hi).ne]
    | some dd =>
      have hne : sd ≠ dd := by
        rintro rfl
        exact hloc (hone _ _ _ hd hs)
      rw [hd, Option.elim_some] at hplace
      rw [wp_openTrunc_old hd hdp hplace]
      dsimp only
      have hone₁ : (fs.setData dd []).OneName := Fs.oneName_congr hone rfl
      refine wp_mono (wp_copy_remove (b := b) hone₁ hs hd hne ?_ ?_ ?_ ?_ hsp hdp ?_)
        fun _ _ h => ⟨h.1, h.2.1, ?_⟩
      · rw [Fs.inode_setData, if_neg hne, hreg]
      · rw [Fs.inode_setData, if_neg hne, hb]
      · rw [Fs.inode_setData, if_pos rfl]
        exact hplace
      · rw [Fs.inode_setData, if_pos rfl]
      · rw [hb]
        exact Nat.lt_succ_self _
      · rw [h.2.2]
        exact hgoal _ fun k hk => Fs.files_setData_of_ne hone hd hk

/-- **What a successful finish action does to the files of the disk.** -/
theorem wp_doMoveTo_files (hone : fs.OneName) (hok : moveSucceeds mg date src fs = true) :
    wp (doMoveTo date mg.finishAct mg.moveTo src) (fun _ w' => w'.sys = [] ∧ w'.fs.OneName ∧
      w'.fs.files = shift mg.finishAct.copies fs.files (finishMove mg (date, src))) ⟨fs, []⟩ := by
  unfold moveSucceeds at hok
  dsimp only at hok
  rw [Bool.and_eq_true, Bool.and_eq_true] at hok
  obtain ⟨⟨hdirs, hr⟩, hd⟩ := hok
  cases hfin : finishPath mg date src with
  | none => rw [hfin] at hd; cases hd
  | some d =>
    rw [hfin, Option.elim_some] at hd
    have hmove : finishMove mg (date, src) = ⟨resolve src, resolve d⟩ := by
      rw [finishMove, hfin, Option.getD_some]
    refine wp_doMoveTo_after hfin ⟨eq_of_beq hdirs, ?_⟩
    have hprep : Prepared ⟨fs, []⟩ _ := wp_makeMoveDirs (w := ⟨fs, []⟩) date mg.finishAct mg.moveTo
    revert hd hprep
    generalize ((makeMoveDirs date mg.finishAct mg.moveTo).run ⟨fs, []⟩).2 = w₁
    intro hd hprep
    obtain ⟨fs₁, sys⟩ := w₁
    obtain rfl : sys = [] := hprep.sys rfl
    have hone₁ : fs₁.OneName := hprep.oneName hone
    have hfiles : fs₁.files = fs.files := hprep.files
    have hr₁ : (fs₁.read src).isSome = true := by
      rw [← Fs.files_resolve _ (Fs.namesFile_of_read hr), hfiles,
        Fs.files_resolve _ (Fs.namesFile_of_read hr)]
      exact hr
    rw [hmove, ← hfiles, moveOne]
    -- the directories are there now, and the files as they were before
    cases hc : mg.finishAct.copies with
    | false =>
      rw [if_neg Bool.false_ne_true, wp_bind]
      exact wp_rename_files hone₁ hr₁ hd
    | true =>
      obtain ⟨b, hb⟩ := Option.isSome_iff_exists.mp hr₁
      rw [if_pos rfl, wp_bind]
      exact wp_moveFile_files hone₁ hb hd

/-- **What the finish actions do to the files of the disk**, when all succeed. -/
theorem wp_doMoveToAll_files {ms : List (CString × Path)} (hone : fs.OneName)
    (hok : allSucceed mg ms fs = true) :
    wp (doMoveToAll mg ms) (fun _ w' => w'.fs.files =
      shiftAll mg.finishAct.copies fs.files (ms.map (finishMove mg))) ⟨fs, []⟩ := by
  induction ms generalizing fs with
  | nil => rfl
  | cons x ms ih =>
    obtain ⟨date, src⟩ := x
    rw [allSucceed, Bool.and_eq_true] at hok
    have hstep := wp_doMoveTo_files hone hok.1
    rw [doMoveToAll, wp_bind, List.map_cons, shiftAll_cons]
    unfold wp at hstep ⊢
    obtain ⟨hsys, hone₁, hfiles⟩ := hstep
    rw [← hfiles]
    have hw : ∀ w : World, w.sys = [] → w = ⟨w.fs, []⟩ := by
      rintro ⟨fs, sys⟩ rfl
      rfl
    rw [hw _ hsys]
    exact ih hone₁ hok.2

end Rules

/-! ### Under `move-to` -/

/-- The location lies at or under the directory. -/
def Under (dir : Path) (l : Loc) : Prop :=
  (resolve dir).absolute = l.absolute ∧ (resolve dir).names <+: l.names

/-- Every file is under `move-to` in the end: it is where one of the moves brought a file,
each file at another place. -/
def FilesKept (mg : MonitorGroup) (ms : List (CString × Path)) (fs fs' : Fs) : Prop :=
  ∃ places : List Loc, places.Nodup ∧
    (∀ l ∈ places, Under mg.moveTo l ∧ l ∈ ms.map fun x => (finishMove mg x).dst) ∧
    places.map fs'.files = ms.map fun x => fs.read x.2

section Destinations

variable {dir d x : Path} {l : Loc}

theorem names_append (p q : Path) :
    (resolve (p ++ '/' :: q)).names = (resolve p).names ++ (resolve q).names := by
  unfold resolve
  rw [List.splitOn_append_cons_self, List.filter_append]

theorem absolute_append {p : Path} (hp : p ≠ []) (q : Path) :
    (resolve (p ++ q)).absolute = (resolve p).absolute := by
  cases p with
  | nil => exact absurd rfl hp
  | cons c cs => rfl

theorem Under.trans (h : Under dir (resolve d)) (h' : Under d l) : Under dir l :=
  ⟨h.1.trans h'.1, h.2.trans h'.2⟩

/-- A path in a directory, cut to the length of its buffer, leads to the directory at
least. -/
theorem under_join (hdir : dir ≠ []) (hlen : dir.length < NEWIUP_PATH_LEN) (x : CString) :
    Under dir (resolve (snprintf NEWIUP_PATH_LEN (dir ++ '/' :: x))) := by
  rw [snprintf, List.take_append, List.take_of_length_le (by omega)]
  refine ⟨(absolute_append hdir _).symm, ?_⟩
  cases NEWIUP_PATH_LEN - 1 - dir.length with
  | zero => rw [List.take_zero, List.append_nil]
  | succ k =>
    rw [List.take_succ_cons, names_append]
    exact List.prefix_append _ _

/-- **The destinations are under `move-to`.** -/
theorem under_moveTo {mg : MonitorGroup} (hact : mg.finishAct.moves = true)
    (hfit : mg.moveTo.length < NEWIUP_PATH_LEN) (x : CString × Path) :
    Under mg.moveTo (finishMove mg x).dst := by
  obtain ⟨hkeep, hdel⟩ : mg.finishAct ≠ .keep ∧ mg.finishAct ≠ .delete := by
    simpa [EndProcess.moves] using hact
  have hne := mg.moveTo_ne hdel hkeep
  have hday : (timeDir x.1 mg.moveTo).length < NEWIUP_PATH_LEN := by
    rw [timeDir, snprintf, List.length_take, NEWIUP_PATH_LEN]
    omega
  have hin : Under mg.moveTo (resolve (pathIn mg.moveTo x.2)) := under_join hne hfit _
  have hinDay : Under mg.moveTo (resolve (pathIn (timeDir x.1 mg.moveTo) x.2)) :=
    (under_join hne hfit x.1).trans (under_join (timeDir_ne_nil _) hday _)
  unfold finishMove finishPath
  cases hf : mg.finishAct with
  | keep => exact absurd hf hkeep
  | delete => exact absurd hf hdel
  | sameMove => exact hin
  | diffMove => exact hin
  | sameMoveTime => exact hinDay
  | diffMoveTime => exact hinDay

end Destinations

/-- **When finished files are kept.**  The finish actions move files of a tree, with every
call successful.  All of the files are under `move-to` in the end exactly when they go
to different paths, none goes to the path of a file that is moved later, and a copying
action copies none onto itself. -/
theorem files_kept_iff {mg : MonitorGroup} {ms : List (CString × Path)} {fs : Fs}
    (hact : mg.finishAct.moves = true) (hfit : mg.moveTo.length < NEWIUP_PATH_LEN)
    (hone : fs.OneName) (hsrc : (ms.map fun x => resolve x.2).Nodup)
    (hfiles : ∀ x ∈ ms, (fs.read x.2).isSome = true) (hok : allSucceed mg ms fs = true) :
    FilesKept mg ms fs ((doMoveToAll mg ms).run ⟨fs, []⟩).2.fs ↔
      NoClash mg.finishAct.copies (ms.map (finishMove mg)) := by
  have hrun : ((doMoveToAll mg ms).run ⟨fs, []⟩).2.fs.files =
      shiftAll mg.finishAct.copies fs.files (ms.map (finishMove mg)) :=
    wp_doMoveToAll_files hone hok
  rw [← relocated_iff (F := fs.files), ← hrun]
  · have hread : (ms.map fun x => fs.read x.2) = ms.map fun x => fs.files (resolve x.2) :=
      List.map_congr_left fun x hx =>
        (Fs.files_resolve _ (Fs.namesFile_of_read (hfiles x hx))).symm
    unfold FilesKept Relocated
    rw [hread]
    simp only [List.map_map]
    refine exists_congr fun places => and_congr_right fun _ => and_congr_left fun _ => ?_
    refine forall₂_congr fun l _ => ⟨fun h => h.2, fun h => ⟨?_, h⟩⟩
    obtain ⟨x, -, rfl⟩ := List.mem_map.mp h
    exact under_moveTo hact hfit x
  · rw [List.map_map]
    exact hsrc
  · intro m hm
    obtain ⟨x, hx, rfl⟩ := List.mem_map.mp hm
    change (fs.files (resolve x.2)).isSome = true
    rw [Fs.files_resolve _ (Fs.namesFile_of_read (hfiles x hx))]
    exact hfiles x hx

theorem sampleFs_oneName (files : List (Path × Bytes)) : (sampleFs files).OneName := by
  have hdirs : ∀ (ds : List Path) (fs : Fs), fs.OneName →
      (ds.foldl (fun fs d => fs.make (resolve d) ⟨S_IFDIR ||| 0o755, []⟩) fs).OneName := by
    intro ds
    induction ds with
    | nil => exact fun fs h => h
    | cons d ds ih => exact fun fs h => ih _ (h.make _ _)
  have hfiles : ∀ (files : List (Path × Bytes)) (fs : Fs), fs.OneName → (files.foldl
      (fun fs f => fs.make (resolve f.1) ⟨S_IFREG ||| 0o644, f.2⟩) fs).OneName := by
    intro files
    induction files with
    | nil => exact fun fs h => h
    | cons f files ih => exact fun fs h => ih _ (h.make _ _)
  exact hfiles _ _ (hdirs _ _ fun l l' i h => by cases h)

/-- A disk with two files of the same name, one in a directory below the other. -/
def nestedFs : Fs :=
  ((sampleFs [("/d/a".toList, [1])]).make (resolve "/d/x".toList) (newDir DIR_MODE)).make
    (resolve "/d/x/a".toList) ⟨S_IFREG ||| 0o644, [2]⟩

theorem nestedFs_oneName : nestedFs.OneName := ((sampleFs_oneName _).make _ _).make _ _

/-- The theorem at two files with different names. -/
theorem files_kept_iff_two :
    FilesKept (moveGroup .cut) [([], "/d/a".toList), ([], "/d/b".toList)]
      (sampleFs [("/d/a".toList, [1]), ("/d/b".toList, [2])])
      ((doMoveToAll (moveGroup .cut) [([], "/d/a".toList), ([], "/d/b".toList)]).run
        ⟨sampleFs [("/d/a".toList, [1]), ("/d/b".toList, [2])], []⟩).2.fs := by
  refine (files_kept_iff (by decide) (by decide) (sampleFs_oneName _) (by decide)
    (by decide +kernel) (by decide +kernel)).mpr ⟨by decide, by decide, fun h => ?_⟩
  exact absurd h (by decide)

/-- **A finished file replaces another**: two files with one name in different directories
of the tree are moved to one path. -/
theorem finished_files_collide :
    ¬∀ (mg : MonitorGroup) (ms : List (CString × Path)) (fs : Fs), mg.finishAct.moves = true →
      mg.moveTo.length < NEWIUP_PATH_LEN → fs.OneName → (ms.map fun x => resolve x.2).Nodup →
      (∀ x ∈ ms, (fs.read x.2).isSome = true) → allSucceed mg ms fs = true →
      FilesKept mg ms fs ((doMoveToAll mg ms).run ⟨fs, []⟩).2.fs := by
  intro h
  obtain ⟨places, hnodup, hmem, hmap⟩ := h (moveGroup .cut)
    [([], "/d/a".toList), ([], "/d/x/a".toList)] nestedFs (by decide) (by decide)
    nestedFs_oneName (by decide) (by decide +kernel) (by decide +kernel)
  have hlen : places.length = 2 := by simpa using congrArg List.length hmap
  -- there is one path for both
  have hone : ∀ l ∈ places, l = resolve "/o/a".toList := by
    intro l hl
    have hdst := (hmem l hl).2
    have hall : ∀ l ∈ [([], "/d/a".toList), ([], "/d/x/a".toList)].map
        (fun x => (finishMove (moveGroup .cut) x).dst), l = resolve "/o/a".toList := by decide
    exact hall l hdst
  match places, hlen with
  | [a, b], _ =>
    refine (List.nodup_cons.mp hnodup).1 ?_
    rw [hone a (by simp), hone b (by simp)]
    exact List.mem_cons_self

end Newiup
