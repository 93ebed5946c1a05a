import Newiup.Config

/-!
# Finishing a file

What the scheduler does with the files of a node once every server group has
taken it: the configured finish action on the source, then the monitor file and
the `-upload-k` marker are removed, whatever became of the source.

No result on the way is looked at, so that a move that has failed is followed by the same
two removals as one that has succeeded.  Whether the content is lost then depends on the
paths and on what lies there: on whether one of the files that are removed is the source
itself or what it was moved to, and on whether a copy can be read back from where it was
written.

## Main definitions

* `storeByTime`, `doMoveTo`, `doUploadFileFinishAll` — the functions of `monitor.c`.
* `finishPath` — the destination of a moving finish action.
* `SourceSpared` — the condition on the paths under which a failed finish loses
  nothing.

## Main results

* `finish_keeps_source_iff` — **the content of the source survives every outcome of
  the calls exactly when `SourceSpared` holds.**
-/

namespace Newiup

/-! ### The functions -/

/-- What follows the last slash of a full path. -/
def baseName (p : Path) : CString := (rindex '/' p).elim [] fun q => q.2

/-- The directory of the day under `move-to`. -/
def timeDir (date : CString) (dir : Path) : Path :=
  snprintf NEWIUP_PATH_LEN (dir ++ '/' :: date)

/-- The path of a file in a directory. -/
def pathIn (dir : Path) (oldpath : Path) : Path :=
  snprintf NEWIUP_PATH_LEN (dir ++ '/' :: baseName oldpath)

/-- `store_by_time`; `same` is `SAME_PARTITION`. -/
def storeByTime (date : CString) (oldpath dir : Path) (same : Bool) : Os ℤ := do
  let newdir := timeDir date dir
  if (← recursiveMakeDir newdir DIR_MODE) ≠ NEWIUP_OK then
    return NEWIUP_FAIL
  let newpath := pathIn newdir oldpath
  if same then
    let _ ← rename oldpath newpath
  else
    let _ ← moveFile oldpath newpath
  return NEWIUP_OK

/-- The choice of `do_move_to` among the actions. -/
def doMoveToAct (date : CString) (moveTo fullpath newpath : Path) : EndProcess → Os Unit
  | .sameMove => do let _ ← rename fullpath newpath
  | .delete => do let _ ← remove fullpath
  | .sameMoveTime => do let _ ← storeByTime date fullpath moveTo true
  | .diffMove => do let _ ← moveFile fullpath newpath
  | .diffMoveTime => do let _ ← storeByTime date fullpath moveTo false
  | .keep => return

/-- `do_move_to`. -/
def doMoveTo (date : CString) (act : EndProcess) (moveTo fullpath : Path) : Os ℤ := do
  if act = .keep then
    return NEWIUP_OK
  let newpath := pathIn moveTo fullpath
  if act ≠ .delete ∧ act ≠ .sameMoveTime ∧ (← isDir moveTo) ≠ NEWIUP_OK then
    if (← recursiveMakeDir moveTo DIR_MODE) ≠ NEWIUP_OK then
      return NEWIUP_FAIL
  doMoveToAct date moveTo fullpath newpath act
  return NEWIUP_OK

/-- `do_upload_file_finish_all`, on the files of a node: its counter and the node
itself are handled in `Newiup.Daemon.Step`. -/
def doUploadFileFinishAll (mg : MonitorGroup) (date : CString) (monitorfile src : Path) :
    Os ℤ := do
  let _ ← doMoveTo date mg.finishAct mg.moveTo src
  let _ ← deleteFile monitorfile
  let filepath := getUploadFileKByMonitorfile monitorfile
  let _ ← deleteFile filepath
  if (← fileExistsState filepath) = NEWIUP_OK then
    let _ ← deleteFile filepath
  return NEWIUP_OK

/-! ### Where the source goes -/

/-- The path a moving finish action gives the source; `date` is that of the day. -/
def finishPath (mg : MonitorGroup) (date : CString) (src : Path) : Option Path :=
  match mg.finishAct with
  | .keep => none
  | .delete => none
  | .sameMove => some (pathIn mg.moveTo src)
  | .diffMove => some (pathIn mg.moveTo src)
  | .sameMoveTime => some (pathIn (timeDir date mg.moveTo) src)
  | .diffMoveTime => some (pathIn (timeDir date mg.moveTo) src)

/-- The finish action copies the source, rather than rename it. -/
def EndProcess.copies : EndProcess → Bool
  | .diffMove => true
  | .diffMoveTime => true
  | _ => false

/-- The paths of a node under which no finish loses the source: it is neither the
monitor file nor the marker, which are removed afterwards, nor is its destination,
and a copying action copies the file neither onto itself nor to a device. -/
structure SourceSpared (mg : MonitorGroup) (date : CString) (monitorfile src : Path)
    (fs : Fs) : Prop where
  /-- The source is not the monitor file. -/
  monitor : resolve src ≠ resolve monitorfile
  /-- The source is not the `-upload-k` marker. -/
  marker : resolve src ≠ resolve (getUploadFileKByMonitorfile monitorfile)
  /-- Neither is the destination. -/
  dest : ∀ d, finishPath mg date src = some d →
    resolve d ≠ resolve monitorfile ∧
      resolve d ≠ resolve (getUploadFileKByMonitorfile monitorfile)
  /-- A copy goes to another file, and not to a device or a FIFO. -/
  other : mg.finishAct.copies = true → ∀ d, finishPath mg date src = some d →
    fs.entry (resolve d) ≠ fs.entry (resolve src) ∧ fs.Keeps (resolve d)

/-- The content `b` is at the source or at the destination. -/
def Survives (mg : MonitorGroup) (date : CString) (src : Path) (b : Bytes) (fs : Fs) : Prop :=
  fs.read src = some b ∨ ∃ d, finishPath mg date src = some d ∧ fs.read d = some b

section Rules

variable {mg : MonitorGroup} {date : CString} {src m : Path} {b : Bytes} {w : World}

/-- Renaming keeps the content at one of the two names. -/
theorem wp_rename_keeps {old new : Path} (hr : w.fs.read old = some b) :
    wp (rename old new) (fun _ w' => w'.fs.read old = some b ∨ w'.fs.read new = some b) w := by
  refine wp_rename (fun sys i h hren hne => Or.inr ?_) fun _ _ => Or.inl hr
  obtain ⟨j, hj, hreg, hb, -⟩ := Fs.read_eq_some.mp hr
  obtain rfl : i = j := Option.some.inj (h.symm.trans hj)
  have hloc : resolve new ≠ resolve old := fun h' => hne (h' ▸ h)
  rw [Fs.read_unlink_of_ne hloc]
  exact Fs.read_eq_some.mpr
    ⟨i, by rw [Fs.entry_link, if_pos rfl], hreg, hb, Fs.namesFile_of_renames hren hreg⟩

/-- Making directories puts no device in a place. -/
theorem wp_recursiveMakeDir_keeps (p : Path) (mode : ℕ) :
    wp (recursiveMakeDir p mode) (fun _ w' => ∀ l, w.fs.Keeps l → w'.fs.Keeps l) w :=
  recursiveMakeDir_fs (R := fun fs fs' => ∀ l, fs.Keeps l → fs'.Keeps l) (fun _ _ h => h)
    (fun h h' l hk => h' l (h l hk)) p w fun _ _ _ _ _ hk => hk.make (isDir_newDir _)

/-- Making directories keeps two different files different. -/
theorem Fs.Grown.entry_ne {P : Loc → Prop} {fs fs' : Fs} (h : Fs.Grown P fs fs') {l₁ l₂ : Loc}
    {i : Ino} (h₂ : fs.entry l₂ = some i) (hne : fs.entry l₁ ≠ fs.entry l₂) :
    fs'.entry l₁ ≠ fs'.entry l₂ := by
  rw [h.entry_of_some h₂]
  rcases h.entry l₁ with h₁ | ⟨-, -, h₁⟩
  · rw [h₁, ← h₂]; exact hne
  · exact fun hi => absurd (fs.entry_lt _ _ h₂) (not_lt.mpr (h₁ i hi))

theorem wp_storeByTime {dir : Path} {same : Bool} (hr : w.fs.read src = some b)
    (hother : same = false → w.fs.entry (resolve (pathIn (timeDir date dir) src)) ≠
      w.fs.entry (resolve src) ∧ w.fs.Keeps (resolve (pathIn (timeDir date dir) src))) :
    wp (storeByTime date src dir same) (fun _ w' => w'.fs.read src = some b ∨
      w'.fs.read (pathIn (timeDir date dir) src) = some b) w := by
  rw [storeByTime, wp_bind]
  refine wp_mono (wp_and (recursiveMakeDir_grown _ _ w) (wp_recursiveMakeDir_keeps _ _))
    fun r w' ⟨hg, hkeeps⟩ => ?_
  have hr' : w'.fs.read src = some b := hg.read hr
  refine wp_ite (fun _ => Or.inl hr') fun _ => ?_
  obtain ⟨i, hi, -⟩ := Fs.read_eq_some.mp hr
  cases same with
  | true =>
    rw [if_pos rfl, wp_bind]
    exact wp_mono (wp_rename_keeps hr') fun _ _ h => h
  | false =>
    rw [if_neg (by decide), wp_bind]
    obtain ⟨hne, hk⟩ := hother rfl
    refine wp_mono (wp_moveFile hr' (hg.entry_ne hi hne) (hkeeps _ hk)) fun r w'' h => ?_
    by_cases hok : r = NEWIUP_OK
    · exact Or.inr (h.1 hok)
    · exact Or.inl (h.2 hok)

theorem wp_doMoveToAct (hact : mg.finishAct ≠ .delete) (hr : w.fs.read src = some b)
    (hother : mg.finishAct.copies = true → ∀ d, finishPath mg date src = some d →
      w.fs.entry (resolve d) ≠ w.fs.entry (resolve src) ∧ w.fs.Keeps (resolve d)) :
    wp (doMoveToAct date mg.moveTo src (pathIn mg.moveTo src) mg.finishAct)
      (fun _ w' => Survives mg date src b w'.fs) w := by
  have hat : ∀ {d : Path} {fs : Fs}, finishPath mg date src = some d →
      fs.read src = some b ∨ fs.read d = some b → Survives mg date src b fs :=
    fun hd h => h.imp id fun h => ⟨_, hd, h⟩
  cases hf : mg.finishAct with
  | keep => exact Or.inl hr
  | delete => exact absurd hf hact
  | sameMove =>
    have hd : finishPath mg date src = some (pathIn mg.moveTo src) := by rw [finishPath, hf]
    rw [doMoveToAct, wp_bind]
    exact wp_mono (wp_rename_keeps hr) fun _ _ h => hat hd h
  | sameMoveTime =>
    have hd : finishPath mg date src = some (pathIn (timeDir date mg.moveTo) src) := by
      rw [finishPath, hf]
    rw [doMoveToAct, wp_bind]
    exact wp_mono (wp_storeByTime hr fun h => absurd h (by decide)) fun _ _ h => hat hd h
  | diffMove =>
    have hd : finishPath mg date src = some (pathIn mg.moveTo src) := by rw [finishPath, hf]
    rw [doMoveToAct, wp_bind]
    obtain ⟨hne, hk⟩ := hother (by rw [hf]; rfl) _ hd
    refine wp_mono (wp_moveFile hr hne hk) fun r _ h => hat hd ?_
    by_cases hok : r = NEWIUP_OK
    · exact Or.inr (h.1 hok)
    · exact Or.inl (h.2 hok)
  | diffMoveTime =>
    have hd : finishPath mg date src = some (pathIn (timeDir date mg.moveTo) src) := by
      rw [finishPath, hf]
    rw [doMoveToAct, wp_bind]
    refine wp_mono (wp_storeByTime hr fun _ => hother (by rw [hf]; rfl) _ hd) fun _ _ h => ?_
    exact hat hd h

/-- **The finish action keeps the content**, whatever its calls report, unless it
deletes the source or copies it onto itself. -/
theorem wp_doMoveTo (hact : mg.finishAct ≠ .delete) (hr : w.fs.read src = some b)
    (hother : mg.finishAct.copies = true → ∀ d, finishPath mg date src = some d →
      w.fs.entry (resolve d) ≠ w.fs.entry (resolve src) ∧ w.fs.Keeps (resolve d)) :
    wp (doMoveTo date mg.finishAct mg.moveTo src)
      (fun _ w' => Survives mg date src b w'.fs) w := by
  rw [doMoveTo]
  refine wp_ite (fun _ => Or.inl hr) fun _ => ?_
  dsimp only
  rw [wp_bind, wp_isDir]
  refine wp_ite (fun _ => ?_) fun _ => ?_
  · rw [wp_bind]
    refine wp_mono (wp_and (recursiveMakeDir_grown _ _ w)
      (wp_recursiveMakeDir_keeps _ _)) fun r w' ⟨hg, hkeeps⟩ => ?_
    refine wp_ite (fun _ => Or.inl (hg.read hr)) fun _ => ?_
    obtain ⟨i, hi, -⟩ := Fs.read_eq_some.mp hr
    rw [wp_bind]
    refine wp_doMoveToAct hact (hg.read hr) fun h d hd => ?_
    exact ⟨hg.entry_ne hi (hother h d hd).1, hkeeps _ (hother h d hd).2⟩
  · rw [wp_bind]
    exact wp_doMoveToAct hact hr hother

/-- Removing another file keeps the content where it is. -/
theorem wp_deleteFile_survives {p : Path} (hs : Survives mg date src b w.fs)
    (hsrc : resolve src ≠ resolve p)
    (hdest : ∀ d, finishPath mg date src = some d → resolve d ≠ resolve p) :
    wp (deleteFile p) (fun _ w' => Survives mg date src b w'.fs) w := by
  rw [deleteFile, wp_bind]
  refine wp_remove (fun sys => ?_) fun _ => hs
  rcases hs with h | ⟨d, hd, h⟩
  · exact Or.inl ((Fs.read_unlink_of_ne hsrc).trans h)
  · exact Or.inr ⟨d, hd, (Fs.read_unlink_of_ne (hdest d hd)).trans h⟩

/-- **Where `SourceSpared` holds the content survives every outcome.** -/
theorem wp_doUploadFileFinishAll (hact : mg.finishAct ≠ .delete) (hr : w.fs.read src = some b)
    (h : SourceSpared mg date m src w.fs) :
    wp (doUploadFileFinishAll mg date m src)
      (fun _ w' => Survives mg date src b w'.fs) w := by
  rw [doUploadFileFinishAll, wp_bind]
  refine wp_mono (wp_doMoveTo hact hr h.other) fun _ w₁ h₁ => ?_
  rw [wp_bind]
  refine wp_mono (wp_deleteFile_survives h₁ h.monitor fun d hd => (h.dest d hd).1) fun _ w₂ h₂ => ?_
  have hmark : ∀ {w : World}, Survives mg date src b w.fs →
      wp (deleteFile (getUploadFileKByMonitorfile m))
        (fun _ w' => Survives mg date src b w'.fs) w := fun hs =>
    wp_deleteFile_survives hs h.marker fun d hd => (h.dest d hd).2
  dsimp only
  rw [wp_bind]
  refine wp_mono (hmark h₂) fun _ w₃ h₃ => ?_
  rw [wp_bind, wp_fileExistsState]
  refine wp_ite (fun _ => ?_) fun _ => h₃
  rw [wp_bind]
  exact wp_mono (hmark h₃) fun _ _ h => h

/-! ### Outcomes that lose the source -/

/-- The directories a moving finish action needs are there, and its destination is a path
at which a file can be made, or that of the source itself. -/
structure DestinationReady (mg : MonitorGroup) (date : CString) (src : Path) (fs : Fs) :
    Prop where
  /-- `move-to` is a directory. -/
  moveTo : ∃ n, fs.stat mg.moveTo = some n ∧ n.isDir = true
  /-- So is the directory of the day. -/
  timeDir : ∃ n, fs.stat (timeDir date mg.moveTo) = some n ∧ n.isDir = true
  /-- The destination can name a file. -/
  name : ∀ d, finishPath mg date src = some d → namesFile d = true
  /-- Nothing else is at the destination, and it lies in a directory. -/
  free : ∀ d, finishPath mg date src = some d →
    fs.entry (resolve d) = none ∧ fs.inDir (resolve d) = true ∨ resolve d = resolve src

/-- Nothing has to be made where the directory is there. -/
theorem wp_recursiveMakeDir_of_dir {p : Path} {n : Inode} {mode : ℕ} {Q : ℤ → World → Prop}
    (hp : p ≠ []) (hn : w.fs.stat p = some n) (hdir : n.isDir = true) (hQ : Q NEWIUP_OK w) :
    wp (recursiveMakeDir p mode) Q w := by
  rw [recursiveMakeDir, dif_neg hp]
  refine wp_getFs ?_
  rw [hn]
  dsimp only
  rw [if_pos (Inode.bit_of_isDir hdir)]
  exact hQ

theorem timeDir_ne_nil (dir : Path) : timeDir date dir ≠ [] := by
  unfold timeDir snprintf
  rw [ne_eq, List.take_eq_nil_iff]
  simp [NEWIUP_PATH_LEN]

/-- The copy loop succeeds when its calls do. -/
theorem wp_copyLoop_nil {sd dd : Ino} : ∀ (fuel pos : ℕ) (fs : Fs),
    (fs.inode sd).data.length - pos < fuel → (sd ≠ dd ∨ (fs.inode sd).data = []) →
    wp (copyLoop sd dd fuel pos)
      (fun r w' => r = NEWIUP_OK ∧ w'.sys = [] ∧ w'.fs.entry = fs.entry) ⟨fs, []⟩ := by
  intro fuel
  induction fuel with
  | zero => exact fun pos fs h => absurd h (Nat.not_lt_zero _)
  | succ fuel ih =>
    intro pos fs hlen hne
    simp only [copyLoop, readFd, wp_bind, wp_result_nil, wp_getFs_iff, wp_pure, Option.map_some]
    refine wp_ite (fun _ => ⟨rfl, rfl, rfl⟩) fun hbuf => ?_
    set buf := ((fs.inode sd).data.drop pos).take (transfer 0 blocksize) with hdef
    have hsd : sd ≠ dd := hne.resolve_right fun h => hbuf (by rw [hdef, h]; simp)
    have hpos : 0 < buf.length := List.length_pos_iff.mpr hbuf
    have hle : buf.length ≤ (fs.inode sd).data.length - pos := by
      rw [hdef, List.length_take, List.length_drop]; omega
    have hfull : buf.take (transfer 0 buf.length) = buf := List.take_length
    simp only [writeFd, wp_bind, wp_result_nil, wp_getFs_iff, wp_setFs_iff, wp_pure, hfull]
    rw [if_neg (not_not.mpr rfl)]
    have hdata : ((fs.setData dd ((fs.inode dd).data ++ buf)).inode sd) = fs.inode sd := by
      rw [Fs.inode_setData, if_neg hsd]
    exact ih _ _ (by rw [hdata]; omega) (Or.inl hsd)

/-- A successful `move_file` removes the source, also when it is its own
destination. -/
theorem wp_moveFile_nil {fs : Fs} {d : Path} (hr : fs.read src = some b)
    (hdp : namesFile d = true)
    (hfree : fs.entry (resolve d) = none ∧ fs.inDir (resolve d) = true ∨
      resolve d = resolve src) :
    wp (moveFile src d) (fun _ w' => w'.sys = [] ∧ w'.fs.entry (resolve src) = none)
      ⟨fs, []⟩ := by
  obtain ⟨sd, hs, hreg, -, hsp⟩ := Fs.read_eq_some.mp hr
  -- behind the two files that are opened: the loop runs to its end, and the source is removed
  have hrest : ∀ (fs₁ : Fs) (dd : Ino) (fuel : ℕ), (fs₁.inode sd).data.length < fuel →
      (sd ≠ dd ∨ (fs₁.inode sd).data = []) →
      wp (do
        if (← copyLoop sd dd fuel 0) ≠ NEWIUP_OK then
          return NEWIUP_FAIL
        let _ ← remove src
        return NEWIUP_OK) (fun _ w' => w'.sys = [] ∧ w'.fs.entry (resolve src) = none)
        ⟨fs₁, []⟩ := by
    intro fs₁ dd fuel hfuel hne
    rw [wp_bind]
    refine wp_mono (wp_copyLoop_nil fuel 0 fs₁ (by omega) hne) fun r w₂ ⟨hok, hsys, _⟩ => ?_
    obtain ⟨fs₂, sys⟩ := w₂
    dsimp only at hsys
    subst hsys
    rw [if_neg (not_not.mpr hok), wp_bind]
    exact wp_remove_nil fun _ _ h _ => ⟨rfl, h⟩
  rw [moveFile, wp_bind, wp_openRead_nil hs hsp]
  simp only [wp_bind, wp_result_nil, Option.isNone_some, Bool.false_eq_true, if_false, wp_getFs_iff]
  -- a new file is another one than the source; at its own path the source has been emptied
  rcases hfree with ⟨hd, hdir⟩ | hd
  · have hlt : sd < fs.next := fs.entry_lt _ _ hs
    rw [wp_openTrunc_new hd hdp hdir]
    dsimp only
    refine hrest _ _ _ ?_ (Or.inl hlt.ne)
    rw [Fs.inode_make, if_neg hlt.ne]
    exact Nat.lt_succ_self _
  · rw [wp_openTrunc_old (hd ▸ hs) hdp hreg]
    have hnil : ((fs.setData sd []).inode sd).data = [] := by
      rw [Fs.inode_setData, if_pos rfl]
    dsimp only
    exact hrest _ _ _ (by rw [hnil]; exact Nat.succ_pos _) (Or.inr hnil)

/-- A `rename` that is made to fail changes nothing. -/
theorem wp_rename_refused {fs : Fs} {old new : Path} :
    wp (rename old new) (fun _ w' => w' = ⟨fs, []⟩) ⟨fs, [none]⟩ := by
  simp only [rename, wp_bind, wp_result_cons, wp_getFs_iff, Option.isSome_none, Bool.false_and,
    Bool.false_eq_true, if_false]
  split <;> rfl

/-- A `move_file` that cannot open the source changes nothing. -/
theorem wp_moveFile_refused {fs : Fs} {d : Path} :
    wp (moveFile src d) (fun _ w' => w' = ⟨fs, []⟩) ⟨fs, [none]⟩ := by
  simp only [moveFile, openRead, wp_bind, wp_result_cons, wp_getFs_iff, wp_pure,
    Option.isSome_none, Bool.false_eq_true, if_false]

/-- A successful `rename` to another name takes the old one away. -/
theorem wp_rename_nil {fs : Fs} {new : Path} (hr : fs.read src = some b)
    (hname : namesFile new = true) (hfree : fs.entry (resolve new) = none)
    (hdir : fs.inDir (resolve new) = true) :
    wp (rename src new) (fun _ w' => w'.sys = [] ∧ w'.fs.entry (resolve src) = none)
      ⟨fs, []⟩ := by
  obtain ⟨i, hs, -, -, hsp⟩ := Fs.read_eq_some.mp hr
  have hren : ∀ i, fs.renames src new i = true := fun i => by
    simp [Fs.renames, hsp, hname, hfree, hdir]
  simp only [rename, wp_bind, wp_result_nil, wp_getFs_iff]
  split
  · next h => rw [hs] at h; cases h
  · simp only [Option.isSome_some, Bool.true_and, hren, if_true, hfree, reduceCtorEq, if_false,
      wp_bind, wp_setFs_iff, wp_pure, Fs.entry_unlink, and_self]

theorem wp_storeByTime_of_dir {fs : Fs} {sys : Sys} {same : Bool} {Q : World → Prop}
    (hready : DestinationReady mg date src fs)
    (hsame : same = true →
      wp (rename src (pathIn (timeDir date mg.moveTo) src)) (fun _ w' => Q w') ⟨fs, sys⟩)
    (hdiff : same = false →
      wp (moveFile src (pathIn (timeDir date mg.moveTo) src)) (fun _ w' => Q w') ⟨fs, sys⟩) :
    wp (storeByTime date src mg.moveTo same) (fun _ w' => Q w') ⟨fs, sys⟩ := by
  obtain ⟨n, hn, hdir⟩ := hready.timeDir
  rw [storeByTime, wp_bind]
  refine wp_recursiveMakeDir_of_dir (timeDir_ne_nil _) hn hdir ?_
  rw [if_neg (not_not.mpr rfl)]
  cases same with
  | true => rw [if_pos rfl, wp_bind]; exact hsame rfl
  | false => rw [if_neg (by decide), wp_bind]; exact hdiff rfl

theorem wp_doMoveTo_of_dir {fs : Fs} {sys : Sys} {Q : World → Prop}
    (hkeep : mg.finishAct ≠ .keep) (hready : DestinationReady mg date src fs)
    (h : wp (doMoveToAct date mg.moveTo src (pathIn mg.moveTo src) mg.finishAct)
      (fun _ w' => Q w') ⟨fs, sys⟩) :
    wp (doMoveTo date mg.finishAct mg.moveTo src) (fun _ w' => Q w') ⟨fs, sys⟩ := by
  obtain ⟨n, hn, hdir⟩ := hready.moveTo
  rw [doMoveTo, if_neg hkeep]
  dsimp only
  rw [wp_bind, wp_isDir, hn, Option.elim_some, hdir, if_pos rfl, if_neg (by simp), wp_bind]
  exact h

/-- Some outcome of the finish action leaves everything in place. -/
theorem exists_doMoveTo_refused {fs : Fs} (hact : mg.finishAct ≠ .delete)
    (hready : mg.finishAct ≠ .keep → DestinationReady mg date src fs) :
    ∃ sys, wp (doMoveTo date mg.finishAct mg.moveTo src) (fun _ w' => w' = ⟨fs, []⟩)
      ⟨fs, sys⟩ := by
  by_cases hkeep : mg.finishAct = .keep
  · exact ⟨[], by rw [doMoveTo, if_pos hkeep]; rfl⟩
  refine ⟨[none], wp_doMoveTo_of_dir hkeep (hready hkeep) ?_⟩
  cases hf : mg.finishAct with
  | keep => exact absurd hf hkeep
  | delete => exact absurd hf hact
  | sameMove => rw [doMoveToAct, wp_bind]; exact wp_rename_refused
  | diffMove => rw [doMoveToAct, wp_bind]; exact wp_moveFile_refused
  | sameMoveTime =>
    rw [doMoveToAct, wp_bind]
    exact wp_storeByTime_of_dir (hready hkeep) (fun _ => wp_rename_refused)
      fun _ => wp_moveFile_refused
  | diffMoveTime =>
    rw [doMoveToAct, wp_bind]
    exact wp_storeByTime_of_dir (hready hkeep) (fun _ => wp_rename_refused)
      fun _ => wp_moveFile_refused

/-- With nothing failing, a moving finish action takes the source away. -/
theorem wp_doMoveTo_nil {fs : Fs} {d : Path} (hready : DestinationReady mg date src fs)
    (hr : fs.read src = some b) (hd : finishPath mg date src = some d)
    (hne : mg.finishAct.copies = true ∨ resolve d ≠ resolve src) :
    wp (doMoveTo date mg.finishAct mg.moveTo src)
      (fun _ w' => w'.sys = [] ∧ w'.fs.entry (resolve src) = none) ⟨fs, []⟩ := by
  have hfree := hready.free d hd
  have hname := hready.name d hd
  have hrename : mg.finishAct.copies = true ∨ resolve d ≠ resolve src →
      mg.finishAct.copies = false →
      wp (rename src d) (fun _ w' => w'.sys = [] ∧ w'.fs.entry (resolve src) = none) ⟨fs, []⟩ := by
    intro hne hc
    rw [hc] at hne
    obtain ⟨hd', hdir⟩ := hfree.resolve_right (hne.resolve_left Bool.false_ne_true)
    exact wp_rename_nil hr hname hd' hdir
  have hkeep : mg.finishAct ≠ .keep := by
    intro h
    rw [finishPath, h] at hd
    cases hd
  refine wp_doMoveTo_of_dir hkeep hready ?_
  -- the actions rename the source or copy it, each with or without a directory for the day
  cases hf : mg.finishAct with
  | keep => exact absurd hf hkeep
  | delete => rw [finishPath, hf] at hd; cases hd
  | sameMove =>
    rw [finishPath, hf] at hd
    cases hd
    rw [doMoveToAct, wp_bind]
    exact hrename hne (by rw [hf]; rfl)
  | diffMove =>
    rw [finishPath, hf] at hd
    cases hd
    rw [doMoveToAct, wp_bind]
    exact wp_moveFile_nil hr hname hfree
  | sameMoveTime =>
    rw [finishPath, hf] at hd
    cases hd
    rw [doMoveToAct, wp_bind]
    exact wp_storeByTime_of_dir hready (fun _ => hrename hne (by rw [hf]; rfl))
      fun h => absurd h (by decide)
  | diffMoveTime =>
    rw [finishPath, hf] at hd
    cases hd
    rw [doMoveToAct, wp_bind]
    exact wp_storeByTime_of_dir hready (fun h => absurd h (by decide))
      fun _ => wp_moveFile_nil hr hname hfree

/-- With nothing failing, the rest of the finish removes the monitor file and the
marker, and makes nothing. -/
theorem wp_finish_rest {fs : Fs} {sys : Sys} {P : Fs → Prop}
    (hmove : wp (doMoveTo date mg.finishAct mg.moveTo src) (fun _ w' => w'.sys = [] ∧ P w'.fs)
      ⟨fs, sys⟩) :
    wp (doUploadFileFinishAll mg date m src) (fun _ w' => ∃ fs₁, P fs₁ ∧
      w'.fs.entry (resolve m) = none ∧
      w'.fs.entry (resolve (getUploadFileKByMonitorfile m)) = none ∧
      ∀ l, fs₁.entry l = none → w'.fs.entry l = none) ⟨fs, sys⟩ := by
  -- a removal keeps what is absent absent
  have hgone : ∀ {fs fs' : Fs} {l l' : Loc}, fs'.entry l = none →
      (∀ l', l' ≠ l → fs'.entry l' = fs.entry l') → fs.entry l' = none → fs'.entry l' = none :=
    fun {_ _ l l'} h hsame h' => by
      by_cases hl : l' = l
      · rw [hl, h]
      · rw [hsame _ hl, h']
  rw [doUploadFileFinishAll, wp_bind]
  refine wp_mono hmove fun _ w₁ ⟨hsys, hP⟩ => ?_
  obtain ⟨fs₁, sys₁⟩ := w₁
  dsimp only at hsys hP
  subst hsys
  rw [wp_bind, deleteFile, wp_bind]
  refine wp_remove_nil fun _ fs₂ h₂ hsame₂ => ?_
  rw [wp_pure]
  dsimp only
  rw [wp_bind, deleteFile, wp_bind]
  refine wp_remove_nil fun _ fs₃ h₃ hsame₃ => ?_
  rw [wp_pure, wp_bind, wp_fileExistsState]
  have hhas : fs₃.has (getUploadFileKByMonitorfile m) = false := by rw [Fs.has, h₃]; rfl
  rw [hhas, if_neg (by decide)]
  exact ⟨fs₁, hP, hgone h₃ hsame₃ h₂, h₃, fun l hl => hgone h₃ hsame₃ (hgone h₂ hsame₂ hl)⟩

/-- Where `SourceSpared` fails, some outcome loses the content. -/
theorem exists_loss {fs : Fs} (hact : mg.finishAct ≠ .delete) (hr : fs.read src = some b)
    (hready : mg.finishAct ≠ .keep → DestinationReady mg date src fs)
    (h : ¬SourceSpared mg date m src fs) :
    ∃ sys, ¬Survives mg date src b ((doUploadFileFinishAll mg date m src).run ⟨fs, sys⟩).2.fs := by
  -- the content is lost once nothing is at the source and nothing came to the destination
  have hlost : ∀ {fs' : Fs}, fs'.entry (resolve src) = none →
      (∀ d, finishPath mg date src = some d → fs'.entry (resolve d) = none) →
      ¬Survives mg date src b fs' := by
    have hnone : ∀ {fs' : Fs} {p : Path}, fs'.entry (resolve p) = none → fs'.read p ≠ some b :=
      fun h h' => by
        obtain ⟨i, hi, -⟩ := Fs.read_eq_some.mp h'
        rw [h] at hi
        cases hi
    rintro fs' hsrc hdest (h | ⟨d, hd, h⟩)
    · exact hnone hsrc h
    · exact hnone (hdest d hd) h
  have hmoves : ∀ {d}, finishPath mg date src = some d → mg.finishAct ≠ .keep := fun hd hk => by
    rw [finishPath, hk] at hd
    cases hd
  by_cases hsrc : resolve src = resolve m ∨
      resolve src = resolve (getUploadFileKByMonitorfile m)
  · -- the action fails and the source is removed as the monitor file or as the marker
    obtain ⟨sys, hrun⟩ := exists_doMoveTo_refused hact hready
    refine ⟨sys, ?_⟩
    obtain ⟨fs₁, rfl, hm, hk, hgone⟩ := wp_finish_rest (m := m) (P := fun fs' => fs' = fs)
      (wp_mono hrun fun _ w' h => by rw [h]; exact ⟨rfl, rfl⟩)
    have hsrc' : ((doUploadFileFinishAll mg date m src).run ⟨fs₁, sys⟩).2.fs.entry
        (resolve src) = none := by
      rcases hsrc with h | h <;> rw [h]
      exacts [hm, hk]
    refine hlost hsrc' fun d hd => ?_
    rcases (hready (hmoves hd)).free d hd with h | h
    · exact hgone _ h.1
    · rw [h]; exact hsrc'
  · -- the action succeeds, and its destination is removed or was the source
    rw [not_or] at hsrc
    obtain ⟨d, hd, hbad⟩ : ∃ d, finishPath mg date src = some d ∧
        (resolve d = resolve m ∨ resolve d = resolve (getUploadFileKByMonitorfile m) ∨
          (mg.finishAct.copies = true ∧ resolve d = resolve src)) := by
      by_contra hall
      push Not at hall
      refine h ⟨hsrc.1, hsrc.2, fun d hd => ⟨(hall d hd).1, (hall d hd).2.1⟩, fun hc d hd => ?_⟩
      obtain ⟨i, hi, -⟩ := Fs.read_eq_some.mp hr
      obtain ⟨hnone, -⟩ := ((hready (hmoves hd)).free d hd).resolve_right ((hall d hd).2.2 hc)
      exact ⟨by rw [hnone, hi]; exact (Option.some_ne_none i).symm, Fs.keeps_of_none hnone⟩
    have hne : mg.finishAct.copies = true ∨ resolve d ≠ resolve src := by
      rcases hbad with h | h | h
      · exact Or.inr (h ▸ Ne.symm hsrc.1)
      · exact Or.inr (h ▸ Ne.symm hsrc.2)
      · exact Or.inl h.1
    refine ⟨[], ?_⟩
    obtain ⟨fs₁, hP, hm, hk, hgone⟩ := wp_finish_rest (m := m)
      (P := fun fs' => fs'.entry (resolve src) = none)
      (wp_doMoveTo_nil (hready (hmoves hd)) hr hd hne)
    have hsrc' := hgone _ hP
    refine hlost hsrc' fun d' hd' => ?_
    obtain rfl : d = d' := Option.some.inj (hd.symm.trans hd')
    rcases hbad with h | h | h
    · rw [h]; exact hm
    · rw [h]; exact hk
    · rw [h.2]; exact hsrc'

end Rules

/-! ### A failed finish -/

/-- Every finish of a node of the group keeps the content of the source, at its path
or at the destination, whatever the calls of the finish report. -/
def FinishLosesNothing (mg : MonitorGroup) (date : CString) (monitorfile src : Path)
    (b : Bytes) (fs : Fs) : Prop :=
  ∀ sys : Sys, Survives mg date src b
    ((doUploadFileFinishAll mg date monitorfile src).run ⟨fs, sys⟩).2.fs

/-- **When a failed finish loses no data.**  `SourceSpared` is enough on every file
system, and it is needed wherever the destination directory is there and the
destination is still free. -/
theorem finish_keeps_source_iff {mg : MonitorGroup} {date : CString} {monitorfile src : Path}
    {b : Bytes} {fs : Fs} (hact : mg.finishAct ≠ .delete) (hr : fs.read src = some b) :
    (SourceSpared mg date monitorfile src fs → FinishLosesNothing mg date monitorfile src b fs) ∧
      ((mg.finishAct ≠ .keep → DestinationReady mg date src fs) →
        (FinishLosesNothing mg date monitorfile src b fs ↔
          SourceSpared mg date monitorfile src fs)) := by
  have hkeeps : SourceSpared mg date monitorfile src fs →
      FinishLosesNothing mg date monitorfile src b fs := fun h sys =>
    wp_doUploadFileFinishAll (w := ⟨fs, sys⟩) hact hr h
  refine ⟨hkeeps, fun hready => ⟨fun h => ?_, hkeeps⟩⟩
  by_contra hs
  obtain ⟨sys, hsys⟩ := exists_loss hact hr hready hs
  exact hsys (h sys)

/-- A group that moves finished files on one partition to `/o`. -/
def moveGroup (act : TypeProcess) : MonitorGroup where
  name := "g".toList
  enable := true
  monitorFileType := "c".toList
  monitorToUploadAct := act
  uploadFileType := []
  finishAct := .sameMove
  moveTo := "/o".toList
  serverGroupList := [⟨[⟨0, "s".toList, 1, 60, 1⟩], [], by simp⟩]
  sgl_ne := by simp
  moveTo_ne := fun _ _ => by decide
  not_keep_keep := by simp

/-- A disk with the directories `/`, `/d` and `/o` and the given files. -/
def sampleFs (files : List (Path × Bytes)) : Fs :=
  files.foldl (fun fs f => fs.make (resolve f.1) ⟨S_IFREG ||| 0o644, f.2⟩)
    (["/".toList, "/d".toList, "/o".toList].foldl
      (fun fs d => fs.make (resolve d) ⟨S_IFDIR ||| 0o755, []⟩) Fs.empty)

/-- The theorem at a group whose source is the monitor file without its suffix. -/
theorem finish_keeps_source_iff_cut :
    FinishLosesNothing (moveGroup .cut) "d".toList "/d/a.c".toList "/d/a".toList [1]
      (sampleFs [("/d/a.c".toList, []), ("/d/a".toList, [1])]) := by
  refine (finish_keeps_source_iff (by decide) (by decide +kernel)).1 ⟨?_, ?_, ?_, ?_⟩
  · decide
  · decide
  · intro d hd
    obtain rfl : d = "/o/a".toList := by
      rw [← Option.some.injEq, ← hd]; decide
    exact ⟨by decide, by decide⟩
  · exact fun h => absurd h (by decide)

/-- **A failed finish loses data** where the source is the monitor file: the group
keeps the name, the rename to `/o` fails, and the file is removed as the monitor
file. -/
theorem failed_finish_loses_source :
    ¬∀ (mg : MonitorGroup) (date : CString) (monitorfile src : Path) (b : Bytes) (fs : Fs),
      mg.finishAct ≠ .delete → isMonitorType monitorfile mg.monitorFileType = NEWIUP_OK →
      addFileSuffixProcess mg monitorfile = some src → fs.read src = some b →
      FinishLosesNothing mg date monitorfile src b fs := by
  intro h
  have hrun := h (moveGroup .keep) "d".toList "/d/a.c".toList "/d/a.c".toList [1]
    (sampleFs [("/d/a.c".toList, [1])]) (by decide) (by decide) (by decide) (by decide +kernel)
    [none]
  rcases hrun with hsrc | ⟨d, hd, hdest⟩
  · revert hsrc
    decide +kernel
  · obtain rfl : d = "/o/a.c".toList := by
      rw [← Option.some.injEq, ← hd]; decide
    revert hdest
    decide +kernel

end Newiup
