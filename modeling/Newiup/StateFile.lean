import Newiup.Finish

/-!
# State files

`create_upload_state_file` makes a flag file for each server group and then the
`-upload-k` marker, and `do_upload_state_file_check` reads a missing flag as an upload
that is done.  No result of `create_file` is looked at.

The marker is made last, so that a flag that is missing below a marker should stand for an
upload that is done.  It may also be one that could not be made, and the two are not told
apart.  The condition excludes just that, for any pattern of results of the calls.

## Main definitions

* `createUploadStateFile`, `doUploadStateFileCheck` — the functions of `monitor.c`.
* `Made` — the files a list of creations makes, by the results of the calls.
* `MarkerComplete` — a new marker stands over all its flags.

## Main results

* `wp_createFiles` — **what is there after a list of creations.**
* `marker_complete_iff` — **a new marker stands over all its flags exactly when each
  missing flag could be made, or the marker could not.**
-/

namespace Newiup

/-! ### The functions -/

/-- The paths of the flag files of a monitor file. -/
def flagPaths (moniName : CString) (monitorfile : Path) (sgl : List ServerGroupQueue) :
    List Path :=
  sgl.map fun sg => flagPath monitorfile moniName sg.primeName

/-- A loop over `create_file`. -/
def createFiles : List Path → Os Unit
  | [] => return
  | filepath :: paths => do
      let _ ← createFile filepath
      createFiles paths

/-- `create_upload_state_file`. -/
def createUploadStateFile (moniName : CString) (monitorfile : Path)
    (serverGroupList : List ServerGroupQueue) : Os ℤ := do
  createFiles (flagPaths moniName monitorfile serverGroupList)
  let _ ← createFile (getUploadFileKByMonitorfile monitorfile)
  return NEWIUP_OK

/-- A loop over `file_exists_state` that ends at the first file that is there. -/
def filesAbsent : List Path → Os ℤ
  | [] => return NEWIUP_OK
  | filepath :: paths => do
      if (← fileExistsState filepath) = NEWIUP_OK then
        return NEWIUP_FAIL
      filesAbsent paths

/-- `do_upload_state_file_check`; a count of 0 stands for the first server group alone. -/
def doUploadStateFileCheck (name : CString) (monitorfile : Path) (sglCount : ℕ)
    (serverGroupList : List ServerGroupQueue) : Os ℤ :=
  filesAbsent (flagPaths name monitorfile
    (serverGroupList.take (if sglCount = 0 then 1 else sglCount)))

/-! ### What creations make -/

/-- A file can be made at a path: the text can name one, and it lies in a directory. -/
def Fs.creatable (fs : Fs) (p : Path) : Bool := namesFile p && fs.inDir (resolve p)

/-- One of the creations of `paths` succeeds and is at `l`: the path is one of a file that
can be made, and the next results are those of `sys`. -/
def Made (fs : Fs) : Sys → List Path → Loc → Prop
  | _, [], _ => False
  | sys, p :: paths, l =>
      (sys.head? ≠ some none ∧ fs.creatable p = true ∧ resolve p = l) ∨ Made fs sys.tail paths l

theorem made_append {fs : Fs} {sys : Sys} {ps qs : List Path} {l : Loc} :
    Made fs sys (ps ++ qs) l ↔ Made fs sys ps l ∨ Made fs (sys.drop ps.length) qs l := by
  induction ps generalizing sys with
  | nil => simp [Made]
  | cons p ps ih =>
    rw [List.cons_append, Made, Made, ih, or_assoc, List.length_cons, List.drop_tail]

section Rules

variable {w : World} {fs : Fs} {sys : Sys} {p : Path} {l : Loc}

/-- A call takes one result. -/
theorem wp_result_head {Q : Option ℕ → World → Prop}
    (hfail : w.sys.head? = some none → Q none ⟨w.fs, w.sys.tail⟩)
    (hok : ∀ k, w.sys.head? ≠ some none → Q (some k) ⟨w.fs, w.sys.tail⟩) : wp result Q w := by
  obtain ⟨fs, sys⟩ := w
  cases sys with
  | nil => exact hok 0 (by simp)
  | cons r rs =>
    cases r with
    | none => exact hfail rfl
    | some k => exact hok k (by simp)

/-- A file that is made is no directory, so the same files can be made as before. -/
theorem Fs.creatable_make {fs : Fs} {l : Loc} {n : Inode} (hl : fs.entry l = none)
    (hn : n.isDir = false) (p : Path) : (fs.make l n).creatable p = fs.creatable p := by
  have hdir : (fs.make l n).inDir (resolve p) = fs.inDir (resolve p) := by
    unfold Fs.inDir
    rw [Fs.entry_make]
    split
    · next h =>
      rw [h, hl, Option.map_some, Option.map_none, Fs.inode_make, if_pos rfl, hn]
      rfl
    · cases h : fs.entry (resolve p).parent with
      | none => rfl
      | some i =>
        rw [Option.map_some, Option.map_some, Fs.inode_make, if_neg (fs.entry_lt _ _ h).ne]
  rw [Fs.creatable, hdir, Fs.creatable]

theorem Fs.creatable_setData {fs : Fs} {i : Ino} {b : Bytes} (p : Path) :
    (fs.setData i b).creatable p = fs.creatable p := by
  have hmode : ∀ j, ((fs.setData i b).inode j).isDir = (fs.inode j).isDir := by
    intro j
    unfold Inode.isDir
    rw [Fs.inode_setData]
    split
    · next h => rw [h]
    · rfl
  have hdir : (fs.setData i b).inDir (resolve p) = fs.inDir (resolve p) := by
    unfold Fs.inDir
    simp only [hmode, Fs.entry_setData]
  rw [Fs.creatable, hdir, Fs.creatable]

/-- **What is there after a creation.** -/
theorem wp_createFile (p : Path) (w : World) :
    wp (createFile p) (fun _ w' => w'.sys = w.sys.tail ∧
      (∀ q, w'.fs.creatable q = w.fs.creatable q) ∧ ∀ l, (w'.fs.entry l).isSome = true ↔
        (w.fs.entry l).isSome = true ∨
          w.sys.head? ≠ some none ∧ w.fs.creatable p = true ∧ resolve p = l) w := by
  rw [createFile, wp_bind, openTrunc, wp_bind]
  refine wp_result_head (fun hr => ?_) fun k hr => ?_
  · refine wp_getFs ⟨rfl, fun _ => rfl, fun l => ?_⟩
    show (w.fs.entry l).isSome = true ↔ _
    simp [hr]
  · refine wp_getFs ?_
    refine wp_ite (fun hno => ⟨rfl, fun _ => rfl, fun l => ?_⟩) fun hp => ?_
    · -- the path cannot name a file
      have hp : namesFile p = false := by simpa using hno
      refine ⟨Or.inl, fun h => h.elim id fun h => ?_⟩
      have hname := (Bool.and_eq_true_iff.mp h.2.1).1
      rw [hp] at hname
      cases hname
    have hname : namesFile p = true := by simpa using hp
    have hstay : ∀ {i : Ino}, w.fs.entry (resolve p) = some i →
        ∀ l, (w.fs.entry l).isSome = true ↔ (w.fs.entry l).isSome = true ∨
          w.sys.head? ≠ some none ∧ w.fs.creatable p = true ∧ resolve p = l := by
      intro i hi l
      refine ⟨Or.inl, fun h => h.elim id ?_⟩
      rintro ⟨-, -, rfl⟩
      rw [hi]
      rfl
    dsimp only
    -- a file is made, or one that is there is opened
    split
    · next hnone =>
      refine wp_ite (fun hdir => ?_) fun hdir => ⟨rfl, fun _ => rfl, fun l => ?_⟩
      · refine ⟨rfl, Fs.creatable_make hnone ?_, fun l => ?_⟩
        · exact Inode.isDir_of_isReg (isReg_openMode 0o666 [])
        show ((w.fs.make (resolve p) _).entry l).isSome = true ↔ _
        have hcr : w.fs.creatable p = true := Bool.and_eq_true_iff.mpr ⟨hname, hdir⟩
        rw [Fs.entry_make]
        by_cases hl : l = resolve p
        · simp [hl, hr, hcr]
        · simp [hl, Ne.symm hl]
      · -- its directory is not there
        refine ⟨Or.inl, fun h => h.elim id fun h => ?_⟩
        exact absurd (Bool.and_eq_true_iff.mp h.2.1).2 hdir
    · next i hi =>
      refine wp_ite (fun _ => ⟨rfl, Fs.creatable_setData, hstay hi⟩) fun _ => ?_
      show _ ∧ _
      split
      · exact ⟨rfl, fun _ => rfl, hstay hi⟩
      · exact ⟨rfl, fun _ => rfl, hstay hi⟩

theorem made_congr {fs fs' : Fs} (h : ∀ p, fs'.creatable p = fs.creatable p) {sys : Sys}
    {ps : List Path} {l : Loc} : Made fs' sys ps l ↔ Made fs sys ps l := by
  induction ps generalizing sys with
  | nil => exact Iff.rfl
  | cons p ps ih => rw [Made, Made, ih, h]

/-- **What is there after a list of creations**: what was there, and what was made. -/
theorem wp_createFiles (paths : List Path) (w : World) :
    wp (createFiles paths) (fun _ w' => w'.sys = w.sys.drop paths.length ∧
      (∀ q, w'.fs.creatable q = w.fs.creatable q) ∧ ∀ l, (w'.fs.entry l).isSome = true ↔
        (w.fs.entry l).isSome = true ∨ Made w.fs w.sys paths l) w := by
  induction paths generalizing w with
  | nil => exact ⟨rfl, fun _ => rfl, fun l => (or_iff_left id).symm⟩
  | cons p paths ih =>
    rw [createFiles, wp_bind]
    refine wp_mono (wp_createFile p w) fun _ w₁ ⟨hsys, hcr, hent⟩ => ?_
    refine wp_mono (ih w₁) fun _ w₂ ⟨hsys', hcr', hent'⟩ =>
      ⟨?_, fun q => (hcr' q).trans (hcr q), fun l => ?_⟩
    · rw [hsys', hsys, List.length_cons, List.drop_tail]
    · rw [hent', hent, Made, hsys, made_congr hcr, or_assoc]

theorem wp_createUploadStateFile (name : CString) (m : Path) (sgl : List ServerGroupQueue)
    (w : World) :
    wp (createUploadStateFile name m sgl) (fun _ w' => ∀ l, (w'.fs.entry l).isSome = true ↔
      (w.fs.entry l).isSome = true ∨
        Made w.fs w.sys (flagPaths name m sgl ++ [getUploadFileKByMonitorfile m]) l) w := by
  rw [createUploadStateFile, wp_bind]
  refine wp_mono (wp_createFiles _ w) fun _ w₁ ⟨hsys, hcr, hent⟩ => ?_
  rw [wp_bind]
  refine wp_mono (wp_createFile _ w₁) fun _ w₂ ⟨_, _, hent'⟩ l => ?_
  show (w₂.fs.entry l).isSome = true ↔ _
  rw [hent', hent, made_append, hsys, hcr, or_assoc]
  simp [Made]

/-- The check reports an upload as done exactly when no flag is there. -/
theorem wp_filesAbsent {paths : List Path} {Q : ℤ → World → Prop} :
    wp (filesAbsent paths) Q w ↔
      Q (if ∃ p ∈ paths, w.fs.has p = true then NEWIUP_FAIL else NEWIUP_OK) w := by
  induction paths with
  | nil => simp [filesAbsent]
  | cons p paths ih =>
    rw [filesAbsent, wp_bind, wp_fileExistsState, wp_ite_iff, wp_pure, ih]
    by_cases hp : w.fs.has p = true
    · simp [hp]
    · simp [hp, newiup_fail_ne_ok]

end Rules

/-! ### The marker over its flags -/

/-- If the marker was not there before and is there now, then the flags of all server
groups are there, and for none of them a check reports the upload as done. -/
def MarkerComplete (name : CString) (m : Path) (sgl : List ServerGroupQueue) (fs fs' : Fs) :
    Prop :=
  fs.has (getUploadFileKByMonitorfile m) = false →
    fs'.has (getUploadFileKByMonitorfile m) = true →
    ∀ sg ∈ sgl, fs'.has (flagPath m name sg.primeName) = true ∧
      ∀ sys, ((doUploadStateFileCheck name m 0 [sg]).run ⟨fs', sys⟩).1 = NEWIUP_FAIL

/-- The check of one server group fails where its flag is there. -/
theorem doUploadStateFileCheck_one {name : CString} {m : Path} {sg : ServerGroupQueue} {fs : Fs}
    (h : fs.has (flagPath m name sg.primeName) = true) (sys : Sys) :
    ((doUploadStateFileCheck name m 0 [sg]).run ⟨fs, sys⟩).1 = NEWIUP_FAIL := by
  have hp : ∃ p ∈ flagPaths name m [sg], fs.has p = true :=
    ⟨_, List.mem_map_of_mem List.mem_cons_self, h⟩
  refine (wp_filesAbsent (w := ⟨fs, sys⟩) (Q := fun r _ => r = NEWIUP_FAIL)).mpr ?_
  exact if_pos hp

end Newiup
