import Newiup.Finish

/-!
# What `move_file` keeps

`move_file` empties the destination before it reads the source.  Between two
different files that is harmless; a file that is copied onto itself is emptied.  It does
not look at what it has opened either: the content of a file that is moved to a device is
written there, and the file is removed.

## Main definitions

* `MoveIntact` — the content is at the destination after a success, and still at the
  source after a failure.

## Main results

* `moveFile_intact_iff` — **no outcome of the calls loses the content exactly when the
  destination is not opened**, or is neither a device nor the file itself, unless the two
  paths are two names of an empty one.
-/

namespace Newiup

/-- What `move_file` returns says where the content `b` of the source is.  Each call ends in
one of the two ways.  It is not said that the source is gone after a success, nor that nothing
is left at the destination after a failure. -/
def MoveIntact (origFile destFile : Path) (b : Bytes) (r : ℤ) (fs : Fs) : Prop :=
  (r = NEWIUP_OK → fs.read destFile = some b) ∧ (r = NEWIUP_FAIL → fs.read origFile = some b)

section Rules

variable {o d : Path} {b : Bytes} {w : World}

/-- Without content there is nothing to copy. -/
theorem wp_copyLoop_empty {sd dd : Ino} {fuel pos : ℕ} (h : (w.fs.inode sd).data = []) :
    wp (copyLoop sd dd fuel pos) (fun _ w' => w'.fs = w.fs) w := by
  cases fuel with
  | zero => rfl
  | succ fuel =>
    rw [copyLoop, wp_bind]
    refine wp_readFd (fun sys k _ => ?_) fun sys => rfl
    rw [h, List.drop_nil, List.take_nil]
    exact wp_ite (fun _ => rfl) fun h' => absurd rfl h'

/-- Emptying an empty file changes nothing that can be read. -/
theorem Fs.read_setData_nil {fs : Fs} {i : Ino} {p : Path} (h : (fs.inode i).data = []) :
    (fs.setData i []).read p = fs.read p := by
  refine Fs.read_congr rfl fun j _ => ?_
  rw [Fs.inode_setData]
  split
  · next hj =>
    rw [hj, ← h]
  · rfl

/-- An empty file moved between two of its names stays at the other. -/
theorem wp_moveFile_alias (hr : w.fs.read o = some []) (hdp : namesFile d = true)
    (he : w.fs.entry (resolve d) = w.fs.entry (resolve o)) (hloc : resolve d ≠ resolve o) :
    wp (moveFile o d) (fun r w' => MoveIntact o d [] r w'.fs) w := by
  obtain ⟨sd, ho, hreg, hb, -⟩ := Fs.read_eq_some.mp hr
  have hd : w.fs.read d = some [] := Fs.read_eq_some.mpr ⟨sd, he.trans ho, hreg, hb, hdp⟩
  -- both names are read all the time, so that any result is right
  have hstay : ∀ (r : ℤ) (fs : Fs), fs.read o = some [] → fs.read d = some [] →
      MoveIntact o d [] r fs := fun r fs h h' => ⟨fun _ => h', fun _ => h⟩
  rw [moveFile, wp_bind]
  refine wp_openRead (fun sys i hi => ?_) fun sys => hstay _ _ hr hd
  obtain rfl : sd = i := Option.some.inj (ho.symm.trans hi)
  simp only [wp_bind]
  refine wp_result fun r sys => wp_ite (fun _ => hstay _ _ hr hd) fun _ => wp_getFs ?_
  rw [wp_bind]
  refine wp_openTrunc (fun sys hnone _ => ?_) (fun sys dd hdd hdreg _ => ?_)
    (fun sys dd hdd hdev _ => ?_) fun sys => hstay _ _ hr hd
  · rw [he, ho] at hnone
    cases hnone
  · obtain rfl : sd = dd := Option.some.inj (ho.symm.trans (he.symm.trans hdd))
    have hnil : ((w.fs.setData sd []).inode sd).data = [] := by
      rw [Fs.inode_setData, if_pos rfl]
    rw [wp_bind]
    refine wp_mono (wp_copyLoop_empty (w := ⟨w.fs.setData sd [], sys⟩) hnil) fun r w₂ hfs => ?_
    have ho₂ : w₂.fs.read o = some [] := by rw [hfs]; exact (Fs.read_setData_nil hb).trans hr
    have hd₂ : w₂.fs.read d = some [] := by rw [hfs]; exact (Fs.read_setData_nil hb).trans hd
    refine wp_ite (fun _ => hstay _ _ ho₂ hd₂) fun _ => ?_
    rw [wp_bind]
    refine wp_remove (fun sys => ⟨fun _ => ?_, fun h => absurd h newiup_fail_ne_ok.symm⟩)
      fun sys => hstay _ _ ho₂ hd₂
    exact (Fs.read_unlink_of_ne hloc).trans hd₂
  · rw [he, ho] at hdd
    cases hdd
    rw [Inode.isStream_of_isReg hreg] at hdev
    cases hdev

/-- With nothing failing, a file copied onto itself ends as an empty file under its
other names, and `move_file` reports success. -/
theorem wp_moveFile_self {fs : Fs} (hr : fs.read o = some b) (hdp : namesFile d = true)
    (he : fs.entry (resolve d) = fs.entry (resolve o)) :
    wp (moveFile o d) (fun r w' => r = NEWIUP_OK ∧
      (w'.fs.read d = none ∨ resolve d ≠ resolve o ∧ w'.fs.read d = some [])) ⟨fs, []⟩ := by
  obtain ⟨sd, ho, hreg, -, hop⟩ := Fs.read_eq_some.mp hr
  have hnil : ((fs.setData sd []).inode sd).data = [] := by
    rw [Fs.inode_setData, if_pos rfl]
  rw [moveFile, wp_bind, wp_openRead_nil ho hop]
  simp only [wp_bind, wp_result_nil, Option.isNone_some, Bool.false_eq_true, if_false, wp_getFs_iff]
  rw [wp_openTrunc_old (he.trans ho) hdp hreg]
  dsimp only
  rw [wp_bind]
  have hloop := wp_and (@wp_copyLoop_nil sd sd ((fs.inode sd).data.length + 1) 0
    (fs.setData sd []) (by rw [hnil]; exact Nat.succ_pos _) (Or.inr hnil))
    (@wp_copyLoop_empty ⟨fs.setData sd [], []⟩ sd sd _ 0 hnil)
  refine wp_mono hloop fun r w₂ h => ?_
  obtain ⟨⟨hok, hsys, -⟩, hfs⟩ := h
  obtain ⟨fs₂, sys⟩ := w₂
  dsimp only at hsys hfs
  subst hsys hfs
  rw [if_neg (not_not.mpr hok), wp_bind]
  simp only [remove, wp_bind, wp_result_nil, wp_getFs_iff, Option.isSome_some, Bool.true_and]
  have hhas : (fs.setData sd []).has o = true := Fs.has_iff.mpr ⟨sd, ho⟩
  rw [if_pos hhas]
  refine ⟨rfl, ?_⟩
  -- the name that is removed is the only one, or one of several
  by_cases hloc : resolve d = resolve o
  · left
    show ((fs.setData sd []).unlink (resolve o)).read d = none
    rw [← hloc]
    exact Fs.read_unlink_self _ _
  · refine Or.inr ⟨hloc, (Fs.read_unlink_of_ne hloc).trans ?_⟩
    refine Fs.read_eq_some.mpr ⟨sd, he.trans ho, ?_, hnil, hdp⟩
    unfold Inode.isReg at hreg ⊢
    rw [Fs.inode_setData, if_pos rfl]
    exact hreg

/-- With nothing failing, a file moved to a device is gone, and `move_file` reports
success. -/
theorem wp_moveFile_stream {fs : Fs} {dd : Ino} (hr : fs.read o = some b)
    (hdp : namesFile d = true) (hd : fs.entry (resolve d) = some dd)
    (hdev : (fs.inode dd).isStream = true) :
    wp (moveFile o d) (fun r w' => r = NEWIUP_OK ∧ w'.fs.read d = none) ⟨fs, []⟩ := by
  obtain ⟨sd, ho, hreg, -, hop⟩ := Fs.read_eq_some.mp hr
  have hne : sd ≠ dd := by
    rintro rfl
    rw [Inode.isStream_of_isReg hreg] at hdev
    cases hdev
  rw [moveFile, wp_bind, wp_openRead_nil ho hop]
  simp only [wp_bind, wp_result_nil, Option.isNone_some, Bool.false_eq_true, if_false, wp_getFs_iff]
  rw [wp_openTrunc_stream hd hdp hdev]
  dsimp only
  rw [wp_bind]
  have hloop := wp_and (wp_copyLoop hne ((fs.inode sd).data.length + 1) 0 ⟨fs, []⟩)
    (wp_copyLoop_nil ((fs.inode sd).data.length + 1) 0 fs (by omega) (Or.inl hne))
  refine wp_mono hloop fun r w₂ h => ?_
  obtain ⟨⟨hent, -, hmode, -⟩, hok, -, -⟩ := h
  rw [if_neg (not_not.mpr hok), wp_bind]
  -- what is at the destination is the device still, whether the source could be removed or not
  have hnone : w₂.fs.read d = none := by
    refine Option.eq_none_iff_forall_ne_some.mpr fun b' h' => ?_
    obtain ⟨i, hi, hireg, -⟩ := Fs.read_eq_some.mp h'
    obtain rfl : dd = i := Option.some.inj (hd.symm.trans (hent ▸ hi))
    have hdreg : (fs.inode dd).isReg = true := by
      unfold Inode.isReg at hireg ⊢
      exact hmode ▸ hireg
    rw [Inode.isReg_of_isStream hdev] at hdreg
    cases hdreg
  have hloc : resolve d ≠ resolve o := fun h => hne <| by
    rw [h, ho] at hd
    exact Option.some.inj hd
  exact wp_remove (fun _ => ⟨rfl, (Fs.read_unlink_of_ne hloc).trans hnone⟩) fun _ => ⟨rfl, hnone⟩

/-- A destination that `open` refuses for its path leaves everything in place. -/
theorem wp_moveFile_unnamed (hr : w.fs.read o = some b) (hdp : namesFile d = false) :
    wp (moveFile o d) (fun r w' => r ≠ NEWIUP_OK ∧ w'.fs.read o = some b) w := by
  rw [moveFile, wp_bind]
  refine wp_openRead (fun sys i hi => ?_) fun sys => ⟨newiup_fail_ne_ok, hr⟩
  simp only [wp_bind]
  refine wp_result fun r sys => wp_ite (fun _ => ⟨newiup_fail_ne_ok, hr⟩) fun _ => wp_getFs ?_
  rw [wp_bind]
  refine wp_openTrunc (fun sys _ hp => ?_) (fun sys dd _ _ hp => ?_) (fun sys dd _ _ hp => ?_)
    fun sys => ⟨newiup_fail_ne_ok, hr⟩
  all_goals
    rw [hdp] at hp
    cases hp

end Rules

/-- **When `move_file` is all-or-nothing.**  Whatever its calls report, a success leaves
the content at the destination and a failure leaves it at the source, exactly when `open`
refuses the destination for its path, or the destination is no device and does not name the
file of the source; only an empty file may be moved between two of its names. -/
theorem moveFile_intact_iff {origFile destFile : Path} {b : Bytes} {fs : Fs}
    (hr : fs.read origFile = some b) :
    (∀ sys : Sys, MoveIntact origFile destFile b
        ((moveFile origFile destFile).run ⟨fs, sys⟩).1
        ((moveFile origFile destFile).run ⟨fs, sys⟩).2.fs) ↔
      (namesFile destFile = false ∨ fs.Keeps (resolve destFile) ∧
        (fs.entry (resolve destFile) ≠ fs.entry (resolve origFile) ∨
          b = [] ∧ resolve destFile ≠ resolve origFile)) := by
  constructor
  · intro h
    by_contra hc
    rw [not_or, Bool.not_eq_false] at hc
    obtain ⟨hdp, hc⟩ := hc
    by_cases hk : fs.Keeps (resolve destFile)
    · -- the destination is the file itself
      rw [not_and] at hc
      have hc := hc hk
      rw [not_or, not_not, not_and_or, not_not] at hc
      obtain ⟨he, hc⟩ := hc
      obtain ⟨hok, hread⟩ := wp_moveFile_self hr hdp he
      have hdest := (h []).1 hok
      rcases hread with hnone | ⟨hloc, hempty⟩
      · rw [hnone] at hdest
        cases hdest
      · rw [hempty, Option.some.injEq] at hdest
        rcases hc with hb | hb
        · exact hb hdest.symm
        · exact hloc hb
    · -- the destination is a device
      unfold Fs.Keeps at hk
      push Not at hk
      obtain ⟨dd, hd, hdev⟩ := hk
      obtain ⟨hok, hnone⟩ := wp_moveFile_stream hr hdp hd (by simpa using hdev)
      have hdest := (h []).1 hok
      rw [hnone] at hdest
      cases hdest
  · intro hc sys
    by_cases hdp : namesFile destFile = true
    · obtain ⟨hk, hc⟩ := hc.resolve_left (by rw [hdp]; exact Bool.false_ne_true.symm)
      by_cases he : fs.entry (resolve destFile) = fs.entry (resolve origFile)
      · obtain ⟨rfl, hloc⟩ := hc.resolve_left fun hne => hne he
        exact wp_moveFile_alias (w := ⟨fs, sys⟩) hr hdp he hloc
      · obtain ⟨hok, hfail⟩ := wp_moveFile (w := ⟨fs, sys⟩) hr he hk
        exact ⟨hok, fun h => hfail (h ▸ newiup_fail_ne_ok)⟩
    · obtain ⟨hno, hkept⟩ := wp_moveFile_unnamed (w := ⟨fs, sys⟩) hr (Bool.not_eq_true _ ▸ hdp)
      exact ⟨fun h => absurd h hno, fun _ => hkept⟩

/-- The theorem at a move to another directory, in which a call fails. -/
theorem moveFile_intact_iff_apart :
    MoveIntact "/d/a".toList "/o/a".toList [1]
      ((moveFile "/d/a".toList "/o/a".toList).run ⟨sampleFs [("/d/a".toList, [1])], [none]⟩).1
      ((moveFile "/d/a".toList "/o/a".toList).run
        ⟨sampleFs [("/d/a".toList, [1])], [none]⟩).2.fs :=
  (moveFile_intact_iff (by decide +kernel)).mpr
    (Or.inr ⟨Fs.keeps_of_none (by decide +kernel), Or.inl (by decide +kernel)⟩) [none]

/-- **A move onto itself loses the file**, and is reported as a success. -/
theorem moveFile_onto_itself :
    ¬∀ (origFile destFile : Path) (b : Bytes) (fs : Fs) (sys : Sys),
      fs.read origFile = some b →
      MoveIntact origFile destFile b ((moveFile origFile destFile).run ⟨fs, sys⟩).1
        ((moveFile origFile destFile).run ⟨fs, sys⟩).2.fs := by
  intro h
  have hrun := (h "/d/a".toList "/d/a".toList [1] (sampleFs [("/d/a".toList, [1])]) []
    (by decide +kernel)).1 (by decide +kernel)
  revert hrun
  decide +kernel

end Newiup
