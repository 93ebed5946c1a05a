import Newiup.Block
import Newiup.Finish

/-!
# The source path of a monitor file

`add_file_suffix_process` on the buffer that holds the monitor file.  Two of the four
actions put a terminator in place of the last dot, use what is left, and put the dot back.

While the terminator is in its place the buffer holds a shorter string, and whoever read
the monitor file then would get that.  That the dot is back on every way out is part of
the result, next to what has been printed.

## Main definitions

* `InPlace.addFileSuffixProcess` — the function, with what it leaves in both buffers.
* `SourceExact` — the source path is the one of the action, no two monitor files have the
  same, and the monitor file is left alone.

## Main results

* `InPlace.addFileSuffixProcess_eq` — the buffer is as before, and what is printed is the
  source path of the monitor file.
* `source_exact` — **the source path is exact, injective and leaves its input intact.**
-/

namespace Newiup

/-! ### The function -/

/-- `rindex(buf, '.')`, and the dereference that follows it. -/
def lastDot (buf : CString) : Checked ℤ := do
  let s ← Block.text '\x00' buf 0
  (rindex '.' s).elim .outside fun p => .done p.1.length

/-- `snprintf(dstfile, new_path_len + 1, "%s.%s", monitorfile, upload_file_type)`. -/
def printWithType (mg : MonitorGroup) (monitorfile : CString) : Checked Path := do
  let s ← Block.text '\x00' monitorfile 0
  let newPathLen := s.length + 1 + mg.uploadFileType.length
  return snprintf (newPathLen + 1) (s ++ '.' :: mg.uploadFileType)

/-- `add_file_suffix_process`: the text in `dstfile`, for which there is room, and the
buffer of `monitorfile`. -/
def InPlace.addFileSuffixProcess (mg : MonitorGroup) (monitorfile : CString) :
    Checked (Path × CString) := do
  match mg.monitorToUploadAct with
  | .keep =>
      let dstfile ← Block.text '\x00' monitorfile 0
      return (dstfile, monitorfile)
  | .add =>
      let dstfile ← printWithType mg monitorfile
      return (dstfile, monitorfile)
  | .cut =>
      let ptr ← lastDot monitorfile
      let temp ← Block.load monitorfile ptr
      let monitorfile ← Block.store monitorfile ptr '\x00'
      let dstfile ← Block.text '\x00' monitorfile 0
      let monitorfile ← Block.store monitorfile ptr temp
      return (dstfile, monitorfile)
  | .replace =>
      let ptr ← lastDot monitorfile
      let temp ← Block.load monitorfile ptr
      let monitorfile ← Block.store monitorfile ptr '\x00'
      -- the length is the one of the stem
      let dstfile ← printWithType mg monitorfile
      let monitorfile ← Block.store monitorfile ptr temp
      return (dstfile, monitorfile)

/-! ### What it is for -/

/-- The source path of a monitor file, for the stem in front of its last dot. -/
def TypeProcess.source (act : TypeProcess) (monitorfile stem type : CString) : Path :=
  match act with
  | .keep => monitorfile
  | .add => monitorfile ++ '.' :: type
  | .cut => stem
  | .replace => stem ++ '.' :: type

/-- **The source path is exact, injective and leaves its input intact.**  The buffers hold
a monitor file, its terminator and anything behind it. -/
structure SourceExact (mg : MonitorGroup) : Prop where
  /-- What is dropped begins at the last dot and is in the last component of the path. -/
  exact {monitorfile rest : CString} : '\x00' ∉ monitorfile →
    isMonitorType monitorfile mg.monitorFileType = NEWIUP_OK →
    ∃ stem suffix, monitorfile = stem ++ '.' :: suffix ∧ '.' ∉ suffix ∧ '/' ∉ suffix ∧
      InPlace.addFileSuffixProcess mg (monitorfile ++ '\x00' :: rest) =
        .done (mg.monitorToUploadAct.source monitorfile stem mg.uploadFileType,
          monitorfile ++ '\x00' :: rest)
  /-- Two monitor files do not have the same source path. -/
  injective {m₁ rest₁ buf₁ m₂ rest₂ buf₂ : CString} {src : Path} :
    '\x00' ∉ m₁ → isMonitorType m₁ mg.monitorFileType = NEWIUP_OK →
    '\x00' ∉ m₂ → isMonitorType m₂ mg.monitorFileType = NEWIUP_OK →
    InPlace.addFileSuffixProcess mg (m₁ ++ '\x00' :: rest₁) = .done (src, buf₁) →
    InPlace.addFileSuffixProcess mg (m₂ ++ '\x00' :: rest₂) = .done (src, buf₂) → m₁ = m₂

section Source

variable {mg : MonitorGroup} {m rest stem suffix : CString}

/-- An accepted name ends in a dot and the type. -/
theorem eq_of_isMonitorType (h : isMonitorType m mg.monitorFileType = NEWIUP_OK) :
    ∃ stem, rindex '.' m = some (stem, mg.monitorFileType) := by
  rw [isMonitorType] at h
  cases hr : rindex '.' m with
  | none => rw [hr] at h; exact absurd h newiup_fail_ne_ok
  | some p =>
    rw [hr] at h
    by_cases hp : p.2 = mg.monitorFileType
    · exact ⟨p.1, by rw [← hp]⟩
    · exact absurd ((if_pos hp).symm.trans h) newiup_fail_ne_ok

/-- The size that is computed is enough. -/
theorem printWithType_eq (mg : MonitorGroup) {s : CString} (hs : '\x00' ∉ s) (rest : CString) :
    printWithType mg (s ++ '\x00' :: rest) = .done (s ++ '.' :: mg.uploadFileType) := by
  rw [printWithType, Checked.bind_eq, Block.text_front hs, Checked.done_bind]
  refine congrArg Checked.done (snprintf_of_lt ?_)
  simp only [List.length_append, List.length_cons]
  omega

/-- What the last dot of a buffer is, and what is left when a terminator is put there. -/
theorem lastDot_eq (hnul : '\x00' ∉ m) (hr : rindex '.' m = some (stem, suffix))
    (rest : CString) : lastDot (m ++ '\x00' :: rest) = .done stem.length := by
  rw [lastDot, Checked.bind_eq, Block.text_front hnul, Checked.done_bind, hr]
  rfl

/-- **The buffer is as before**, and what is printed is the source path. -/
theorem InPlace.addFileSuffixProcess_eq (hnul : '\x00' ∉ m)
    (hr : rindex '.' m = some (stem, suffix)) (rest : CString) :
    InPlace.addFileSuffixProcess mg (m ++ '\x00' :: rest) =
      .done (mg.monitorToUploadAct.source m stem mg.uploadFileType, m ++ '\x00' :: rest) := by
  obtain ⟨hm, -⟩ := eq_of_rindex hr
  -- the buffer around the dot, and the stem in front of the terminator put there
  have hbuf : m ++ '\x00' :: rest = stem ++ '.' :: (suffix ++ '\x00' :: rest) := by
    rw [hm, List.append_assoc, List.cons_append]
  have hstem : '\x00' ∉ stem := fun h => hnul (hm ▸ List.mem_append_left _ h)
  have hdot := lastDot_eq hnul hr rest
  rw [InPlace.addFileSuffixProcess]
  cases mg.monitorToUploadAct with
  | keep => rw [Checked.bind_eq, Block.text_front hnul]; rfl
  | add => rw [Checked.bind_eq, printWithType_eq mg hnul]; rfl
  | cut =>
    simp only [Checked.bind_eq]
    rw [hdot, Checked.done_bind, hbuf, Block.load_mid, Checked.done_bind, Block.store_mid,
      Checked.done_bind, Block.text_front hstem, Checked.done_bind, Block.store_mid]
    rfl
  | replace =>
    simp only [Checked.bind_eq]
    rw [hdot, Checked.done_bind, hbuf, Block.load_mid, Checked.done_bind, Block.store_mid,
      Checked.done_bind, printWithType_eq mg hstem, Checked.done_bind, Block.store_mid]
    rfl

/-- The function on the buffer computes the source path of the text in it. -/
theorem InPlace.addFileSuffixProcess_refines (hnul : '\x00' ∉ m)
    (h : isMonitorType m mg.monitorFileType = NEWIUP_OK) (rest : CString) :
    ∃ src, Newiup.addFileSuffixProcess mg m = some src ∧
      InPlace.addFileSuffixProcess mg (m ++ '\x00' :: rest) = .done (src, m ++ '\x00' :: rest) := by
  obtain ⟨stem, hr⟩ := eq_of_isMonitorType h
  refine ⟨_, ?_, InPlace.addFileSuffixProcess_eq hnul hr rest⟩
  rw [Newiup.addFileSuffixProcess, hr]
  cases mg.monitorToUploadAct <;> rfl

/-- The source path and the type give the monitor file back. -/
theorem TypeProcess.source_injective (act : TypeProcess) {m₁ m₂ stem₁ stem₂ type up : CString}
    (h₁ : m₁ = stem₁ ++ '.' :: type) (h₂ : m₂ = stem₂ ++ '.' :: type)
    (h : act.source m₁ stem₁ up = act.source m₂ stem₂ up) : m₁ = m₂ := by
  cases act with
  | keep => exact h
  | add => exact List.append_cancel_right h
  | cut =>
    have hstem : stem₁ = stem₂ := h
    rw [h₁, h₂, hstem]
  | replace =>
    have hstem : stem₁ = stem₂ := List.append_cancel_right h
    rw [h₁, h₂, hstem]

/-- **The source path is exact, injective and leaves its input intact**, where the type of
the monitor files has no slash. -/
theorem source_exact (mg : MonitorGroup) (htype : '/' ∉ mg.monitorFileType) : SourceExact mg where
  exact := fun {m rest} hnul hok => by
    obtain ⟨stem, hr⟩ := eq_of_isMonitorType hok
    obtain ⟨hm, hdot⟩ := eq_of_rindex hr
    exact ⟨stem, _, hm, hdot, htype, InPlace.addFileSuffixProcess_eq hnul hr rest⟩
  injective := fun {m₁ rest₁ _ m₂ rest₂ _ src} hnul₁ hok₁ hnul₂ hok₂ h₁ h₂ => by
    obtain ⟨stem₁, hr₁⟩ := eq_of_isMonitorType hok₁
    obtain ⟨stem₂, hr₂⟩ := eq_of_isMonitorType hok₂
    rw [InPlace.addFileSuffixProcess_eq hnul₁ hr₁] at h₁
    rw [InPlace.addFileSuffixProcess_eq hnul₂ hr₂] at h₂
    have hsrc₁ := (Prod.mk.inj (Checked.done.inj h₁)).1
    have hsrc₂ := (Prod.mk.inj (Checked.done.inj h₂)).1
    exact TypeProcess.source_injective mg.monitorToUploadAct (eq_of_rindex hr₁).1
      (eq_of_rindex hr₂).1 (hsrc₁.trans hsrc₂.symm)

/-- The theorem at a group that cuts the suffix. -/
theorem source_exact_cut : SourceExact (moveGroup .cut) := source_exact _ (by decide)

end Source
end Newiup
