import Newiup.Finish

/-!
# The names of the state files

A state file is named by a suffix: `-group-server` for the flag of one upload, `-upload-k`
for the marker.  Monitor files have the type their group is configured with, but the
names in a suffix may hold `-`, so a suffix may read as the end of a longer monitor file's
name and another suffix.

## Main definitions

* `flagSuffix`, `markerSuffix` — the suffixes.
* `MayRead` — a suffix reads as some text and another suffix, for a file of a given type.
* `NamesApart` — no suffix of the configuration reads as another.
* `StatePathsApart` — different state files have different paths.

## Main results

* `state_paths_apart_iff` — **the paths are apart if and only if the names are.**
* `NamesApart.of_plain` — names that are apart.
-/

namespace Newiup

/-! ### File types -/

/-- The type of a file of type `t` to whose name `z` is appended. -/
def typeAfter (t z : CString) : CString :=
  match rindex '.' z with
  | some (_, t') => t'
  | none => t ++ z

theorem isMonitorType_iff {m t : CString} :
    isMonitorType m t = NEWIUP_OK ↔ ∃ a, rindex '.' m = some (a, t) := by
  unfold isMonitorType
  cases hr : rindex '.' m with
  | none =>
    refine iff_of_false newiup_fail_ne_ok ?_
    rintro ⟨a, ha⟩
    cases ha
  | some p =>
    obtain ⟨a, b⟩ := p
    dsimp only
    by_cases hb : b = t
    · rw [if_neg (not_not.mpr hb), hb]
      exact iff_of_true rfl ⟨a, rfl⟩
    · rw [if_pos hb]
      refine iff_of_false newiup_fail_ne_ok ?_
      rintro ⟨a', ha⟩
      cases ha
      exact hb rfl

/-- What is appended to a name decides its type. -/
theorem isMonitorType_append {m t : CString} (h : isMonitorType m t = NEWIUP_OK) (z t' : CString) :
    isMonitorType (m ++ z) t' = NEWIUP_OK ↔ typeAfter t z = t' := by
  obtain ⟨a, ha⟩ := isMonitorType_iff.mp h
  rw [isMonitorType_iff, rindex_append, ha]
  unfold typeAfter
  cases rindex '.' z with
  | none => simp
  | some p => simp

/-- A type has no dot, and a name of that type is longer. -/
theorem of_isMonitorType {m t : CString} (h : isMonitorType m t = NEWIUP_OK) :
    '.' ∉ t ∧ t.length < m.length := by
  obtain ⟨a, ha⟩ := isMonitorType_iff.mp h
  obtain ⟨hm, ht⟩ := eq_of_rindex ha
  refine ⟨ht, ?_⟩
  rw [hm]
  simp
  omega

/-- A name that is a dot and a type. -/
theorem isMonitorType_dot {t : CString} (h : '.' ∉ t) : isMonitorType ('.' :: t) t = NEWIUP_OK := by
  refine isMonitorType_iff.mpr ⟨[], ?_⟩
  unfold rindex
  rw [rindex_eq_none.mpr h]
  rfl

/-! ### Suffixes -/

/-- What the flag of a server group adds to the name of a monitor file. -/
def flagSuffix (mg : MonitorGroup) (sg : ServerGroupQueue) : CString :=
  '-' :: (mg.name ++ '-' :: sg.primeName)

/-- What the marker adds to the name of a monitor file. -/
def markerSuffix : CString := "-upload-k".toList

/-- The path of a state file fits in its buffer. -/
def PathFits (m x : CString) : Prop := (m ++ x).length < NEWIUP_PATH_LEN

theorem flagPath_eq {m : Path} {mg : MonitorGroup} {sg : ServerGroupQueue}
    (h : PathFits m (flagSuffix mg sg)) :
    flagPath m mg.name sg.primeName = m ++ flagSuffix mg sg := snprintf_of_lt h

theorem markerPath_eq {m : Path} (h : PathFits m markerSuffix) :
    getUploadFileKByMonitorfile m = m ++ markerSuffix := snprintf_of_lt h

/-- For some file of type `t` the suffix `x` reads as a text and the suffix `y`, and with
that text the name is one of type `t'`. -/
def MayRead (t x t' y : CString) : Prop :=
  '.' ∉ t ∧ PathFits ('.' :: t) x ∧ ∃ z, x = z ++ y ∧ typeAfter t z = t'

instance (t x t' y : CString) : Decidable (MayRead t x t' y) :=
  decidable_of_iff ('.' ∉ t ∧ ('.' :: t ++ x).length < NEWIUP_PATH_LEN ∧
      x = x.take (x.length - y.length) ++ y ∧ typeAfter t (x.take (x.length - y.length)) = t')
    (and_congr_right fun _ => and_congr_right fun _ =>
      ⟨fun h => ⟨_, h⟩, fun ⟨z, hz, ht⟩ => by subst hz; simpa using ht⟩)

/-- Two paths of state files are the same when one suffix reads as the other. -/
theorem append_eq_cases {m x m' x' t t' : CString} (hm : isMonitorType m t = NEWIUP_OK)
    (hm' : isMonitorType m' t' = NEWIUP_OK) (hfit : PathFits m x) (he : m ++ x = m' ++ x') :
    (MayRead t x t' x' ∨ MayRead t' x' t x) ∧ (x = x' → m = m') := by
  refine ⟨?_, ?_⟩
  · have hshort : ∀ {m x t : CString}, isMonitorType m t = NEWIUP_OK → PathFits m x →
        PathFits ('.' :: t) x := fun ht hf => by
      have := (of_isMonitorType ht).2
      unfold PathFits at hf ⊢
      rw [List.length_append] at hf ⊢
      exact lt_of_le_of_lt (Nat.add_le_add_right (by simpa using this) _) hf
    have hfit' : PathFits m' x' := by
      unfold PathFits at hfit ⊢
      rwa [← he]
    rcases List.append_eq_append_iff.mp he with ⟨z, hz, hx⟩ | ⟨z, hz, hx⟩
    · refine Or.inl ⟨(of_isMonitorType hm).1, hshort hm hfit, z, hx, ?_⟩
      rw [hz] at hm'
      exact (isMonitorType_append hm z t').mp hm'
    · refine Or.inr ⟨(of_isMonitorType hm').1, hshort hm' hfit', z, hx, ?_⟩
      rw [hz] at hm
      exact (isMonitorType_append hm' z t).mp hm
  · rintro rfl
    exact List.append_cancel_right he

/-- When one suffix reads as the other, two files have the same path. -/
theorem MayRead.exists_files {t x t' y : CString} (h : MayRead t x t' y) :
    ∃ m m', isMonitorType m t = NEWIUP_OK ∧ isMonitorType m' t' = NEWIUP_OK ∧ PathFits m x ∧
      PathFits m' y ∧ m ++ x = m' ++ y := by
  obtain ⟨hdot, hfit, z, rfl, ht⟩ := h
  have hm := isMonitorType_dot hdot
  refine ⟨'.' :: t, '.' :: t ++ z, hm, (isMonitorType_append hm z t').mpr ht, hfit, ?_, ?_⟩
  · unfold PathFits at hfit ⊢
    rwa [List.append_assoc]
  · rw [List.append_assoc]

/-! ### Configurations -/

/-- The monitor group `g` of the configuration and its server group `i`. -/
def Config.Flag (cfg : Config) (g i : ℕ) (mg : MonitorGroup) (sg : ServerGroupQueue) : Prop :=
  cfg.groups[g]? = some mg ∧ mg.serverGroupList[i]? = some sg

/-- **Different state files have different paths**: the flags of different monitor files,
monitor groups or server groups, and each flag and each marker. -/
structure StatePathsApart (cfg : Config) : Prop where
  flags : ∀ {g i mg sg m g' i' mg' sg' m'}, cfg.Flag g i mg sg → cfg.Flag g' i' mg' sg' →
    isMonitorType m mg.monitorFileType = NEWIUP_OK →
    isMonitorType m' mg'.monitorFileType = NEWIUP_OK →
    PathFits m (flagSuffix mg sg) → PathFits m' (flagSuffix mg' sg') →
    flagPath m mg.name sg.primeName = flagPath m' mg'.name sg'.primeName →
    m = m' ∧ g = g' ∧ i = i'
  marker : ∀ {g i mg sg m mg' m'}, cfg.Flag g i mg sg → mg' ∈ cfg.groups →
    isMonitorType m mg.monitorFileType = NEWIUP_OK →
    isMonitorType m' mg'.monitorFileType = NEWIUP_OK →
    PathFits m (flagSuffix mg sg) → PathFits m' markerSuffix →
    flagPath m mg.name sg.primeName ≠ getUploadFileKByMonitorfile m'

/-- No suffix of the configuration reads as another.  One suffix reads as another if a monitor
file with the first appended is the path of another one with the second appended, each of a
type of the configuration.  The marker is one of the suffixes, for every group. -/
structure NamesApart (cfg : Config) : Prop where
  flags : ∀ {g i mg sg g' i' mg' sg'}, cfg.Flag g i mg sg → cfg.Flag g' i' mg' sg' →
    (g, i) ≠ (g', i') →
    ¬MayRead mg.monitorFileType (flagSuffix mg sg) mg'.monitorFileType (flagSuffix mg' sg')
  marker : ∀ {g i mg sg mg'}, cfg.Flag g i mg sg → mg' ∈ cfg.groups →
    ¬MayRead mg.monitorFileType (flagSuffix mg sg) mg'.monitorFileType markerSuffix ∧
      ¬MayRead mg'.monitorFileType markerSuffix mg.monitorFileType (flagSuffix mg sg)

/-- **The state files have different paths if and only if no suffix reads as another.** -/
theorem state_paths_apart_iff (cfg : Config) : StatePathsApart cfg ↔ NamesApart cfg := by
  constructor
  · intro h
    refine ⟨fun {g i mg sg g' i' mg' sg'} hf hf' hne hread => ?_,
      fun {g i mg sg mg'} hf hmg' => ⟨fun hread => ?_, fun hread => ?_⟩⟩
    · obtain ⟨m, m', hm, hm', hfit, hfit', he⟩ := hread.exists_files
      rw [← flagPath_eq hfit, ← flagPath_eq hfit'] at he
      obtain ⟨-, rfl, rfl⟩ := h.flags hf hf' hm hm' hfit hfit' he
      exact hne rfl
    · obtain ⟨m, m', hm, hm', hfit, hfit', he⟩ := hread.exists_files
      rw [← flagPath_eq hfit, ← markerPath_eq hfit'] at he
      exact h.marker hf hmg' hm hm' hfit hfit' he
    · obtain ⟨m', m, hm', hm, hfit', hfit, he⟩ := hread.exists_files
      rw [← flagPath_eq hfit, ← markerPath_eq hfit'] at he
      exact h.marker hf hmg' hm hm' hfit hfit' he.symm
  · intro h
    refine ⟨fun {g i mg sg m g' i' mg' sg' m'} hf hf' hm hm' hfit hfit' he => ?_,
      fun {g i mg sg m mg' m'} hf hmg' hm hm' hfit hfit' he => ?_⟩
    · rw [flagPath_eq hfit, flagPath_eq hfit'] at he
      obtain ⟨hread, hsame⟩ := append_eq_cases hm hm' hfit he
      have hgi : (g, i) = (g', i') := by
        by_contra hne
        rcases hread with hread | hread
        · exact h.flags hf hf' hne hread
        · exact h.flags hf' hf (Ne.symm hne) hread
      cases hgi
      cases hf.1.symm.trans hf'.1
      cases hf.2.symm.trans hf'.2
      exact ⟨hsame rfl, rfl, rfl⟩
    · rw [flagPath_eq hfit, markerPath_eq hfit'] at he
      rcases (append_eq_cases hm hm' hfit he).1 with hread | hread
      · exact (h.marker hf hmg').1 hread
      · exact (h.marker hf hmg').2 hread

/-! ### Names that are apart -/

theorem rindex_last {c : Char} (a : CString) {b : CString} (h : c ∉ b) :
    rindex c (a ++ c :: b) = some (a, b) := by
  have hb : rindex c (c :: b) = some ([], b) := by
    unfold rindex
    rw [rindex_eq_none.mpr h]
    simp
  rw [rindex_append, hb]
  simp

/-- Two suffixes of plain names that read as each other are the same. -/
theorem eq_of_mayRead {t t' g g' s s' : CString} (hs : '-' ∉ s) (hs' : '-' ∉ s') (hg : '.' ∉ g)
    (ht' : '-' ∉ t') (h : MayRead t ('-' :: (g ++ '-' :: s)) t' ('-' :: (g' ++ '-' :: s'))) :
    g = g' ∧ s = s' := by
  obtain ⟨-, -, z, hz, ht⟩ := h
  -- the last dash ends the name of the group
  have hlast : some ('-' :: g, s) = some (z ++ '-' :: g', s') := by
    rw [← rindex_last ('-' :: g) hs, ← rindex_last (z ++ '-' :: g') hs']
    simpa using congrArg (rindex '-') hz
  simp only [Option.some.injEq, Prod.mk.injEq] at hlast
  obtain ⟨hgz, rfl⟩ := hlast
  cases z with
  | nil => exact ⟨(List.cons.inj hgz).2, rfl⟩
  | cons c z =>
    obtain ⟨rfl, hgz'⟩ := List.cons.inj hgz
    have hdot : '.' ∉ '-' :: z := by
      rw [hgz'] at hg
      simpa using fun h => hg (List.mem_append_left _ h)
    unfold typeAfter at ht
    rw [rindex_eq_none.mpr hdot] at ht
    subst ht
    exact absurd (List.mem_append_right t List.mem_cons_self) ht'

/-- Names in which the dashes and dots of the file names are not to be mistaken. -/
structure PlainNames (cfg : Config) : Prop where
  /-- The names of first primary servers and the file types have no dash. -/
  server : ∀ {g i mg sg}, cfg.Flag g i mg sg → '-' ∉ sg.primeName
  type : ∀ mg ∈ cfg.groups, '-' ∉ mg.monitorFileType
  /-- The names of monitor groups have no dot. -/
  group : ∀ mg ∈ cfg.groups, '.' ∉ mg.name
  /-- Uploads are told apart by the two names. -/
  distinct : ∀ {g i mg sg g' i' mg' sg'}, cfg.Flag g i mg sg → cfg.Flag g' i' mg' sg' →
    mg.name = mg'.name → sg.primeName = sg'.primeName → (g, i) = (g', i')
  /-- No flag is named like a marker. -/
  marker : ∀ {g i mg sg}, cfg.Flag g i mg sg → mg.name = "upload".toList →
    sg.primeName ≠ "k".toList

/-- **Plain names are apart.** -/
theorem NamesApart.of_plain {cfg : Config} (h : PlainNames cfg) : NamesApart cfg := by
  have hmem : ∀ {g i mg sg}, cfg.Flag g i mg sg → mg ∈ cfg.groups := fun hf =>
    List.mem_of_getElem? hf.1
  refine ⟨fun {g i mg sg g' i' mg' sg'} hf hf' hne hread => ?_,
    fun {g i mg sg mg'} hf hmg' => ⟨fun hread => ?_, fun hread => ?_⟩⟩
  · obtain ⟨hg, hs⟩ := eq_of_mayRead (h.server hf) (h.server hf') (h.group _ (hmem hf))
      (h.type _ (hmem hf')) hread
    exact hne (h.distinct hf hf' hg hs)
  · obtain ⟨hg, hs⟩ := @eq_of_mayRead _ _ _ "upload".toList _ "k".toList (h.server hf)
      (by decide) (h.group _ (hmem hf)) (h.type _ hmg') hread
    exact h.marker hf hg hs
  · obtain ⟨hg, hs⟩ := eq_of_mayRead (g := "upload".toList) (s := "k".toList) (by decide)
      (h.server hf) (by decide) (h.type _ (hmem hf)) hread
    exact h.marker hf hg.symm hs.symm

/-- What `ConfNodeNameCheck` makes sure of: no name is used twice. -/
def NamesChecked (cfg : Config) : Prop :=
  (cfg.servers.map RealServer.name ++ cfg.groups.map MonitorGroup.name).Nodup

/-- A monitor group with a server. -/
def namedGroup (name : CString) (rs : RealServer) : MonitorGroup :=
  { moveGroup .cut with name := name, serverGroupList := [⟨[rs], [], by simp⟩], sgl_ne := by simp }

/-- The monitor groups `g-h` with the server `s` and `g` with the server `h-s`. -/
def dashedConfig : Config where
  servers := [⟨0, "s".toList, 1, 60, 1⟩, ⟨1, "h-s".toList, 1, 60, 1⟩]
  groups := [namedGroup "g-h".toList ⟨0, "s".toList, 1, 60, 1⟩,
    namedGroup "g".toList ⟨1, "h-s".toList, 1, 60, 1⟩]
  found := by decide
  maxUploadNum := 0
  date := fun _ => []

/-- **Two uploads share a flag** when the dashes of their names fall together. -/
theorem flag_is_shared : ¬∀ cfg : Config, NamesChecked cfg → StatePathsApart cfg := by
  intro h
  have hflag : dashedConfig.Flag 0 0 _ _ := ⟨rfl, rfl⟩
  have hflag' : dashedConfig.Flag 1 0 _ _ := ⟨rfl, rfl⟩
  have htype : isMonitorType "/d/a.c".toList "c".toList = NEWIUP_OK := by decide
  have hsame := (h dashedConfig (by unfold NamesChecked; decide)).flags hflag hflag' htype htype
    (by unfold PathFits; decide) (by unfold PathFits; decide) (by decide +kernel)
  exact absurd hsame.2.1 (by decide)

end Newiup
