import Newiup.Utils

/-!
# Compression

`do_compress` copies a file, or every entry of a tree, from `read` to the writer of zlib or
libarchive.  Both libraries report their failures in the results of their calls; what
happens to the copy depends on which of these results are looked at.

## Main definitions

* `Delivers` — what a sequence of reads can deliver of a file.
* `doCompressGz`, `doCompressArchive`, `doCompress` — the functions, with the calls that
  they make.
* `Stored`, `OutputComplete` — everything is read, and accepted by the writer.
* `Reported`, `Kept` — the failures that are looked at, and that nothing else fails.

## Main results

* `stored_iff` — **a file is stored when no read and no write of it fails.**
* `compress_complete_iff` — **a success means a complete copy exactly when a checked call
  fails or no other call does.**
-/

namespace Newiup

/-! ### Reads -/

/-- What reads of `size` bytes at most can deliver of the data: pieces of any length, or an
error; the end is where the list ends, and a buffer without room is at its end at once. -/
inductive Delivers (size : ℕ) : Bytes → List (Option Bytes) → Prop
  | eof : Delivers size [] []
  | empty {data : Bytes} (h : size = 0) : Delivers size data []
  | error {data : Bytes} {rest : List (Option Bytes)} : Delivers size data (none :: rest)
  | chunk {b data : Bytes} {rest : List (Option Bytes)} (hne : b ≠ []) (hlen : b.length ≤ size)
      (h : Delivers size data rest) : Delivers size (b ++ data) (some b :: rest)

/-- A file that is read into a buffer of `size` bytes. -/
structure FileSource (size : ℕ) where
  /-- What is in the file. -/
  data : Bytes
  /-- The results of `fread` or `read`, where `none` is an error. -/
  reads : List (Option Bytes)
  /-- They are results for this file. -/
  delivers : Delivers size data reads

/-- A call of a copying loop. -/
inductive CopyCall
  /-- A read fails. -/
  | readError
  /-- The bytes are given to the writer, which returns `ret`. -/
  | write (b : Bytes) (ret : ℤ)
  deriving DecidableEq

/-- What a call gives to the writer. -/
def CopyCall.bytes : CopyCall → Bytes
  | .readError => []
  | .write b _ => b

/-- **The data is stored**: every byte is read without an error and accepted in full. -/
structure Stored (data : Bytes) (calls : List CopyCall) : Prop where
  noError : .readError ∉ calls
  accepted : ∀ b ret, .write b ret ∈ calls → ret = b.length
  all : calls.flatMap CopyCall.bytes = data

/-- The calls for one file, and their results. -/
structure Copied where
  /-- What the loop returns. -/
  ret : ℤ
  /-- Its calls. -/
  calls : List CopyCall

/-! ### `gz` -/

/-- How the calls go when a file is compressed with zlib. -/
structure GzRun (size : ℕ) where
  /-- `fopen` succeeds. -/
  opened : Bool
  /-- `gzopen` succeeds. -/
  created : Bool
  /-- The file. -/
  src : FileSource size
  /-- The results of `gzwrite`, by the number of the call. -/
  writes : ℕ → ℤ
  /-- The result of `gzclose`. -/
  close : ℤ

/-- The loop of `do_compress_gz`; `re` is what it returns so far. -/
def gzLoop (writes : ℕ → ℤ) : List (Option Bytes) → ℕ → ℤ → Copied
  | [], _, re => ⟨re, []⟩
  | none :: _, _, _ => ⟨NEWIUP_FAIL, [.readError]⟩
  | some b :: rest, k, re =>
    -- a short write does not end the loop
    let copied := gzLoop writes rest (k + 1) (if writes k ≠ b.length then NEWIUP_FAIL else re)
    ⟨copied.ret, .write b (writes k) :: copied.calls⟩

/-- What a function returns, the calls for each entry, and the result of the close. -/
structure Compressed where
  /-- The result. -/
  ret : ℤ
  /-- The calls, entry by entry. -/
  logs : List (List CopyCall)
  /-- The result of the close, if there is one. -/
  close : Option ℤ

/-- `do_compress_gz`. -/
def doCompressGz {size : ℕ} (run : GzRun size) : Compressed :=
  if run.opened = false ∨ run.created = false then ⟨NEWIUP_FAIL, [], none⟩
  else
    let copied := gzLoop run.writes run.src.reads 0 NEWIUP_OK
    ⟨copied.ret, [copied.calls], some run.close⟩

/-! ### Archives -/

/-- `ARCHIVE_OK`. -/
def ARCHIVE_OK : ℤ := 0
/-- `ARCHIVE_WARN`. -/
def ARCHIVE_WARN : ℤ := -20
/-- `ARCHIVE_FAILED`. -/
def ARCHIVE_FAILED : ℤ := -25
/-- `ARCHIVE_FATAL`. -/
def ARCHIVE_FATAL : ℤ := -30
/-- `Z_OK`. -/
def Z_OK : ℤ := 0

/-- An entry of the tree, with the results of the calls for it. -/
structure DiskEntry (size : ℕ) where
  /-- It is a regular file. -/
  regular : Bool
  /-- What is read from it; where it cannot be opened the first read fails. -/
  src : FileSource size
  /-- The result of `archive_write_header`. -/
  header : ℤ
  /-- The results of `archive_write_data`, by the number of the call. -/
  writes : ℕ → ℤ

/-- How the calls go when a tree is archived.  The result of `archive_write_open_filename`
is not used. -/
structure ArchiveRun (size : ℕ) where
  /-- The result of `archive_read_disk_open`. -/
  diskOpen : ℤ
  /-- The results of `archive_read_next_header2` before `ARCHIVE_EOF`: an entry, or anything
  but `ARCHIVE_OK`. -/
  walk : List (Option (DiskEntry size))
  /-- The result of `archive_write_close`. -/
  close : ℤ

/-- The inner loop of `do_compress_archive`. -/
def copyData (writes : ℕ → ℤ) : List (Option Bytes) → ℕ → List CopyCall
  | [], _ => []
  | none :: _, _ => [.readError]
  | some b :: rest, k => .write b (writes k) :: copyData writes rest (k + 1)

/-- The outer loop of `do_compress_archive`: its result, and the calls for each entry. -/
def archiveLoop {size : ℕ} : List (Option (DiskEntry size)) → ℤ × List (List CopyCall)
  | [] => (NEWIUP_OK, [])
  | none :: _ => (NEWIUP_FAIL, [])
  | some e :: rest =>
    if e.header = ARCHIVE_FATAL then (NEWIUP_FAIL, [[]])
    else
      let calls := if ARCHIVE_FAILED < e.header then copyData e.writes e.src.reads 0 else []
      ((archiveLoop rest).1, calls :: (archiveLoop rest).2)

/-- `do_compress_archive`. -/
def doCompressArchive {size : ℕ} (run : ArchiveRun size) : Compressed :=
  if run.diskOpen ≠ ARCHIVE_OK then ⟨NEWIUP_FAIL, [], some run.close⟩
  else ⟨(archiveLoop run.walk).1, (archiveLoop run.walk).2, some run.close⟩

/-! ### All types -/

/-- `enum compress_type_e`. -/
inductive CompressType
  | gz | z | zip | sevenZ | lzma | tar | tgz | tarGz | tarBz | tarBz2 | tarZ
  deriving DecidableEq

/-- How the calls go. -/
structure CompressRun (size : ℕ) where
  /-- For the type `gz`. -/
  gz : GzRun size
  /-- For the archives. -/
  archive : ArchiveRun size
  /-- The result of `LzmaCompress`. -/
  lzma : ℤ

/-- `do_compress`. -/
def doCompress {size : ℕ} (type : CompressType) (run : CompressRun size) : Compressed :=
  match type with
  | .gz => doCompressGz run.gz
  | .lzma => ⟨run.lzma, [], none⟩
  | _ => doCompressArchive run.archive

/-- The header is written, if with a warning. -/
def HeaderAccepted (r : ℤ) : Prop := r = ARCHIVE_OK ∨ r = ARCHIVE_WARN

/-- The entry is in the archive. -/
structure Archived {size : ℕ} (e : DiskEntry size) (calls : List CopyCall) : Prop where
  header : HeaderAccepted e.header
  stored : e.regular = true → Stored e.src.data calls

/-- The entries of the tree. -/
def ArchiveRun.entries {size : ℕ} (run : ArchiveRun size) : List (DiskEntry size) :=
  run.walk.filterMap id

/-- **The output is complete**: every byte of every entry is read without an error and
accepted in full, and the close reports no error. -/
def OutputComplete {size : ℕ} (type : CompressType) (run : CompressRun size) (out : Compressed) :
    Prop :=
  match type with
  | .gz => (∃ calls, out.logs = [calls] ∧ Stored run.gz.src.data calls) ∧ out.close = some Z_OK
  | .lzma => True
  | _ => List.Forall₂ Archived run.archive.entries out.logs ∧ out.close = some ARCHIVE_OK

/-! ### Which failures are reported -/

/-- The results of the writes for the pieces that are read are their lengths. -/
def WritesAll (writes : ℕ → ℤ) (reads : List (Option Bytes)) : Prop :=
  ∀ k b, reads[k]? = some (some b) → writes k = b.length

/-- A checked call fails. -/
def Reported {size : ℕ} (type : CompressType) (run : CompressRun size) : Prop :=
  match type with
  | .gz => run.gz.opened = false ∨ run.gz.created = false ∨ none ∈ run.gz.src.reads ∨
      ¬WritesAll run.gz.writes run.gz.src.reads
  | .lzma => True
  | _ => run.archive.diskOpen ≠ ARCHIVE_OK ∨ none ∈ run.archive.walk ∨
      ∃ e ∈ run.archive.entries, e.header = ARCHIVE_FATAL

/-- No other call fails, and a buffer without room has nothing to take. -/
def Kept {size : ℕ} (type : CompressType) (run : CompressRun size) : Prop :=
  match type with
  | .gz => run.gz.close = Z_OK ∧ (size = 0 → run.gz.src.data = [])
  | .lzma => True
  | _ => (∀ e ∈ run.archive.entries, HeaderAccepted e.header ∧
        (e.regular = true → none ∉ e.src.reads ∧ WritesAll e.writes e.src.reads ∧
          (size = 0 → e.src.data = []))) ∧
      run.archive.close = ARCHIVE_OK

section Copy

variable {size : ℕ} {writes : ℕ → ℤ} {data : Bytes} {reads : List (Option Bytes)} {k : ℕ}

theorem writesAll_cons {o : Option Bytes} : WritesAll writes (o :: reads) ↔
    (∀ b ∈ o, writes 0 = b.length) ∧ WritesAll (fun i => writes (i + 1)) reads := by
  constructor
  · exact fun h => ⟨fun b hb => h 0 b (congrArg some hb), fun i b hb => h (i + 1) b hb⟩
  · rintro ⟨hzero, hrest⟩ i b hb
    cases i with
    | zero => exact hzero b (Option.some.inj hb)
    | succ i => exact hrest i b hb

/-- The loop counts its writes. -/
theorem copyData_shift :
    copyData writes reads (k + 1) = copyData (fun i => writes (i + 1)) reads k := by
  induction reads generalizing k with
  | nil => rfl
  | cons o reads ih =>
    cases o with
    | none => rfl
    | some b => rw [copyData, copyData, ih]

/-- A first piece that is written. -/
theorem stored_cons {b : Bytes} {ret : ℤ} {calls : List CopyCall} :
    Stored (b ++ data) (.write b ret :: calls) ↔ ret = b.length ∧ Stored data calls := by
  constructor
  · rintro ⟨herror, haccepted, hall⟩
    refine ⟨haccepted b ret List.mem_cons_self, fun h => herror (List.mem_cons_of_mem _ h),
      fun b' r h => haccepted b' r (List.mem_cons_of_mem _ h), ?_⟩
    exact List.append_cancel_left hall
  · rintro ⟨hret, herror, haccepted, hall⟩
    refine ⟨fun h => herror ((List.mem_cons.mp h).resolve_left nofun), fun b' r h => ?_,
      congrArg (b ++ ·) hall⟩
    rcases List.mem_cons.mp h with heq | h
    · cases heq
      exact hret
    · exact haccepted b' r h

/-- **A file is stored** when no read and no write of it fails. -/
theorem stored_iff (h : Delivers size data reads) :
    Stored data (copyData writes reads 0) ↔
      none ∉ reads ∧ WritesAll writes reads ∧ (size = 0 → data = []) := by
  induction h generalizing writes with
  | eof => exact iff_of_true ⟨nofun, nofun, rfl⟩ ⟨nofun, nofun, fun _ => rfl⟩
  | @empty data hsize =>
    constructor
    · exact fun h => ⟨nofun, nofun, fun _ => h.all.symm⟩
    · exact fun h => ⟨nofun, nofun, (h.2.2 hsize).symm⟩
  | error =>
    refine iff_of_false (fun h => h.noError List.mem_cons_self) fun h => ?_
    exact h.1 List.mem_cons_self
  | @chunk b data rest hne hlen h ih =>
    have hsize : size ≠ 0 := by
      have hpos := List.length_pos_iff.mpr hne
      omega
    rw [copyData, stored_cons, copyData_shift, ih, writesAll_cons]
    simp [hsize, and_left_comm]

/-- The loop for `gz` makes the same calls, and returns a failure of any of them. -/
theorem gzLoop_eq (re : ℤ) :
    (gzLoop writes reads k re).calls = copyData writes reads k ∧
      ((gzLoop writes reads k re).ret = NEWIUP_OK ↔
        re = NEWIUP_OK ∧ none ∉ reads ∧ WritesAll (fun i => writes (i + k)) reads) := by
  induction reads generalizing k re with
  | nil => exact ⟨rfl, ⟨fun h => ⟨h, nofun, nofun⟩, fun h => h.1⟩⟩
  | cons o reads ih =>
    cases o with
    | none =>
      refine ⟨rfl, iff_of_false (fun h => newiup_fail_ne_ok h) fun h => ?_⟩
      exact h.2.1 List.mem_cons_self
    | some b =>
      obtain ⟨hcalls, hret⟩ := @ih (k + 1) (if writes k ≠ b.length then NEWIUP_FAIL else re)
      refine ⟨congrArg _ hcalls, hret.trans ?_⟩
      have hshift : (fun i => writes (i + (k + 1))) = fun i => writes (i + 1 + k) := by
        funext i
        rw [Nat.add_right_comm, Nat.add_assoc]
      rw [writesAll_cons, hshift]
      by_cases hw : writes k = b.length
      · rw [if_neg (not_not_intro hw)]
        simp [hw]
      · rw [if_pos hw]
        refine iff_of_false (fun h => newiup_fail_ne_ok h.1) fun h => hw ?_
        simpa using h.2.2.1 b rfl

end Copy

/-! ### The results -/

section Results

variable {size : ℕ}

/-- **`gz`**: the close is not looked at. -/
theorem gz_complete_iff (run : GzRun size) :
    ((doCompressGz run).ret = NEWIUP_OK →
        (∃ calls, (doCompressGz run).logs = [calls] ∧ Stored run.src.data calls) ∧
          (doCompressGz run).close = some Z_OK) ↔
      (run.opened = false ∨ run.created = false ∨ none ∈ run.src.reads ∨
          ¬WritesAll run.writes run.src.reads) ∨
        run.close = Z_OK ∧ (size = 0 → run.src.data = []) := by
  unfold doCompressGz
  by_cases hopen : run.opened = false ∨ run.created = false
  · rw [if_pos hopen]
    refine iff_of_true (fun h => absurd h newiup_fail_ne_ok) (.inl ?_)
    exact hopen.elim .inl fun h => .inr (.inl h)
  rw [if_neg hopen]
  obtain ⟨hcalls, hret⟩ := @gzLoop_eq run.writes run.src.reads 0 NEWIUP_OK
  obtain ⟨hopened, hcreated⟩ := not_or.mp hopen
  dsimp only
  rw [hret, hcalls, or_iff_right hopened, or_iff_right hcreated]
  simp only [Nat.add_zero, true_and, List.cons.injEq, and_true, exists_eq_left', Option.some.injEq,
    stored_iff run.src.delivers]
  tauto

/-- The calls for an entry. -/
def DiskEntry.calls (e : DiskEntry size) : List CopyCall :=
  if ARCHIVE_FAILED < e.header then copyData e.writes e.src.reads 0 else []

/-- The walk succeeds where it meets no error and no fatal header. -/
theorem archiveLoop_ok {walk : List (Option (DiskEntry size))} :
    (archiveLoop walk).1 = NEWIUP_OK ↔
      none ∉ walk ∧ ∀ e ∈ walk.filterMap id, e.header ≠ ARCHIVE_FATAL := by
  induction walk with
  | nil => exact iff_of_true rfl ⟨nofun, nofun⟩
  | cons o walk ih =>
    cases o with
    | none => exact iff_of_false newiup_fail_ne_ok fun h => h.1 List.mem_cons_self
    | some e =>
      rw [archiveLoop]
      by_cases hfatal : e.header = ARCHIVE_FATAL
      · rw [if_pos hfatal]
        exact iff_of_false newiup_fail_ne_ok fun h => h.2 e List.mem_cons_self hfatal
      · have hentries : (some e :: walk).filterMap id = e :: walk.filterMap id := rfl
        rw [if_neg hfatal, hentries, List.forall_mem_cons]
        dsimp only
        rw [ih]
        simp [hfatal]

/-- It then makes the calls of every entry. -/
theorem archiveLoop_logs {walk : List (Option (DiskEntry size))}
    (h : (archiveLoop walk).1 = NEWIUP_OK) :
    (archiveLoop walk).2 = (walk.filterMap id).map DiskEntry.calls := by
  induction walk with
  | nil => rfl
  | cons o walk ih =>
    cases o with
    | none => exact absurd h newiup_fail_ne_ok
    | some e =>
      rw [archiveLoop] at h ⊢
      by_cases hfatal : e.header = ARCHIVE_FATAL
      · rw [if_pos hfatal] at h
        exact absurd h newiup_fail_ne_ok
      · rw [if_neg hfatal] at h ⊢
        exact congrArg (e.calls :: ·) (ih h)

theorem archived_iff (e : DiskEntry size) : Archived e e.calls ↔
    HeaderAccepted e.header ∧ (e.regular = true → none ∉ e.src.reads ∧
      WritesAll e.writes e.src.reads ∧ (size = 0 → e.src.data = [])) := by
  have hcalls : HeaderAccepted e.header → e.calls = copyData e.writes e.src.reads 0 := by
    intro hheader
    refine if_pos ?_
    rcases hheader with h | h <;> rw [h] <;> decide
  constructor
  · rintro ⟨hheader, hstored⟩
    rw [hcalls hheader, stored_iff e.src.delivers] at hstored
    exact ⟨hheader, hstored⟩
  · rintro ⟨hheader, hstored⟩
    refine ⟨hheader, ?_⟩
    rw [hcalls hheader, stored_iff e.src.delivers]
    exact hstored

/-- **An archive**: only the walk and a fatal header are looked at. -/
theorem archive_complete_iff (run : ArchiveRun size) :
    ((doCompressArchive run).ret = NEWIUP_OK →
        List.Forall₂ Archived run.entries (doCompressArchive run).logs ∧
          (doCompressArchive run).close = some ARCHIVE_OK) ↔
      (run.diskOpen ≠ ARCHIVE_OK ∨ none ∈ run.walk ∨
          ∃ e ∈ run.entries, e.header = ARCHIVE_FATAL) ∨
        (∀ e ∈ run.entries, HeaderAccepted e.header ∧
            (e.regular = true → none ∉ e.src.reads ∧ WritesAll e.writes e.src.reads ∧
              (size = 0 → e.src.data = []))) ∧
          run.close = ARCHIVE_OK := by
  unfold doCompressArchive
  by_cases hdisk : run.diskOpen = ARCHIVE_OK
  swap
  · rw [if_pos hdisk]
    exact iff_of_true (fun h => absurd h newiup_fail_ne_ok) (.inl (.inl hdisk))
  rw [if_neg (not_not_intro hdisk), or_iff_right (not_not_intro hdisk)]
  dsimp only
  by_cases hok : (archiveLoop run.walk).1 = NEWIUP_OK
  · obtain ⟨hwalk, hheaders⟩ := archiveLoop_ok.mp hok
    have hnot : ¬(none ∈ run.walk ∨ ∃ e ∈ run.entries, e.header = ARCHIVE_FATAL) := by
      rintro (h | ⟨e, he, h⟩)
      · exact hwalk h
      · exact hheaders e he h
    -- on this branch no result that is looked at is a failure, so that all depends on the others
    rw [or_iff_right hnot, archiveLoop_logs hok, ← ArchiveRun.entries, List.forall₂_map_right_iff,
      List.forall₂_same, forall_prop_of_true hok]
    simp only [archived_iff, Option.some.injEq]
  · refine iff_of_true (fun h => absurd h hok) (.inl ?_)
    by_contra hnot
    obtain ⟨hwalk, hheaders⟩ := not_or.mp hnot
    exact hok (archiveLoop_ok.mpr ⟨hwalk, fun e he h => hheaders ⟨e, he, h⟩⟩)

/-- **A success means a complete output** exactly when a checked call fails or no other call
does.  The right-hand side is about the results of the calls, and not about what the loop makes
of them. -/
theorem compress_complete_iff (type : CompressType) (run : CompressRun size) :
    ((doCompress type run).ret = NEWIUP_OK → OutputComplete type run (doCompress type run)) ↔
      Reported type run ∨ Kept type run := by
  cases type with
  | gz => exact gz_complete_iff run.gz
  | lzma => exact iff_of_true (fun _ => trivial) (.inl trivial)
  | _ => exact archive_complete_iff run.archive

end Results

/-- A file of two bytes whose second byte cannot be read. -/
def brokenSource : FileSource 1 :=
  ⟨[1, 2], [some [1], none], .chunk (b := [1]) (by decide) (by decide) .error⟩

/-- All other calls succeed. -/
def brokenRun : CompressRun 1 where
  gz := ⟨true, true, brokenSource, fun _ => 1, Z_OK⟩
  archive := ⟨ARCHIVE_OK, [some ⟨true, brokenSource, ARCHIVE_OK, fun _ => 1⟩], ARCHIVE_OK⟩
  lzma := NEWIUP_OK

/-- **An error of `read` is taken for the end of the file.** -/
theorem read_error_swallowed : ¬∀ (size : ℕ) (type : CompressType) (run : CompressRun size),
    (doCompress type run).ret = NEWIUP_OK → OutputComplete type run (doCompress type run) := by
  intro h
  obtain ⟨hentries, -⟩ : List.Forall₂ Archived brokenRun.archive.entries _ ∧ _ :=
    h 1 .tar brokenRun rfl
  cases hentries with
  | cons harchived _ =>
    have hmem : CopyCall.readError ∈ [CopyCall.write [1] 1, .readError] := by decide
    exact (harchived.stored rfl).noError hmem

end Newiup
