import Newiup.Fs
import Newiup.Search

/-!
# The wrappers of the LZMA tool

`LzmaCompress` and `LzmaUncompress` print the arguments of `main2` into one buffer, with the
byte 1 between them, and look each of them up with `strstr`.  What is looked up may stand in
an earlier argument.

The text in front is `xxx`, so that a path `x` is found there, and a destination that is a
part of the source is found in the source.  Only its end does no harm, since what is found
there reads the same up to the terminator.

## Main definitions

* `lzmaArgs` — the arguments that `main2` is called with.
* `WorksOn` — they are the operation and the two paths.
* `FoundAsGiven` — no path is found in the wrong place.

## Main results

* `lzma_works_iff` — **the wrappers work on the files they were given exactly when no path is
  found in the wrong place.**
-/

namespace Newiup

/-! ### The wrappers -/

/-- `strstr`. -/
def strstr (haystack needle : CString) : Option ℕ := search needle haystack

/-- `ReplaceChar`, over a whole string. -/
def replaceChar (cSearch cReplace : Char) (s : CString) : CString :=
  s.map fun c => if c = cSearch then cReplace else c

/-- The string at a pointer into a buffer. -/
def stringAt (buf : CString) (p : ℕ) : CString := (buf.drop p).takeWhile (· ≠ '\x00')

/-- The two wrappers. -/
inductive LzmaWrapper
  /-- `LzmaCompress`. -/
  | compress
  /-- `LzmaUncompress`. -/
  | uncompress

/-- `pOper`. -/
def LzmaWrapper.oper : LzmaWrapper → CString
  | .compress => "e".toList
  | .uncompress => "d".toList

/-- What is printed into `buf`. -/
def lzmaBuf (oper src dst : CString) : CString :=
  "xxx".toList ++ '\x01' :: (oper ++ '\x01' :: (src ++ '\x01' :: dst))

/-- The arguments `args[0]` to `args[3]` of the call of `main2`, where a string that is not
found is a null pointer; a text that is too long for `buf` is undefined. -/
def lzmaArgs (w : LzmaWrapper) (src dst : CString) : Option (List (Option CString)) :=
  let buf := lzmaBuf w.oper src dst
  if buf.length < 1024 then
    let args := [some 0, strstr buf w.oper, strstr buf src, strstr buf dst]
    some (args.map fun p => p.map (stringAt (replaceChar '\x01' '\x00' buf)))
  else none

/-! ### What they are for -/

/-- A path that can be handed over. -/
structure IsArg (s : CString) : Prop where
  ne_nil : s ≠ []
  no_sep : '\x01' ∉ s
  no_nul : '\x00' ∉ s

/-- **The wrapper works on the files it was given**: `main2` gets the operation, the source
and the destination. -/
def WorksOn (w : LzmaWrapper) (src dst : CString) : Prop :=
  ∃ name, lzmaArgs w src dst = some [name, some w.oper, some src, some dst]

/-- **No path is found in the wrong place**: neither is a part of the text in front, and the
destination stands in the source at its end only, unless it is found before the source. -/
structure FoundAsGiven (w : LzmaWrapper) (src dst : CString) : Prop where
  src_found : src ≠ "x".toList ∧ src ≠ "xx".toList
  dst_found : dst ≠ "x".toList ∧ dst ≠ "xx".toList
  apart : dst = "xxx".toList ∨ dst = w.oper ∨ ∀ pre post, src = pre ++ dst ++ post → post = []

section Wrapper

variable {w : LzmaWrapper} {s src dst : CString}

theorem LzmaWrapper.isArg_oper (w : LzmaWrapper) : IsArg w.oper := by
  cases w <;> exact ⟨by decide, by decide, by decide⟩

/-- The arguments, as they are found in the segments of the buffer. -/
theorem stringAt_strstr (hs : IsArg s) (hsrc : IsArg src) (hdst : IsArg dst) :
    (strstr (lzmaBuf w.oper src dst) s).map
        (stringAt (replaceChar '\x01' '\x00' (lzmaBuf w.oper src dst))) =
      foundIn s ["xxx".toList, w.oper, src, dst] := by
  have hsegs : ∀ {c : Char}, (∀ x, IsArg x → c ∉ x) → ∀ x ∈ [w.oper, src, dst], c ∉ x := by
    intro c hc x hx
    simp only [List.mem_cons, List.not_mem_nil, or_false] at hx
    rcases hx with rfl | rfl | rfl
    · exact hc _ w.isArg_oper
    · exact hc _ hsrc
    · exact hc _ hdst
  have hbuf : lzmaBuf w.oper src dst = joined '\x01' "xxx".toList [w.oper, src, dst] := rfl
  have hreplaced : replaceChar '\x01' '\x00' (lzmaBuf w.oper src dst) =
      joined '\x00' "xxx".toList [w.oper, src, dst] := by
    rw [hbuf]
    exact map_joined (by decide) (hsegs fun _ h => h.no_sep)
  rw [hreplaced, hbuf]
  exact rest_search_joined hs.ne_nil hs.no_sep (by decide) (hsegs fun _ h => h.no_nul)

/-- What is found in the text in front. -/
theorem search_xxx (hne : s ≠ []) :
    search s "xxx".toList =
      if s ∈ ["x".toList, "xx".toList, "xxx".toList] then some 0 else none := by
  by_cases hs : s ∈ ["x".toList, "xx".toList, "xxx".toList]
  · rw [if_pos hs]
    simp only [List.mem_cons, List.not_mem_nil, or_false] at hs
    rcases hs with rfl | rfl | rfl <;> decide
  · rw [if_neg hs, search_eq_none_iff]
    rintro ⟨pre, post, hxxx⟩
    -- a part of `xxx` is one of the three
    have hall : s = List.replicate s.length 'x' := by
      refine List.eq_replicate_of_mem fun c hc => ?_
      have hmem : c ∈ "xxx".toList := by
        rw [← hxxx]
        exact List.mem_append_left _ (List.mem_append_right _ hc)
      simpa using hmem
    have hlen : s.length ≤ 3 := by
      have hsum := congrArg List.length hxxx
      simp at hsum
      omega
    have hpos := List.length_pos_iff.mpr hne
    refine hs ?_
    rw [hall]
    interval_cases s.length <;> decide

/-- A letter in front is found only where it is looked for. -/
theorem search_oper (hne : s ≠ []) :
    search s w.oper = if s = w.oper then some 0 else none := by
  by_cases hs : s = w.oper
  · rw [if_pos hs, hs]
    exact search_of_prefix (List.prefix_refl _)
  · rw [if_neg hs, search_eq_none_iff]
    intro hin
    have hone : w.oper.length = 1 := by cases w <;> rfl
    have hpos := List.length_pos_iff.mpr hne
    exact hs (hin.eq_of_length_le (by omega))

/-- **A first occurrence at the end**: every occurrence ends the list. -/
theorem search_end_iff {s l : CString} :
    (∀ k, search s l = some k → l.drop k = s) ↔ ∀ pre post, l = pre ++ s ++ post → post = [] := by
  constructor
  · intro h pre post hl
    obtain ⟨k, hk⟩ := Option.ne_none_iff_exists'.mp fun hnone =>
      search_eq_none_iff.mp hnone ⟨pre, post, hl.symm⟩
    obtain ⟨hle, -, hfirst⟩ := search_eq_some_iff.mp hk
    -- the first occurrence is not behind this one, and reaches to the end
    have hbefore : k ≤ pre.length := by
      by_contra hlt
      refine hfirst pre.length (not_le.mp hlt) ?_
      rw [hl, List.append_assoc, List.drop_left]
      exact List.prefix_append s post
    have hlen := congrArg List.length (h k hk)
    have hsum := congrArg List.length hl
    rw [List.length_drop] at hlen
    rw [List.length_append, List.length_append] at hsum
    exact List.length_eq_zero_iff.mp (by omega)
  · intro h k hk
    obtain ⟨hle, ⟨post, hpost⟩, -⟩ := search_eq_some_iff.mp hk
    have hl : l = l.take k ++ s ++ post := by
      rw [List.append_assoc, hpost, List.take_append_drop]
    rw [← hpost, h _ _ hl, List.append_nil]

/-- A part of the text in front is found there. -/
theorem foundIn_xxx {segs : List CString} (hne : s ≠ []) :
    foundIn s ("xxx".toList :: segs) =
      if s ∈ ["x".toList, "xx".toList, "xxx".toList] then some "xxx".toList
      else foundIn s segs := by
  rw [foundIn, search_xxx hne]
  split <;> rfl

/-- So is the letter of the operation behind it. -/
theorem foundIn_oper {segs : List CString} (hne : s ≠ []) :
    foundIn s (w.oper :: segs) = if s = w.oper then some w.oper else foundIn s segs := by
  rw [foundIn, search_oper hne]
  split <;> rfl

/-- Of the parts of the text in front only the whole is found as given. -/
theorem xxx_as_given (h : s ∈ ["x".toList, "xx".toList, "xxx".toList]) :
    some "xxx".toList = some s ↔ s ≠ "x".toList ∧ s ≠ "xx".toList := by
  simp only [List.mem_cons, List.not_mem_nil, or_false] at h
  rcases h with rfl | rfl | rfl <;> decide

/-- The source is found as given. -/
theorem foundIn_src (hsrc : IsArg src) :
    foundIn src ["xxx".toList, w.oper, src, dst] = some src ↔
      src ≠ "x".toList ∧ src ≠ "xx".toList := by
  rw [foundIn_xxx hsrc.ne_nil]
  by_cases hxxx : src ∈ ["x".toList, "xx".toList, "xxx".toList]
  · rw [if_pos hxxx]
    exact xxx_as_given hxxx
  · have hself : foundIn src [src, dst] = some src := by
      rw [foundIn, search_of_prefix (List.prefix_refl src)]
      rfl
    rw [if_neg hxxx, foundIn_oper hsrc.ne_nil, hself]
    simp only [List.mem_cons, List.not_mem_nil, or_false, not_or] at hxxx
    refine iff_of_true ?_ ⟨hxxx.1, hxxx.2.1⟩
    split
    · next h => exact congrArg some h.symm
    · rfl

/-- The destination is found as given. -/
theorem foundIn_dst (hdst : IsArg dst) :
    foundIn dst ["xxx".toList, w.oper, src, dst] = some dst ↔
      (dst ≠ "x".toList ∧ dst ≠ "xx".toList) ∧
        (dst = "xxx".toList ∨ dst = w.oper ∨ ∀ pre post, src = pre ++ dst ++ post → post = []) := by
  rw [foundIn_xxx hdst.ne_nil, ← search_end_iff]
  by_cases hxxx : dst ∈ ["x".toList, "xx".toList, "xxx".toList]
  · rw [if_pos hxxx, xxx_as_given hxxx]
    refine (and_iff_left_of_imp fun h => .inl ?_).symm
    simp only [List.mem_cons, List.not_mem_nil, or_false] at hxxx
    exact (hxxx.resolve_left h.1).resolve_left h.2
  -- the text in front does not hold it: the letter of the operation and the source are next
  rw [if_neg hxxx, foundIn_oper hdst.ne_nil]
  simp only [List.mem_cons, List.not_mem_nil, or_false, not_or] at hxxx
  rw [and_iff_right ⟨hxxx.1, hxxx.2.1⟩, or_iff_right hxxx.2.2]
  by_cases hoper : dst = w.oper
  · rw [if_pos hoper]
    exact iff_of_true (congrArg some hoper.symm) (.inl hoper)
  · have hself : foundIn dst [dst] = some dst := by
      rw [foundIn, search_of_prefix (List.prefix_refl dst)]
      rfl
    rw [if_neg hoper, or_iff_right hoper, foundIn, hself]
    cases hsearch : search dst src with
    | none => exact iff_of_true rfl fun k hk => absurd hk.symm (Option.some_ne_none k)
    | some k =>
      rw [Option.elim, Option.some.injEq]
      exact ⟨fun h j hj => Option.some.inj hj ▸ h, fun h => h k rfl⟩

end Wrapper

/-- **The wrappers work on the files they were given** exactly when no path is found in the
wrong place. -/
theorem lzma_works_iff (w : LzmaWrapper) (src dst : CString) (hsrc : IsArg src) (hdst : IsArg dst)
    (hlen : (lzmaBuf w.oper src dst).length < 1024) :
    WorksOn w src dst ↔ FoundAsGiven w src dst := by
  have hoper : foundIn w.oper ["xxx".toList, w.oper, src, dst] = some w.oper := by
    rw [foundIn_xxx w.isArg_oper.ne_nil, if_neg (by cases w <;> decide),
      foundIn_oper w.isArg_oper.ne_nil, if_pos rfl]
  have hargs : lzmaArgs w src dst = some [some (stringAt (replaceChar '\x01' '\x00'
      (lzmaBuf w.oper src dst)) 0), some w.oper, foundIn src ["xxx".toList, w.oper, src, dst],
      foundIn dst ["xxx".toList, w.oper, src, dst]] := by
    rw [lzmaArgs, if_pos hlen, ← stringAt_strstr hsrc hsrc hdst, ← stringAt_strstr hdst hsrc hdst,
      ← hoper, ← stringAt_strstr w.isArg_oper hsrc hdst]
    rfl
  have hfound : WorksOn w src dst ↔ foundIn src ["xxx".toList, w.oper, src, dst] = some src ∧
      foundIn dst ["xxx".toList, w.oper, src, dst] = some dst := by
    rw [WorksOn, hargs]
    simp
  rw [hfound, foundIn_src hsrc, foundIn_dst hdst]
  exact ⟨fun h => ⟨h.1, h.2.1, h.2.2⟩, fun h => ⟨h.src_found, h.dst_found, h.apart⟩⟩

/-- The theorem at a file that is compressed beside itself. -/
theorem lzma_works_iff_beside : WorksOn .compress "/d/a".toList "/d/a.lzma".toList :=
  (lzma_works_iff .compress "/d/a".toList "/d/a.lzma".toList ⟨by decide, by decide, by decide⟩
    ⟨by decide, by decide, by decide⟩ (by decide)).mpr
    ⟨by decide, by decide, .inr (.inr fun pre post h => by
      have hlen := congrArg List.length h
      simp at hlen
      omega)⟩

/-- **A destination inside the source** is the source: unpacking `a.lzma` to `a` opens
`a.lzma` for writing. -/
theorem lzma_truncates_input : ¬∀ (w : LzmaWrapper) (src dst : CString), IsArg src → IsArg dst →
    (lzmaBuf w.oper src dst).length < 1024 → WorksOn w src dst := by
  intro h
  obtain ⟨name, hname⟩ := h .uncompress "a.lzma".toList "a".toList ⟨by decide, by decide, by decide⟩
    ⟨by decide, by decide, by decide⟩ (by decide)
  have hargs : lzmaArgs .uncompress "a.lzma".toList "a".toList = some [some "xxx".toList,
      some "d".toList, some "a.lzma".toList, some "a.lzma".toList] := by decide +kernel
  rw [hargs] at hname
  simp at hname

end Newiup
