import Newiup.Block
import Newiup.ServerList

/-!
# Splitting a string in memory

`str_split_func` counts the delimiters of the string, and then cuts a copy of it at each of
them.  The second pass stops at the last of the delimiters that were counted.

The copy is cut in place, so the pieces are never built: they are the strings at certain
positions of one block, each ended by the terminator that was written over its
delimiter.  That they are the pieces of the string is a statement about these positions,
and the two passes have to agree on them, in number and in place.

## Main definitions

* `InPlace.strSplitFunc` — the function, on the memory of the program.
* `startsAfter` — where the pieces start, and `cutAt`, what the copy becomes.
* `SplitOf`, `SplitsExactly` — the pieces are the ones of the string.

## Main results

* `InPlace.countLoop_eq`, `InPlace.cutLoop_eq` — what the two passes do.
* `text_startsAfter` — the copy holds the pieces where they start.
* `str_split_exact` — **splitting and joining are inverse.**
-/

namespace Newiup
namespace InPlace

/-! ### The function -/

/-- `struct str_split`. -/
structure StrSplit where
  /-- `count`. -/
  count : ℕ
  /-- `str`. -/
  str : Option Ptr
  /-- `str_array`, with the entries that have been written. -/
  strArray : Option (List (Option Ptr))
  deriving DecidableEq

/-- The pass over the input. -/
def countLoop (m : Mem Char) (delimiter : Char) (pchar : Ptr) (count : ℕ) : Checked ℕ :=
  match h : m.load pchar with
  | .done c =>
      if c = '\x00' then .done count
      else countLoop m delimiter (pchar.add 1) (if delimiter = c then count + 1 else count)
  | .failed => .failed
  | .outside => .outside
  termination_by m.room pchar
  decreasing_by exact Mem.room_add_lt h

/-- The pass over the copy, with the entry of the array at `ptr`. -/
def cutLoop (delimiter : Char) (m : Mem Char) (array : List (Option Ptr)) (ptr : ℕ) (pchar : Ptr)
    (count : ℕ) : Checked (Mem Char × List (Option Ptr)) :=
  match _h : m.load pchar with
  | .done c =>
      if c ≠ '\x00' ∧ 1 < count then
        if delimiter = c then
          match Checked.write array (ptr + 1) (some (pchar.add 1)), h' : m.store pchar '\x00' with
          | .done array', .done m' =>
              cutLoop delimiter m' array' (ptr + 1) (pchar.add 1) (count - 1)
          | _, _ => .outside
        else cutLoop delimiter m array ptr (pchar.add 1) count
      else .done (m, array)
  | .failed => .failed
  | .outside => .outside
  termination_by m.room pchar
  decreasing_by
    · rw [Mem.room_store h']
      exact Mem.room_add_lt _h
    · exact Mem.room_add_lt _h

/-- `str_split_func`, where `strdup` and `malloc` may fail. -/
def strSplitFunc (m : Mem Char) (src : Option Ptr) (delimiter : Char) (strdup malloc : Bool) :
    Checked (StrSplit × Mem Char) :=
  let split : StrSplit := ⟨0, none, none⟩ -- memset
  match src with
  | none => .done (split, m)
  | some src => do
      let c ← m.load src
      if c = '\x00' ∨ strdup = false then
        return (split, m)
      else
        let s ← m.text '\x00' src
        let str := (m.alloc (s ++ ['\x00'])).1
        let m := (m.alloc (s ++ ['\x00'])).2
        let count ← countLoop m delimiter src 1
        if malloc = false then
          return ({ split with str := some str }, m)
        else
          let array ← Checked.write (List.replicate count none) 0 (some str)
          let cut ← cutLoop delimiter m array 0 str count
          return (⟨count, some str, some cut.2⟩, cut.1)

end InPlace

/-! ### What it is for -/

/-- The pieces of `s` are stored in an array of `count` entries, in memory that has grown. -/
structure SplitOf (delimiter : Char) (s : CString) (m : Mem Char) (split : InPlace.StrSplit)
    (m' : Mem Char) : Prop where
  /-- `count`. -/
  count : split.count = 1 + s.count delimiter
  /-- Every entry of the array is written, and what the entries point to is joined to `s`. -/
  pieces : ∃ (ptrs : List Ptr) (pieces : List CString),
    split.strArray = some (ptrs.map some) ∧ ptrs.length = split.count ∧
    List.Forall₂ (fun p piece => m'.text '\x00' p = .done piece) ptrs pieces ∧
    (∀ piece ∈ pieces, delimiter ∉ piece) ∧ [delimiter].intercalate pieces = s
  /-- The blocks there were are unchanged. -/
  kept : m <+: m'

/-- **Splitting and joining are inverse**, for every string in the memory. -/
structure SplitsExactly (delimiter : Char) (m : Mem Char) : Prop where
  /-- A string that is not empty. -/
  splits {src : Ptr} {s : CString} : m.text '\x00' src = .done s → s ≠ [] →
    ∃ split m', InPlace.strSplitFunc m (some src) delimiter true true = .done (split, m') ∧
      SplitOf delimiter s m split m' ∧ m'.text '\x00' src = .done s
  /-- The empty string. -/
  empty {src : Ptr} (strdup malloc : Bool) : m.text '\x00' src = .done [] →
    ∃ split, InPlace.strSplitFunc m (some src) delimiter strdup malloc = .done (split, m) ∧
      split.count = 0
  /-- A null pointer. -/
  null (strdup malloc : Bool) :
    ∃ split, InPlace.strSplitFunc m none delimiter strdup malloc = .done (split, m) ∧
      split.count = 0

/-- Where the pieces behind the first one start, for a string at `n`.  They are the positions
behind the delimiters, and the length of the list is the number of delimiters. -/
def startsAfter (delimiter : Char) (n : ℕ) : CString → List ℕ
  | [] => []
  | c :: v =>
      if c = delimiter then (n + 1) :: startsAfter delimiter (n + 1) v
      else startsAfter delimiter (n + 1) v

/-- What the copy becomes. -/
def cutAt (delimiter : Char) (v : CString) : CString :=
  v.map fun c => if c = delimiter then '\x00' else c

section Split

variable {delimiter c : Char} {m m' : Mem Char} {array array' : List (Option Ptr)} {ptr count : ℕ}
  {pchar : Ptr} {s u v : CString}

theorem startsAfter_cons_self (n : ℕ) (v : CString) :
    startsAfter delimiter n (delimiter :: v) = (n + 1) :: startsAfter delimiter (n + 1) v :=
  if_pos rfl

theorem startsAfter_cons_of_ne (h : c ≠ delimiter) (n : ℕ) (v : CString) :
    startsAfter delimiter n (c :: v) = startsAfter delimiter (n + 1) v := if_neg h

theorem cutAt_cons_self (v : CString) :
    cutAt delimiter (delimiter :: v) = '\x00' :: cutAt delimiter v :=
  congrArg (· :: _) (if_pos rfl)

theorem cutAt_cons_of_ne (h : c ≠ delimiter) (v : CString) :
    cutAt delimiter (c :: v) = c :: cutAt delimiter v := congrArg (· :: _) (if_neg h)

@[simp] theorem length_startsAfter (delimiter : Char) (n : ℕ) (v : CString) :
    (startsAfter delimiter n v).length = v.count delimiter := by
  induction v generalizing n with
  | nil => rfl
  | cons c v ih =>
    by_cases hc : c = delimiter
    · rw [hc, startsAfter_cons_self, List.length_cons, ih, List.count_cons_self]
    · rw [startsAfter_cons_of_ne hc, ih, List.count_cons_of_ne hc]

theorem startsAfter_of_notMem (h : delimiter ∉ v) (n : ℕ) : startsAfter delimiter n v = [] := by
  rw [← List.length_eq_zero_iff, length_startsAfter]
  exact List.count_eq_zero.mpr h

theorem cutAt_of_notMem (h : delimiter ∉ v) : cutAt delimiter v = v := by
  refine (List.map_congr_left fun c hc => if_neg ?_).trans (List.map_id v)
  exact fun heq => h (heq ▸ hc)

/-! ### The two passes -/

namespace InPlace

theorem countLoop_of_load (h : m.load pchar = .done c) :
    countLoop m delimiter pchar count = if c = '\x00' then .done count
      else countLoop m delimiter (pchar.add 1) (if delimiter = c then count + 1 else count) := by
  rw [countLoop]
  split
  · next d hd =>
    obtain rfl : d = c := Checked.done.inj (hd.symm.trans h)
    rfl
  · next hd => rw [h] at hd; cases hd
  · next hd => rw [h] at hd; cases hd

/-- A character of the copy that is not cut away. -/
theorem cutLoop_of_load (h : m.load pchar = .done c) (hc : c ≠ delimiter ∨ count ≤ 1) :
    cutLoop delimiter m array ptr pchar count =
      if c ≠ '\x00' ∧ 1 < count then cutLoop delimiter m array ptr (pchar.add 1) count
      else .done (m, array) := by
  rw [cutLoop]
  split
  · next d hd =>
    obtain rfl : d = c := Checked.done.inj (hd.symm.trans h)
    split
    · next hgo =>
      have hne : delimiter ≠ d := fun heq => hc.elim (fun hne => hne heq.symm) (by omega)
      rw [if_neg hne]
    · rfl
  · next hd => rw [h] at hd; cases hd
  · next hd => rw [h] at hd; cases hd

/-- A delimiter of the copy. -/
theorem cutLoop_of_delimiter (h : m.load pchar = .done delimiter) (hd : delimiter ≠ '\x00')
    (hcount : 1 < count)
    (hw : Checked.write array (ptr + 1) (some (pchar.add 1)) = .done array')
    (hs : m.store pchar '\x00' = .done m') :
    cutLoop delimiter m array ptr pchar count =
      cutLoop delimiter m' array' (ptr + 1) (pchar.add 1) (count - 1) := by
  rw [cutLoop]
  split
  · next d hload =>
    obtain rfl : d = delimiter := Checked.done.inj (hload.symm.trans h)
    rw [if_pos ⟨hd, hcount⟩, if_pos rfl]
    split
    · next b m'' hw' hs' =>
      obtain rfl : array' = b := Checked.done.inj (hw.symm.trans hw')
      obtain rfl : m' = m'' := Checked.done.inj (hs.symm.trans hs')
      rfl
    · next hno => exact absurd hs (hno _ _ hw)
  · next hd' => rw [h] at hd'; cases hd'
  · next hd' => rw [h] at hd'; cases hd'

/-- **The first pass** counts the delimiters. -/
theorem countLoop_eq {k : ℕ} {w rest : CString} (hm : m[k]? = some (w ++ (s ++ '\x00' :: rest)))
    (hnul : '\x00' ∉ s) (count : ℕ) :
    countLoop m delimiter ⟨k, w.length⟩ count = .done (count + s.count delimiter) := by
  induction s generalizing w count with
  | nil =>
    have hload : m.load ⟨k, w.length⟩ = .done '\x00' := by
      rw [Mem.load, Checked.read_of_some hm]
      exact Block.load_mid _ _ _
    rw [countLoop_of_load hload, if_pos rfl]
    rfl
  | cons c s ih =>
    rw [List.mem_cons, not_or] at hnul
    have hload : m.load ⟨k, w.length⟩ = .done c := by
      rw [Mem.load, Checked.read_of_some hm]
      exact Block.load_mid _ _ _
    have hnext : m[k]? = some ((w ++ [c]) ++ (s ++ '\x00' :: rest)) := by rw [hm]; simp
    have hptr : Ptr.add ⟨k, w.length⟩ 1 = ⟨k, (w ++ [c]).length⟩ := by simp [Ptr.add]
    rw [countLoop_of_load hload, if_neg (Ne.symm hnul.1), hptr, ih hnext hnul.2]
    by_cases hc : delimiter = c
    · rw [if_pos hc, ← hc, List.count_cons_self]
      exact congrArg Checked.done (by omega)
    · rw [if_neg hc, List.count_cons_of_ne (Ne.symm hc)]

/-- The first entry of the array that has not been written. -/
theorem write_next {ptrs : List Ptr} {k : ℕ} (hptrs : ptrs.length = k) (p : Ptr) (n : ℕ) :
    Checked.write (ptrs.map some ++ List.replicate (n + 1) none) k (some p) =
      .done ((ptrs ++ [p]).map some ++ List.replicate n none) := by
  rw [Checked.write_of_lt (by simp [hptrs]), List.replicate_succ,
    List.set_append_right _ _ (by simp [hptrs])]
  simp [hptrs]

/-- **The second pass** cuts the copy at the delimiters that are left, and stores where the
pieces behind them start. -/
theorem cutLoop_eq {w : CString} {ptrs : List Ptr} (hd : delimiter ≠ '\x00')
    (hnul : '\x00' ∉ v) (hptrs : ptrs.length = ptr + 1) :
    cutLoop delimiter (m ++ [w ++ (v ++ ['\x00'])])
        (ptrs.map some ++ List.replicate (v.count delimiter) none) ptr ⟨m.length, w.length⟩
        (1 + v.count delimiter) =
      .done (m ++ [w ++ (cutAt delimiter v ++ ['\x00'])],
        (ptrs ++ (startsAfter delimiter w.length v).map (ptrTo m.length)).map some) := by
  -- `w` is what the loop has left behind it in the copy, cut already, and `v` what is in front
  induction v generalizing w ptrs ptr with
  | nil =>
    have hload := m.load_last w '\x00' []
    rw [List.nil_append, cutLoop_of_load hload (Or.inr (by simp)), if_neg (by simp)]
    simp [cutAt, startsAfter]
  | cons c v ih =>
    rw [List.mem_cons, not_or] at hnul
    have hload := m.load_last w c (v ++ ['\x00'])
    have hptr : Ptr.add ⟨m.length, w.length⟩ 1 = ⟨m.length, w.length + 1⟩ := rfl
    rw [List.cons_append]
    by_cases hc : c = delimiter
    · -- a piece ends here, and the next one starts behind it
      subst hc
      have hcount : 1 + (c :: v).count c - 1 = 1 + v.count c := by
        rw [List.count_cons_self]
        omega
      have hwrite := write_next hptrs ⟨m.length, w.length + 1⟩ (v.count c)
      rw [← List.count_cons_self] at hwrite
      have hih := @ih (ptr + 1) (w ++ ['\x00']) (ptrs ++ [⟨m.length, w.length + 1⟩]) hnul.2
        (by simp [hptrs])
      rw [List.append_assoc, List.append_assoc, List.singleton_append, List.singleton_append,
        List.length_append, List.length_singleton, List.append_assoc, List.singleton_append] at hih
      rw [cutLoop_of_delimiter hload hd (by rw [List.count_cons_self]; omega) hwrite
        (m.store_last w c '\x00' _), hcount, hptr, cutAt_cons_self, startsAfter_cons_self]
      exact hih
    · rw [cutLoop_of_load hload (Or.inl hc), List.count_cons_of_ne hc, cutAt_cons_of_ne hc,
        startsAfter_cons_of_ne hc]
      by_cases hmore : delimiter ∈ v
      · have hpos : 0 < v.count delimiter := List.count_pos_iff.mpr hmore
        have hih := @ih ptr (w ++ [c]) ptrs hnul.2 hptrs
        rw [List.append_assoc, List.append_assoc, List.singleton_append, List.singleton_append,
          List.length_append, List.length_singleton] at hih
        rw [if_pos ⟨Ne.symm hnul.1, by omega⟩, hptr]
        exact hih
      · -- the last delimiter has been cut, and the loop stops
        rw [List.count_eq_zero.mpr hmore, if_neg (by simp), cutAt_of_notMem hmore,
          startsAfter_of_notMem hmore]
        simp

end InPlace

/-- **The copy holds the pieces** where they start. -/
theorem text_startsAfter (hd : delimiter ≠ '\x00') (hnul : '\x00' ∉ s) (w : CString) :
    List.Forall₂
      (fun n piece =>
        Block.text '\x00' (w ++ (cutAt delimiter s ++ ['\x00'])) (n : ℕ) = .done piece)
      (w.length :: startsAfter delimiter w.length s) (s.splitOn delimiter) := by
  induction s generalizing w with
  | nil => exact .cons (Block.text_mid w List.not_mem_nil []) .nil
  | cons c s ih =>
    rw [List.mem_cons, not_or] at hnul
    rw [List.splitOn_cons_eq_if_modifyHead]
    by_cases hc : c = delimiter
    · subst hc
      have hih := ih hnul.2 (w ++ ['\x00'])
      rw [List.append_assoc, List.singleton_append, List.length_append,
        List.length_singleton] at hih
      rw [cutAt_cons_self, startsAfter_cons_self, if_pos (beq_self_eq_true c)]
      exact .cons (Block.text_mid w List.not_mem_nil _) hih
    · have hih := ih hnul.2 (w ++ [c])
      rw [List.append_assoc, List.singleton_append, List.length_append,
        List.length_singleton] at hih
      rw [cutAt_cons_of_ne hc, startsAfter_cons_of_ne hc, if_neg (by simpa using hc)]
      -- the first piece begins one character earlier
      cases hsplit : s.splitOn delimiter with
      | nil => exact absurd hsplit (List.splitOn_ne_nil _ _)
      | cons piece pieces =>
        rw [hsplit] at hih
        obtain ⟨hhead, htail⟩ := List.forall₂_cons.mp hih
        exact .cons (Block.text_cons (Ne.symm hnul.1) hhead) htail

/-! ### The function -/

/-- No piece has a delimiter. -/
theorem notMem_of_mem_splitOn {piece : CString} (h : piece ∈ s.splitOn delimiter) :
    delimiter ∉ piece := by
  induction s generalizing piece with
  | nil =>
    rw [List.splitOn_nil, List.mem_singleton] at h
    rw [h]
    exact List.not_mem_nil
  | cons c s ih =>
    rw [List.splitOn_cons_eq_if_modifyHead] at h
    by_cases hc : c = delimiter
    · rw [if_pos (by simpa using hc), List.mem_cons] at h
      rcases h with rfl | h
      · exact List.not_mem_nil
      · exact ih h
    · rw [if_neg (by simpa using hc)] at h
      cases hsplit : s.splitOn delimiter with
      | nil => exact absurd hsplit (List.splitOn_ne_nil _ _)
      | cons first pieces =>
        rw [hsplit, List.modifyHead_cons, List.mem_cons] at h
        rcases h with rfl | h
        · rw [List.mem_cons, not_or]
          exact ⟨Ne.symm hc, ih (by rw [hsplit]; exact List.mem_cons_self)⟩
        · exact ih (by rw [hsplit]; exact List.mem_cons_of_mem _ h)

/-- **The function yields the pieces of a string** that is not empty. -/
theorem InPlace.strSplitFunc_eq {src : Ptr} (hd : delimiter ≠ '\x00')
    (hs : m.text '\x00' src = .done s) (hne : s ≠ []) :
    InPlace.strSplitFunc m (some src) delimiter true true =
      .done (⟨1 + s.count delimiter, some ⟨m.length, 0⟩,
          some (((0 :: startsAfter delimiter 0 s).map (ptrTo m.length)).map some)⟩,
        m ++ [cutAt delimiter s ++ ['\x00']]) := by
  obtain ⟨u, v, hb, hoff, hnul⟩ := Mem.eq_of_text hs
  obtain ⟨c, t, rfl⟩ := List.exists_cons_of_ne_nil hne
  have hsrc : src = ⟨src.block, u.length⟩ := by rw [← hoff]
  have hload : m.load src = .done c := by
    rw [Mem.load, Checked.read_of_some hb, Checked.done_bind, hoff]
    exact Block.load_mid _ _ _
  have hc : c ≠ '\x00' := fun h => hnul (h ▸ List.mem_cons_self)
  -- the input is read in the memory with the copy
  have hb' : (m ++ [c :: t ++ ['\x00']])[src.block]? = some (u ++ (c :: t ++ '\x00' :: v)) := by
    obtain ⟨hlt, -⟩ := List.getElem?_eq_some_iff.mp hb
    rw [List.getElem?_append_left hlt, hb]
  have hcount := @countLoop_eq delimiter _ _ _ u v hb' hnul 1
  have hcut := @cutLoop_eq delimiter m 0 (c :: t) [] [⟨m.length, 0⟩] hd hnul rfl
  have hwrite := @write_next [] 0 rfl ⟨m.length, 0⟩ ((c :: t).count delimiter)
  rw [List.map_nil, List.nil_append, List.nil_append, Nat.add_comm] at hwrite
  rw [strSplitFunc]
  simp only [Checked.bind_eq, Mem.alloc]
  rw [hload, Checked.done_bind, if_neg (by simp [hc]), hs, Checked.done_bind, hsrc, hcount,
    Checked.done_bind, if_neg (by decide), hwrite, Checked.done_bind]
  refine (congrArg (Checked.bind · _) hcut).trans ?_
  rfl

/-- The function stores what `Newiup.strSplitFunc` returns, in a block of its own. -/
theorem InPlace.strSplitFunc_refines {src : Ptr} (hd : delimiter ≠ '\x00')
    (hs : m.text '\x00' src = .done s) (hne : s ≠ []) :
    ∃ split b ptrs,
      InPlace.strSplitFunc m (some src) delimiter true true = .done (split, m ++ [b]) ∧
      split.count = (Newiup.strSplitFunc (some s) delimiter).count ∧
      split.strArray = some (ptrs.map some) ∧
      List.Forall₂ (fun p piece => (m ++ [b]).text '\x00' p = .done piece) ptrs
        (Newiup.strSplitFunc (some s) delimiter).strArray := by
  obtain ⟨u, v, -, -, hnul⟩ := Mem.eq_of_text hs
  have hpure : Newiup.strSplitFunc (some s) delimiter =
      ⟨s.count delimiter + 1, s.splitOn delimiter⟩ := by
    cases s with
    | nil => exact absurd rfl hne
    | cons c s => rfl
  rw [hpure]
  refine ⟨_, _, _, InPlace.strSplitFunc_eq hd hs hne, Nat.add_comm _ _, rfl, ?_⟩
  rw [List.forall₂_map_left_iff]
  refine (text_startsAfter hd hnul []).imp fun n piece h => ?_
  rw [Mem.text_last]
  exact h

/-- **Splitting and joining are inverse.**  The pieces are read where the pointers of the array
lead, in the copy whose delimiters have been overwritten; the caller's own string stays as it
is. -/
theorem str_split_exact (delimiter : Char) (hd : delimiter ≠ '\x00') (m : Mem Char) :
    SplitsExactly delimiter m where
  splits := fun {src s} hs hne => by
    obtain ⟨split, b, ptrs, hrun, hcount, harray, hall⟩ := InPlace.strSplitFunc_refines hd hs hne
    have hlen := length_strArray (some s) delimiter
    obtain ⟨c, t, rfl⟩ := List.exists_cons_of_ne_nil hne
    refine ⟨split, _, hrun, ⟨hcount.trans (Nat.add_comm _ _), ?_, List.prefix_append _ _⟩,
      Mem.text_append hs _⟩
    exact ⟨ptrs, _, harray, by rw [hall.length_eq, hlen, hcount], hall,
      fun piece => notMem_of_mem_splitOn, List.intercalate_splitOn _⟩
  empty := fun {src} strdup malloc hs => by
    obtain ⟨u, v, hb, hoff, -⟩ := Mem.eq_of_text hs
    have hload : m.load src = .done '\x00' := by
      rw [Mem.load, Checked.read_of_some hb, Checked.done_bind, hoff]
      exact Block.load_mid _ _ _
    refine ⟨⟨0, none, none⟩, ?_, rfl⟩
    rw [InPlace.strSplitFunc, Checked.bind_eq, hload, Checked.done_bind, if_pos (Or.inl rfl)]
    rfl
  null := fun strdup malloc => ⟨_, rfl, rfl⟩

/-- The theorem at a comma, in a memory with one string. -/
theorem str_split_exact_comma : SplitsExactly ',' ["a,,b".toList ++ ['\x00']] :=
  str_split_exact ',' (by decide) _

end Split
end Newiup
