import Newiup.Fs
import Newiup.Block
import Mathlib.Data.List.DropRight

/-!
# Trimming a string

`clean_string` looks at every character twice.  The first scan moves `start` over a blank
that stands behind it, and the second one, from the other end, moves `end` over a blank
that stands in front of it.

The string is looked at where it lies, in a block of memory whose accesses are
checked.  So it is part of the result that neither scan reads in front of the block or
behind the terminator, also where the string is empty or consists of blanks, and that what
stands in the block behind the terminator is left alone.

## Main definitions

* `cleanString` — the function on the block of the string.
* `trimmed` — the string without the blanks at its ends.
* `TrimsExactly` — the function leaves that string, inside the block.

## Main results

* `scanFront_eq`, `scanBack_eq` — where the two scans stop.
* `clean_string_trims` — **`clean_string` trims exactly.**
-/

namespace Newiup

/-! ### The function -/

/-- `case ' ': case '\r': case '\n':`. -/
def isBlank (c : Char) : Bool := c == ' ' || c == '\r' || c == '\n'

/-- The first loop, with `start` and `p`. -/
def scanFront (str : CString) (start p : ℤ) : Checked (ℤ × ℤ) :=
  match h : Block.load str p with
  | .done c =>
      if c = '\x00' then .done (start, p)
      else scanFront str (if isBlank c = true ∧ start + 1 = p then p else start) (p + 1)
  | .failed => .failed
  | .outside => .outside
  termination_by (str.length - p).toNat
  decreasing_by
    have hlt := Block.lt_of_load h
    omega

/-- The second loop, with `p` and `end`. -/
def scanBack (str : CString) (start p stop : ℤ) : Checked ℤ :=
  if _h : start < p then
    (Block.load str p).bind fun c =>
      scanBack str start (p - 1) (if isBlank c = true ∧ stop - 1 = p then p else stop)
  else .done stop
  termination_by (p - start).toNat

/-- `clean_string`: the result, and the block of the string. -/
def cleanString : Option CString → Checked (ℤ × Option CString)
  | none => .done (0, none)
  | some str => do
      let scanned ← scanFront str (-1) 0
      let p := scanned.2 - 1
      let start := scanned.1 + 1
      let c ← Block.load str start
      if c = '\x00' then
        -- nothing but blanks
        let str ← Block.store str 0 '\x00'
        return (0, some str)
      else
        let stop ← scanBack str start p (p + 1)
        let str ← Block.move str 0 start (stop - start)
        let str ← Block.store str (stop - start) '\x00'
        return (stop - start, some str)

/-! ### What it is for -/

/-- The string without its longest prefix and its longest suffix of blanks. -/
def trimmed (s : CString) : CString := (s.dropWhile isBlank).rdropWhile isBlank

/-- **The function trims exactly.**  What stands in the block behind the terminator is
arbitrary and stays; where nothing does, an access outside the string and its terminator
would be one outside the block. -/
structure TrimsExactly (s : CString) : Prop where
  /-- The string that is left, and its length. -/
  trims : ∃ junk, ∀ rest, cleanString (some (s ++ '\x00' :: rest)) =
    .done ((trimmed s).length, some (trimmed s ++ '\x00' :: (junk ++ rest)))
  /-- Applied again it changes nothing. -/
  again : ∀ rest, cleanString (some (trimmed s ++ '\x00' :: rest)) =
    .done ((trimmed s).length, some (trimmed s ++ '\x00' :: rest))

/-! ### The scans -/

section Scans

variable {str s u v w : CString} {c : Char} {start p stop : ℤ}

theorem scanFront_of_load (h : Block.load str p = .done c) :
    scanFront str start p = if c = '\x00' then .done (start, p)
      else scanFront str (if isBlank c = true ∧ start + 1 = p then p else start) (p + 1) := by
  rw [scanFront]
  split
  · next d hd =>
    obtain rfl : d = c := Checked.done.inj (hd.symm.trans h)
    rfl
  · next hd => rw [h] at hd; cases hd
  · next hd => rw [h] at hd; cases hd

/-- The blanks at the front of a string that grows at its end. -/
theorem length_takeWhile_concat (u : CString) (c : Char) :
    ((u ++ [c]).takeWhile isBlank).length =
      if isBlank c = true ∧ (u.takeWhile isBlank).length = u.length then u.length + 1
      else (u.takeWhile isBlank).length := by
  rw [List.takeWhile_append]
  by_cases hu : (u.takeWhile isBlank).length = u.length
  · rw [if_pos hu]
    cases hc : isBlank c with
    | true => simp [hc, hu]
    | false => simp [hc, hu]
  · rw [if_neg hu, if_neg fun h => hu h.2]

/-- **The first scan** stops at the terminator, with `start` in front of the first character
that is not blank. -/
theorem scanFront_eq (hnul : '\x00' ∉ v) (hstart : start + 1 = (u.takeWhile isBlank).length)
    (rest : CString) : scanFront (u ++ (v ++ '\x00' :: rest)) start u.length =
      .done (((u ++ v).takeWhile isBlank).length - 1, (u ++ v).length) := by
  induction v generalizing u start with
  | nil =>
    rw [List.nil_append, scanFront_of_load (Block.load_mid _ _ _), if_pos rfl, List.append_nil]
    refine congrArg Checked.done (Prod.ext ?_ rfl)
    show start = _
    omega
  | cons c v ih =>
    rw [List.mem_cons, not_or] at hnul
    rw [List.cons_append, scanFront_of_load (Block.load_mid _ _ _), if_neg (Ne.symm hnul.1)]
    -- the character joins what has been scanned
    have hsplit : u ++ c :: (v ++ '\x00' :: rest) = (u ++ [c]) ++ (v ++ '\x00' :: rest) := by simp
    have hlen : (u.length : ℤ) + 1 = ((u ++ [c]).length : ℕ) := by simp
    rw [hsplit, hlen, ih hnul.2 _]
    · simp
    · rw [length_takeWhile_concat]
      by_cases hc : isBlank c = true ∧ (u.takeWhile isBlank).length = u.length
      · rw [if_pos hc, if_pos ⟨hc.1, by omega⟩]
        push_cast
        rfl
      · rw [if_neg hc, if_neg fun h => hc ⟨h.1, by omega⟩, hstart]

/-- The blanks at the end of a string that grows at its front. -/
theorem length_rdropWhile_cons (c : Char) (v : CString) :
    ((c :: v).rdropWhile isBlank).length =
      if isBlank c = true ∧ (v.rdropWhile isBlank).length = 0 then 0
      else (v.rdropWhile isBlank).length + 1 := by
  rw [List.rdropWhile, List.rdropWhile, List.reverse_cons, List.dropWhile_append,
    List.length_reverse, List.length_reverse]
  cases hv : v.reverse.dropWhile isBlank with
  | nil =>
    cases hc : isBlank c with
    | true => simp [hc]
    | false => simp [hc]
  | cons d ds => simp

/-- **The second scan** stops at `start`, with `end` behind the last character that is not
blank. -/
theorem scanBack_eq (hp : p + 1 = w.length + u.length) (hstart : start + 1 = w.length)
    (hstop : stop = p + 1 + (v.rdropWhile isBlank).length) (rest : CString) :
    scanBack (w ++ (u ++ (v ++ rest))) start p stop =
      .done (w.length + ((u ++ v).rdropWhile isBlank).length) := by
  induction u using List.reverseRecOn generalizing p stop v with
  | nil =>
    rw [scanBack, dif_neg (by rw [List.length_nil] at hp; omega)]
    refine congrArg Checked.done ?_
    rw [List.length_nil] at hp
    rw [List.nil_append]
    omega
  | append_singleton u c ih =>
    rw [List.length_append, List.length_singleton] at hp
    -- the character is the next one from the end
    have hsplit : w ++ ((u ++ [c]) ++ (v ++ rest)) = (w ++ u) ++ c :: (v ++ rest) := by simp
    have hpos : p = ((w ++ u).length : ℕ) := by rw [List.length_append]; omega
    have hload : Block.load (w ++ ((u ++ [c]) ++ (v ++ rest))) p = .done c := by
      rw [hsplit, hpos]
      exact Block.load_mid _ _ _
    have hnext : w ++ ((u ++ [c]) ++ (v ++ rest)) = w ++ (u ++ ((c :: v) ++ rest)) := by simp
    rw [scanBack, dif_pos (by omega), hload, Checked.done_bind, hnext]
    rw [ih (by omega) _]
    · simp
    · rw [length_rdropWhile_cons]
      by_cases hc : isBlank c = true ∧ (v.rdropWhile isBlank).length = 0
      · rw [if_pos hc, if_pos ⟨hc.1, by omega⟩]
        push_cast
        omega
      · rw [if_neg hc, if_neg fun h => hc ⟨h.1, by omega⟩, hstop]
        push_cast
        omega

end Scans

/-! ### The string that is left -/

section Left

variable {s rest : CString}

theorem length_trimmed_le (s : CString) : (trimmed s).length ≤ s.length :=
  ((List.rdropWhile_prefix _ _).length_le).trans (List.dropWhile_suffix _).length_le

/-- What is trimmed begins and ends with a character that is not blank. -/
theorem trimmed_trimmed (s : CString) : trimmed (trimmed s) = trimmed s := by
  have hfront : (trimmed s).dropWhile isBlank = trimmed s := by
    rw [List.dropWhile_eq_self_iff]
    intro hlen
    have hpre : trimmed s <+: s.dropWhile isBlank := List.rdropWhile_prefix _ _
    have hpos : 0 < (s.dropWhile isBlank).length := hlen.trans_le hpre.length_le
    rw [hpre.getElem hlen]
    exact List.dropWhile_get_zero_not _ _ hpos
  calc trimmed (trimmed s) = (trimmed s).rdropWhile isBlank := by rw [trimmed, hfront]
    _ = trimmed s := List.rdropWhile_idempotent _ _

/-- The terminator behind what is left. -/
theorem store_terminator {t b : CString} (hlt : t.length < b.length) :
    Block.store (t ++ b.drop t.length) t.length '\x00' =
      .done (t ++ '\x00' :: b.drop (t.length + 1)) := by
  rw [List.drop_eq_getElem_cons hlt, Block.store_mid]

theorem drop_rest {t s : CString} (hle : t.length ≤ s.length) (rest : CString) :
    (s ++ '\x00' :: rest).drop (t.length + 1) = (s ++ ['\x00']).drop (t.length + 1) ++ rest := by
  have hsplit : s ++ '\x00' :: rest = (s ++ ['\x00']) ++ rest := by simp
  rw [hsplit, List.drop_append_of_le_length (by simpa using hle)]

/-- Where `start` stands after the first scan. -/
theorem scanFront_start (hnul : '\x00' ∉ s) (rest : CString) :
    scanFront (s ++ '\x00' :: rest) (-1) 0 =
      .done (((s.takeWhile isBlank).length : ℤ) - 1, s.length) :=
  scanFront_eq (u := []) hnul rfl rest

/-- A string of blanks. -/
theorem cleanString_blank (hnul : '\x00' ∉ s) (hs : s.dropWhile isBlank = []) (rest : CString) :
    cleanString (some (s ++ '\x00' :: rest)) =
      .done (0, some ('\x00' :: ((s ++ ['\x00']).drop 1 ++ rest))) := by
  have hall : s.takeWhile isBlank = s := by
    have h := List.takeWhile_append_dropWhile (p := isBlank) (l := s)
    rwa [hs, List.append_nil] at h
  rw [cleanString]
  simp only [Checked.bind_eq]
  rw [scanFront_start hnul, Checked.done_bind, hall]
  have hstart : (s.length : ℤ) - 1 + 1 = s.length := by omega
  simp only [hstart]
  rw [Block.load_mid, Checked.done_bind, if_pos rfl]
  have hstore := @store_terminator [] (s ++ '\x00' :: rest) (by simp)
  rw [List.nil_append, List.length_nil, Nat.cast_zero, List.drop_zero, Nat.zero_add] at hstore
  have hdrop := drop_rest (t := []) (Nat.zero_le s.length) rest
  rw [List.length_nil, Nat.zero_add] at hdrop
  rw [hstore, Checked.done_bind, hdrop]
  rfl

/-- Where `end` stands after the second scan, for a string that is not blank from `c` on. -/
theorem scanBack_stop {pre u : CString} {c : Char} (hc : isBlank c = false) (rest : CString) :
    scanBack (pre ++ c :: u ++ rest) pre.length
        (((pre ++ c :: u).length : ℤ) - 1) (((pre ++ c :: u).length : ℤ) - 1 + 1) =
      .done (pre.length + ((c :: u).rdropWhile isBlank).length) := by
  have hblock : pre ++ c :: u ++ rest = (pre ++ [c]) ++ (u ++ ([] ++ rest)) := by simp
  have hlen : ((c :: u).rdropWhile isBlank).length = (u.rdropWhile isBlank).length + 1 := by
    rw [length_rdropWhile_cons, if_neg fun h => Bool.false_ne_true (hc.symm.trans h.1)]
  rw [hblock, scanBack_eq (by simp; omega) (by simp) (by simp)]
  refine congrArg Checked.done ?_
  rw [List.append_nil, hlen, List.length_append, List.length_singleton]
  push_cast
  omega

/-- What is between `start` and `end` is moved to the front. -/
theorem move_trimmed {pre d : CString} (rest : CString) :
    Block.move (pre ++ d ++ rest) 0 pre.length (d.rdropWhile isBlank).length =
      .done (d.rdropWhile isBlank ++ (pre ++ d ++ rest).drop (d.rdropWhile isBlank).length) := by
  obtain ⟨post, hpost⟩ := List.rdropWhile_prefix isBlank d
  have hblock : pre ++ d ++ rest = pre ++ d.rdropWhile isBlank ++ (post ++ rest) := by
    conv_lhs => rw [← hpost]
    simp
  rw [hblock]
  exact Block.move_front _ _ _

/-- A string with a character that is not blank. -/
theorem cleanString_nonblank {c : Char} {u : CString} (hnul : '\x00' ∉ s)
    (hs : s.dropWhile isBlank = c :: u) (rest : CString) :
    cleanString (some (s ++ '\x00' :: rest)) =
      .done ((trimmed s).length,
        some (trimmed s ++ '\x00' :: ((s ++ ['\x00']).drop ((trimmed s).length + 1) ++ rest))) := by
  set pre := s.takeWhile isBlank with hpre
  have hsplit : pre ++ c :: u = s := by rw [hpre, ← hs, List.takeWhile_append_dropWhile]
  have hc : isBlank c = false := by
    have h := List.head?_dropWhile_not isBlank s
    rw [hs] at h
    simpa using h
  have hcnul : c ≠ '\x00' := fun h => hnul (by rw [← hsplit, h]; simp)
  have ht : (c :: u).rdropWhile isBlank = trimmed s := by rw [trimmed, hs]
  -- `start` stands on the last blank of the front, one before the buffer where there is none
  have hstart : (pre.length : ℤ) - 1 + 1 = pre.length := by omega
  have hload : Block.load (s ++ '\x00' :: rest) pre.length = .done c := by
    rw [← hsplit, List.append_assoc, List.cons_append]
    exact Block.load_mid _ _ _
  -- the scan from the end stops at `c` at the latest, behind `start`
  have hback := @scanBack_stop pre u c hc ('\x00' :: rest)
  have hmove := @move_trimmed pre (c :: u) ('\x00' :: rest)
  rw [hsplit, ht] at hback hmove
  have hsize : (pre.length : ℤ) + (trimmed s).length - pre.length = (trimmed s).length := by omega
  have hle := length_trimmed_le s
  rw [cleanString]
  simp only [Checked.bind_eq]
  rw [scanFront_start hnul, Checked.done_bind, ← hpre]
  simp only [hstart]
  rw [hload, Checked.done_bind, if_neg hcnul, hback, Checked.done_bind, hsize, hmove,
    Checked.done_bind, store_terminator (by simp; omega), Checked.done_bind, drop_rest hle]
  rfl

/-- **The function leaves the trimmed string** and its terminator at the front of the block. -/
theorem cleanString_eq (hnul : '\x00' ∉ s) (rest : CString) :
    cleanString (some (s ++ '\x00' :: rest)) =
      .done ((trimmed s).length,
        some (trimmed s ++ '\x00' :: ((s ++ ['\x00']).drop ((trimmed s).length + 1) ++ rest))) := by
  cases hs : s.dropWhile isBlank with
  | nil =>
    have ht : trimmed s = [] := by rw [trimmed, hs, List.rdropWhile_nil]
    rw [ht]
    exact cleanString_blank hnul hs rest
  | cons c u => exact cleanString_nonblank hnul hs rest

/-- **`clean_string` trims exactly.**  The loops run on the block that holds the string, with
each access checked; that a trimmed string stays as it is when it is trimmed again is the
second part. -/
theorem clean_string_trims (s : CString) (hnul : '\x00' ∉ s) : TrimsExactly s where
  trims := ⟨_, cleanString_eq hnul⟩
  again := fun rest => by
    have hsub : '\x00' ∉ trimmed s := fun h => hnul
      ((List.dropWhile_suffix _).subset ((List.rdropWhile_prefix _ _).subset h))
    rw [cleanString_eq hsub, trimmed_trimmed, List.drop_of_length_le (by simp), List.nil_append]

/-- The theorem at a string with blanks at both ends and inside. -/
theorem clean_string_trims_inner : TrimsExactly " a b\r\n".toList :=
  clean_string_trims _ (by decide)

end Left
end Newiup
