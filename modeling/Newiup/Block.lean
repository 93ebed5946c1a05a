import Newiup.Checked
import Mathlib.Data.Int.Basic
import Mathlib.Data.List.TakeWhile
import Mathlib.Tactic

/-!
# Blocks of memory

A block is the list of what it holds, a pointer into it an integer, so that it may also
stand in front of the block.  Every access is checked.

A function that gets to its end has therefore made no access outside of its blocks, and
this is proved with whatever else is proved of it.  Strings are read off the block: to
write a terminator is to change the string at every pointer in front of it, and to take it
away changes it back.

## Main definitions

* `Block.load`, `Block.store`, `Block.move` — the accesses of a block.
* `Block.text` — the string at a pointer, up to a terminator.
* `Block.loadWord` — the number at a pointer, in four bytes.
* `Mem` — several blocks, with pointers that name the one they point into.

## Main results

* `Block.load_mid`, `Block.store_mid` — **an access in the middle of a block.**
* `Mem.load_last`, `Mem.store_last` — the same in the block that was allocated last.
-/

namespace Newiup

variable {α : Type}

/-! ### One block -/

namespace Block

/-- `*p`. -/
def load (b : List α) (p : ℤ) : Checked α :=
  if 0 ≤ p then Checked.read b p.toNat else .outside

/-- `*p = x`. -/
def store (b : List α) (p : ℤ) (x : α) : Checked (List α) :=
  if 0 ≤ p then Checked.write b p.toNat x else .outside

/-- `memmove(dst, src, n)` inside a block. -/
def move (b : List α) (dst src n : ℤ) : Checked (List α) :=
  if 0 ≤ dst ∧ 0 ≤ src ∧ 0 ≤ n ∧ dst + n ≤ b.length ∧ src + n ≤ b.length then
    .done (b.take dst.toNat ++ (b.drop src.toNat).take n.toNat ++ b.drop (dst + n).toNat)
  else .outside

theorem load_natCast (b : List α) (n : ℕ) : load b n = Checked.read b n := if_pos n.cast_nonneg

theorem store_natCast (b : List α) (n : ℕ) (x : α) : store b n x = Checked.write b n x :=
  if_pos n.cast_nonneg

/-- **A read in the middle of a block.** -/
theorem load_mid (u : List α) (x : α) (v : List α) : load (u ++ x :: v) u.length = .done x := by
  rw [load_natCast]
  exact Checked.read_of_some (by simp)

/-- **A write in the middle of a block.** -/
theorem store_mid (u : List α) (x y : α) (v : List α) :
    store (u ++ x :: v) u.length y = .done (u ++ y :: v) := by
  rw [store_natCast, Checked.write_of_lt (by simp)]
  simp

/-- What is read stands in the block. -/
theorem lt_of_load {b : List α} {p : ℤ} {x : α} (h : load b p = .done x) :
    0 ≤ p ∧ p < b.length := by
  rw [load] at h
  split at h
  · next hp =>
    cases hx : b[p.toNat]? with
    | none => rw [Checked.read_of_none hx] at h; cases h
    | some y =>
      obtain ⟨hlt, -⟩ := List.getElem?_eq_some_iff.mp hx
      exact ⟨hp, by omega⟩
  · cases h

/-- A string is moved to the front of its block. -/
theorem move_front (u t v : List α) :
    move (u ++ t ++ v) 0 u.length t.length = .done (t ++ (u ++ t ++ v).drop t.length) := by
  rw [move, if_pos ⟨le_rfl, by omega, by omega, by simp; omega, by simp⟩]
  simp

variable [DecidableEq α]

/-- The string at a pointer: it ends in front of the first terminator. -/
def text (nul : α) (b : List α) (p : ℤ) : Checked (List α) :=
  if 0 ≤ p ∧ nul ∈ b.drop p.toNat then .done ((b.drop p.toNat).takeWhile (· ≠ nul)) else .outside

theorem takeWhile_text {nul : α} {s : List α} (hs : nul ∉ s) (v : List α) :
    (s ++ nul :: v).takeWhile (· ≠ nul) = s := by
  rw [List.takeWhile_append_of_pos fun x hx => by simpa using fun h : x = nul => hs (h ▸ hx)]
  simp

/-- **A string in the middle of a block.** -/
theorem text_mid {nul : α} (u : List α) {s : List α} (hs : nul ∉ s) (v : List α) :
    text nul (u ++ (s ++ nul :: v)) u.length = .done s := by
  rw [text, Int.toNat_natCast, List.drop_left, if_pos ⟨by omega, by simp⟩, takeWhile_text hs]

/-- What a string in a block is. -/
theorem eq_of_text {nul : α} {b s : List α} {p : ℤ} (h : text nul b p = .done s) :
    ∃ u v, b = u ++ (s ++ nul :: v) ∧ p = u.length ∧ nul ∉ s := by
  rw [text] at h
  split at h
  · next hp =>
    obtain ⟨t, v, ht, hnul⟩ := List.eq_append_cons_of_mem hp.2
    rw [ht, takeWhile_text hnul] at h
    obtain rfl : t = s := Checked.done.inj h
    have hlt : p.toNat < b.length := by
      by_contra hge
      rw [List.drop_of_length_le (by omega)] at ht
      exact absurd ht (by simp)
    refine ⟨b.take p.toNat, v, ?_, ?_, hnul⟩
    · rw [← ht, List.take_append_drop]
    · rw [List.length_take]
      omega
  · cases h

/-- A character in front of a string. -/
theorem text_cons {nul : α} {u v t : List α} {x : α} (hx : x ≠ nul)
    (h : text nul (u ++ x :: v) (u.length + 1 : ℕ) = .done t) :
    text nul (u ++ x :: v) u.length = .done (x :: t) := by
  have hsplit : u ++ x :: v = (u ++ [x]) ++ v := by simp
  have hlen : u.length + 1 = (u ++ [x]).length := by simp
  rw [text, hlen, hsplit, Int.toNat_natCast, List.drop_left] at h
  split at h
  · next hv =>
    rw [text, Int.toNat_natCast, List.drop_left, if_pos ⟨by omega, List.mem_cons_of_mem _ hv.2⟩,
      List.takeWhile_cons_of_pos (by simpa using hx), Checked.done.inj h]
  · cases h

/-- A string at the front of a block. -/
theorem text_front {nul : α} {s : List α} (hs : nul ∉ s) (v : List α) :
    text nul (s ++ nul :: v) 0 = .done s := text_mid [] hs v

/-! ### Numbers -/

/-- The four bytes of a number, the lowest first. -/
def wordBytes (n : ℕ) : List UInt8 :=
  [.ofNat n, .ofNat (n / 0x100), .ofNat (n / 0x10000), .ofNat (n / 0x1000000)]

@[simp] theorem length_wordBytes (n : ℕ) : (wordBytes n).length = 4 := rfl

/-- The number of four bytes at a pointer. -/
def loadWord (b : List UInt8) (p : ℤ) : Checked ℕ := do
  let x₀ ← load b p
  let x₁ ← load b (p + 1)
  let x₂ ← load b (p + 2)
  let x₃ ← load b (p + 3)
  return x₀.toNat + 0x100 * x₁.toNat + 0x10000 * x₂.toNat + 0x1000000 * x₃.toNat

/-- **A number in the middle of a block.** -/
theorem loadWord_mid (u : List UInt8) {n : ℕ} (hn : n < 2 ^ 32) (v : List UInt8) {p : ℤ}
    (hp : p = u.length) : loadWord (u ++ (wordBytes n ++ v)) p = .done n := by
  have hload : ∀ (k : ℕ) (x : UInt8), (wordBytes n)[k]? = some x →
      load (u ++ (wordBytes n ++ v)) (p + k) = .done x := by
    intro k x hk
    rw [hp, ← Nat.cast_add, load_natCast]
    refine Checked.read_of_some ?_
    obtain ⟨hlt, -⟩ := List.getElem?_eq_some_iff.mp hk
    rw [List.getElem?_append_right (by omega), Nat.add_sub_cancel_left,
      List.getElem?_append_left hlt, hk]
  have h₀ := hload 0 _ rfl
  have h₁ := hload 1 _ rfl
  have h₂ := hload 2 _ rfl
  have h₃ := hload 3 _ rfl
  rw [Nat.cast_zero, add_zero] at h₀
  rw [loadWord]
  simp only [Checked.bind_eq]
  rw [h₀, Checked.done_bind, show p + 1 = p + (1 : ℕ) from rfl, h₁, Checked.done_bind,
    show p + 2 = p + (2 : ℕ) from rfl, h₂, Checked.done_bind,
    show p + 3 = p + (3 : ℕ) from rfl, h₃, Checked.done_bind]
  refine congrArg Checked.done ?_
  simp only [UInt8.toNat_ofNat']
  omega

end Block

/-! ### Several blocks -/

/-- A pointer. -/
structure Ptr where
  /-- The block it points into. -/
  block : ℕ
  /-- The place in the block. -/
  off : ℤ
  deriving DecidableEq

/-- `p + n`. -/
def Ptr.add (p : Ptr) (n : ℤ) : Ptr := { p with off := p.off + n }

/-- The pointer to a place in a block. -/
def ptrTo (block place : ℕ) : Ptr := ⟨block, place⟩

/-- The blocks, in the order of their allocation. -/
abbrev Mem (α : Type) := List (List α)

namespace Mem

/-- `*p`. -/
def load (m : Mem α) (p : Ptr) : Checked α :=
  (Checked.read m p.block).bind fun b => Block.load b p.off

/-- `*p = x`. -/
def store (m : Mem α) (p : Ptr) (x : α) : Checked (Mem α) :=
  (Checked.read m p.block).bind fun b =>
    (Block.store b p.off x).bind fun b' => Checked.write m p.block b'

/-- A new block. -/
def alloc (m : Mem α) (b : List α) : Ptr × Mem α := (⟨m.length, 0⟩, m ++ [b])

/-- The string at a pointer. -/
def text [DecidableEq α] (nul : α) (m : Mem α) (p : Ptr) : Checked (List α) :=
  (Checked.read m p.block).bind fun b => Block.text nul b p.off

/-- How much of its block lies behind a pointer. -/
def room (m : Mem α) (p : Ptr) : ℕ := ((m[p.block]?.getD []).length - p.off).toNat

theorem read_last (m : Mem α) (b : List α) : Checked.read (m ++ [b]) m.length = .done b :=
  Checked.read_of_some (by simp)

/-- **A read in the block that was allocated last.** -/
theorem load_last (m : Mem α) (u : List α) (x : α) (v : List α) :
    load (m ++ [u ++ x :: v]) ⟨m.length, u.length⟩ = .done x := by
  rw [load, read_last, Checked.done_bind, Block.load_mid]

/-- **A write in the block that was allocated last.** -/
theorem store_last (m : Mem α) (u : List α) (x y : α) (v : List α) :
    store (m ++ [u ++ x :: v]) ⟨m.length, u.length⟩ y = .done (m ++ [u ++ y :: v]) := by
  rw [store, read_last, Checked.done_bind, Block.store_mid, Checked.done_bind,
    Checked.write_of_lt (by simp)]
  simp

/-- The strings of the block that was allocated last. -/
theorem text_last [DecidableEq α] (nul : α) (m : Mem α) (b : List α) (n : ℕ) :
    text nul (m ++ [b]) (ptrTo m.length n) = Block.text nul b n := by
  have hread : Checked.read (m ++ [b]) (ptrTo m.length n).block = .done b := read_last m b
  rw [text, hread]
  rfl

/-- What a string in the memory is. -/
theorem eq_of_text [DecidableEq α] {nul : α} {m : Mem α} {p : Ptr} {s : List α}
    (h : text nul m p = .done s) :
    ∃ u v, m[p.block]? = some (u ++ (s ++ nul :: v)) ∧ p.off = u.length ∧ nul ∉ s := by
  rw [text] at h
  cases hb : m[p.block]? with
  | none => rw [Checked.read_of_none hb] at h; cases h
  | some b =>
    rw [Checked.read_of_some hb, Checked.done_bind] at h
    obtain ⟨u, v, rfl, hoff, hnul⟩ := Block.eq_of_text h
    exact ⟨u, v, rfl, hoff, hnul⟩

/-- A string stays when a block is allocated. -/
theorem text_append [DecidableEq α] {nul : α} {m : Mem α} {p : Ptr} {s : List α}
    (h : text nul m p = .done s) (m' : Mem α) : text nul (m ++ m') p = .done s := by
  obtain ⟨u, v, hb, -⟩ := eq_of_text h
  obtain ⟨hlt, -⟩ := List.getElem?_eq_some_iff.mp hb
  have hb' : (m ++ m')[p.block]? = m[p.block]? := List.getElem?_append_left hlt
  rwa [text, Checked.read, hb']

/-- There is room behind a pointer that is read. -/
theorem room_add_lt {m : Mem α} {p : Ptr} {x : α} (h : load m p = .done x) :
    room m (p.add 1) < room m p := by
  rw [load] at h
  cases hb : m[p.block]? with
  | none => rw [Checked.read_of_none hb] at h; cases h
  | some b =>
    rw [Checked.read_of_some hb, Checked.done_bind] at h
    have hlt := Block.lt_of_load h
    simp only [room, Ptr.add, hb, Option.getD_some]
    omega

/-- A write leaves the room behind every pointer. -/
theorem room_store {m m' : Mem α} {p : Ptr} {x : α} (h : store m p x = .done m') (q : Ptr) :
    room m' q = room m q := by
  rw [store] at h
  cases hb : m[p.block]? with
  | none => rw [Checked.read_of_none hb] at h; cases h
  | some b =>
    rw [Checked.read_of_some hb, Checked.done_bind, Block.store] at h
    obtain ⟨hlt, -⟩ := List.getElem?_eq_some_iff.mp hb
    split at h
    · rw [Checked.write] at h
      split at h
      · rw [Checked.done_bind, Checked.write_of_lt hlt] at h
        cases h
        by_cases hq : p.block = q.block
        · rw [room, room, ← hq, List.getElem?_set_self hlt, hb]
          simp
        · rw [room, room, List.getElem?_set_ne hq]
      · cases h
    · cases h

end Mem
end Newiup
