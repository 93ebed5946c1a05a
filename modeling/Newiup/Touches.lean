import Newiup.Finish

/-!
# What programs leave alone

A program *touches* only certain locations when the entries at all others are the
same after it.  The functions of the daemon touch the paths they are given; the
finish action also touches its destination and the directories it makes on the way
there.

Footprints are put together along the text of a program, by the rules for sequences and
tests.  They are what separates the files of different nodes: whatever lies outside of the
footprint of a step is as it was, and nothing has to be known of what the step does
within.

## Main definitions

* `Touches T x` — the program `x` touches only locations in `T`.
* `finishTouches` — where the finish action on a source may touch.

## Main results

* `Touches.bind` — the rule of sequence.
* `touches_doMoveTo` — **the finish action stays within `finishTouches`.**
-/

namespace Newiup

/-- The program touches only locations that satisfy `T`. -/
def Touches {α : Type} (T : Loc → Prop) (x : Os α) : Prop :=
  ∀ w l, ¬T l → wp x (fun _ w' => w'.fs.entry l = w.fs.entry l) w

namespace Touches

variable {α β : Type} {T T' : Loc → Prop}

theorem pure (a : α) : Touches T (Pure.pure a : Os α) := fun _ _ _ => rfl

theorem bind {x : Os α} {f : α → Os β} (hx : Touches T x) (hf : ∀ a, Touches T (f a)) :
    Touches T (x >>= f) := by
  intro w l hl
  rw [wp_bind]
  exact wp_mono (hx w l hl) fun a w' h => wp_mono (hf a w' l hl) fun _ _ h' => h'.trans h

theorem mono {x : Os α} (hx : Touches T x) (hT : ∀ l, T l → T' l) : Touches T' x :=
  fun w l hl => hx w l fun h => hl (hT l h)

theorem ite {c : Prop} [Decidable c] {x y : Os α} (hx : Touches T x) (hy : Touches T y) :
    Touches T (if c then x else y) := by
  split
  exacts [hx, hy]

theorem getFs : Touches T getFs := fun _ _ _ => rfl

theorem result : Touches T result := fun _ _ _ => wp_result fun _ _ => rfl

end Touches

/-! ### Calls -/

theorem touches_remove (p : Path) : Touches (· = resolve p) (remove p) := fun w l hl =>
  wp_remove (fun _ => by rw [Fs.entry_unlink, if_neg hl]) fun _ => rfl

theorem touches_rename (old new : Path) :
    Touches (fun l => l = resolve old ∨ l = resolve new) (rename old new) := by
  intro w l hl
  rw [not_or] at hl
  refine wp_rename (fun _ i h _ _ => ?_) fun _ _ => rfl
  rw [Fs.entry_unlink, if_neg hl.1, Fs.entry_link, if_neg hl.2]

theorem touches_openRead (T : Loc → Prop) (p : Path) : Touches T (openRead p) := fun _ _ _ =>
  wp_openRead (fun _ _ _ => rfl) fun _ => rfl

theorem touches_openTrunc (p : Path) (mode : ℕ) :
    Touches (· = resolve p) (openTrunc p mode) := fun w l hl =>
  wp_openTrunc (fun _ _ _ => by rw [Fs.entry_make, if_neg hl])
    (fun _ _ _ _ _ => by rw [Fs.entry_setData]) (fun _ _ _ _ _ => rfl) fun _ => rfl

theorem touches_createFile (p : Path) : Touches (· = resolve p) (createFile p) :=
  (touches_openTrunc p _).bind fun _ => .pure _

theorem touches_deleteFile (p : Path) : Touches (· = resolve p) (deleteFile p) :=
  (touches_remove p).bind fun _ => .pure _

theorem touches_copyLoop (T : Loc → Prop) (sd dd : Ino) : ∀ fuel pos,
    Touches T (copyLoop sd dd fuel pos) := by
  intro fuel
  induction fuel with
  | zero => exact fun _ => .pure _
  | succ fuel ih =>
    intro pos w l hl
    rw [copyLoop, wp_bind]
    refine wp_readFd (fun sys k _ => ?_) fun _ => rfl
    refine wp_ite (fun _ => rfl) fun _ => ?_
    rw [wp_bind]
    refine wp_writeFd (fun sys j => ?_) fun _ => rfl
    exact wp_ite (fun _ => rfl) fun _ => ih _ _ l hl

theorem touches_moveFile (o d : Path) :
    Touches (fun l => l = resolve o ∨ l = resolve d) (moveFile o d) := by
  unfold moveFile
  refine (touches_openRead _ o).bind fun sd => ?_
  cases sd with
  | none => exact .pure _
  | some sd =>
    refine Touches.result.bind fun r => .ite (.pure _) ?_
    refine Touches.getFs.bind fun fs => ?_
    refine ((touches_openTrunc d _).mono fun _ h => Or.inr h).bind fun dd => ?_
    cases dd with
    | none => exact .pure _
    | some dd =>
      refine (touches_copyLoop _ sd dd _ 0).bind fun r => .ite (.pure _) ?_
      exact ((touches_remove o).mono fun _ h => Or.inl h).bind fun _ => .pure _

theorem touches_recursiveMakeDir (p : Path) (mode : ℕ) :
    Touches (fun l => ∃ q, q <+: p ∧ l = resolve q) (recursiveMakeDir p mode) := fun w l hl =>
  wp_mono (recursiveMakeDir_grown mode p w) fun _ _ h =>
    (h.entry l).resolve_right fun h' => hl h'.1

/-! ### The finish action -/

/-- The locations the finish action may touch: the source, the destination, and
directories on the way to the destination. -/
def finishTouches (mg : MonitorGroup) (date : CString) (src : Path) : List Loc :=
  resolve src :: ((finishPath mg date src).toList ++ mg.moveTo.inits ++
    (timeDir date mg.moveTo).inits).map resolve

section Finish

variable {mg : MonitorGroup} {date : CString} {src : Path}

theorem mem_finishTouches {l : Loc} : l ∈ finishTouches mg date src ↔
    l = resolve src ∨ (∃ d, finishPath mg date src = some d ∧ l = resolve d) ∨
      (∃ q, q <+: mg.moveTo ∧ l = resolve q) ∨
      ∃ q, q <+: timeDir date mg.moveTo ∧ l = resolve q := by
  simp only [finishTouches, List.mem_cons, List.mem_map, List.mem_append, Option.mem_toList,
    List.mem_inits, or_and_right, exists_or, or_assoc, eq_comm (a := l)]

theorem touches_storeByTime {same : Bool} {d : Path}
    (hd : finishPath mg date src = some d) (htime : d = pathIn (timeDir date mg.moveTo) src) :
    Touches (· ∈ finishTouches mg date src) (storeByTime date src mg.moveTo same) := by
  have hmake : Touches (· ∈ finishTouches mg date src)
      (recursiveMakeDir (timeDir date mg.moveTo) DIR_MODE) :=
    (touches_recursiveMakeDir _ _).mono fun _ h =>
      mem_finishTouches.mpr (Or.inr (Or.inr (Or.inr h)))
  have hpair : ∀ l, (l = resolve src ∨ l = resolve (pathIn (timeDir date mg.moveTo) src)) →
      l ∈ finishTouches mg date src := fun l h =>
    mem_finishTouches.mpr (h.imp id fun h => Or.inl ⟨d, hd, by rw [h, htime]⟩)
  unfold storeByTime
  refine hmake.bind fun r => .ite (.pure _) ?_
  refine .ite ?_ ?_
  · exact ((touches_rename _ _).mono hpair).bind fun _ => .pure _
  · exact ((touches_moveFile _ _).mono hpair).bind fun _ => .pure _

theorem touches_doMoveToAct :
    Touches (· ∈ finishTouches mg date src)
      (doMoveToAct date mg.moveTo src (pathIn mg.moveTo src) mg.finishAct) := by
  have hsrc : ∀ l, l = resolve src → l ∈ finishTouches mg date src := fun l h =>
    mem_finishTouches.mpr (Or.inl h)
  have hpair : ∀ {d}, finishPath mg date src = some d → ∀ l, (l = resolve src ∨ l = resolve d) →
      l ∈ finishTouches mg date src := fun hd l h =>
    mem_finishTouches.mpr (h.imp id fun h => Or.inl ⟨_, hd, h⟩)
  cases hf : mg.finishAct with
  | keep => exact .pure _
  | delete => exact ((touches_remove _).mono hsrc).bind fun _ => .pure _
  | sameMove =>
    have hd : finishPath mg date src = some (pathIn mg.moveTo src) := by rw [finishPath, hf]
    exact ((touches_rename _ _).mono (hpair hd)).bind fun _ => .pure _
  | diffMove =>
    have hd : finishPath mg date src = some (pathIn mg.moveTo src) := by rw [finishPath, hf]
    exact ((touches_moveFile _ _).mono (hpair hd)).bind fun _ => .pure _
  | sameMoveTime =>
    exact (touches_storeByTime (by rw [finishPath, hf]) rfl).bind fun _ => .pure _
  | diffMoveTime =>
    exact (touches_storeByTime (by rw [finishPath, hf]) rfl).bind fun _ => .pure _

/-- **The finish action stays within `finishTouches`.** -/
theorem touches_doMoveTo :
    Touches (· ∈ finishTouches mg date src) (doMoveTo date mg.finishAct mg.moveTo src) := by
  unfold doMoveTo
  refine .ite (.pure _) ?_
  dsimp only
  have hact : Touches (· ∈ finishTouches mg date src) (do
      doMoveToAct date mg.moveTo src (pathIn mg.moveTo src) mg.finishAct
      return NEWIUP_OK) := touches_doMoveToAct.bind fun _ => .pure _
  have hmake : Touches (· ∈ finishTouches mg date src) (recursiveMakeDir mg.moveTo DIR_MODE) :=
    (touches_recursiveMakeDir _ _).mono fun _ h =>
      mem_finishTouches.mpr (Or.inr (Or.inr (Or.inl h)))
  refine Touches.bind (Touches.getFs.bind fun _ => .pure _) fun r => .ite ?_ hact
  exact hmake.bind fun r => .ite (.pure _) hact

end Finish

end Newiup
