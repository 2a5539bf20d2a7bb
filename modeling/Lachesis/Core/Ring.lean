import Mathlib.Data.Fin.Basic
import Mathlib.Data.List.Basic
import Mathlib.Data.Nat.ModEq

/-!
# Ring buffers

The elements of a ring buffer are those of a window of its cells, which wraps around at the end.
-/

namespace Lachesis.Core

variable {α : Type*} {n : ℕ} [NeZero n] (cells : Fin n → α) (offset count : ℕ)

/-- The `count` cells from `offset` on. -/
def window : List α := (List.range count).map fun i => cells (Fin.ofNat n (offset + i))

lemma getElem?_window (i : ℕ) : (window cells offset count)[i]? =
    if i < count then some (cells (Fin.ofNat n (offset + i))) else none := by
  rw [window, List.getElem?_map]
  split_ifs with h
  · rw [List.getElem?_range h, Option.map_some]
  · rw [List.getElem?_eq_none (by simpa using h), Option.map_none]

lemma window_mod : window cells (offset % n) count = window cells offset count := by
  refine List.map_congr_left fun i _ => congrArg cells (Fin.ext ?_)
  exact Nat.mod_add_mod offset n i

/-- The first cell leaves the window when the offset moves. -/
lemma window_succ : window cells offset (count + 1) =
    cells (Fin.ofNat n offset) :: window cells (offset + 1) count := by
  rw [window, List.range_succ_eq_map, List.map_cons, List.map_map]
  refine congrArg₂ _ rfl (List.map_congr_left fun i _ => ?_)
  rw [Function.comp_apply, Nat.succ_eq_add_one, Nat.add_right_comm, Nat.add_assoc]

/-- In a window that is not full the next cell is free. -/
lemma window_update {count : ℕ} (h : count < n) (x : α) :
    window (Function.update cells (Fin.ofNat n (offset + count)) x) offset (count + 1) =
      window cells offset count ++ [x] := by
  rw [window, List.range_succ, List.map_append, List.map_singleton, Function.update_self]
  refine congrArg (· ++ [x]) (List.map_congr_left fun i hi => ?_)
  rw [List.mem_range] at hi
  refine Function.update_of_ne (fun heq => ?_) x cells
  have hmod : (offset + i) % n = (offset + count) % n := Fin.val_eq_of_eq heq
  have hcount : Nat.ModEq n i count := Nat.ModEq.add_left_cancel' offset hmod
  rw [Nat.ModEq, Nat.mod_eq_of_lt (hi.trans h), Nat.mod_eq_of_lt h] at hcount
  exact hi.ne hcount

end Lachesis.Core
