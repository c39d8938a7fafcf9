import Mathlib.Data.List.Induction

/-!
# The last write

The value a location holds after a sequence of writes, each of which reaches a
set of locations: that of the last write that reaches it.
-/

namespace Memnon.Lib

variable {W V : Type}

/-- The value of the last write that reaches a location, `d` if there is none. -/
def lastWrite (reaches : W → Bool) (value : W → V) (d : V) (ws : List W) : V :=
  ((ws.reverse.find? reaches).map value).getD d

variable {reaches : W → Bool} {value : W → V} {d : V}

@[simp] theorem lastWrite_nil : lastWrite reaches value d [] = d := rfl

theorem lastWrite_concat (ws : List W) (w : W) :
    lastWrite reaches value d (ws ++ [w]) =
      if reaches w = true then value w else lastWrite reaches value d ws := by
  rw [lastWrite, List.reverse_concat, List.find?_cons]
  cases reaches w <;> rfl

/-- It depends on which of the writes reach the location. -/
theorem lastWrite_congr {reaches' : W → Bool} {ws : List W}
    (h : ∀ w ∈ ws, reaches w = reaches' w) :
    lastWrite reaches value d ws = lastWrite reaches' value d ws := by
  induction ws using List.reverseRecOn with
  | nil => rfl
  | append_singleton ws w ih =>
    have hw : reaches w = reaches' w := h w (List.mem_append_right _ (List.mem_singleton.mpr rfl))
    rw [lastWrite_concat, lastWrite_concat, hw, ih fun w hw => h w (List.mem_append_left _ hw)]

end Memnon.Lib
