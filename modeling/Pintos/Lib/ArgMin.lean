import Mathlib

/-!
# The least element by a scan

`scanMin key b l` walks `l` with a running choice seeded with `b`, and takes each
element whose key is strictly below the current choice's. Over a linear order
the result's key is at most every key seen (`scanMin_le_seed`,
`scanMin_le_of_mem`); with an injective key it is the unique least element.
-/

namespace ArgMin

variable {α β : Type} [LinearOrder β] (key : α → β)

/-- The running choice: `b`, replaced by every later element with a smaller key. -/
def scanMin (b : α) (l : List α) : α :=
  l.foldl (fun b t => if key t < key b then t else b) b

theorem scanMin_cons (b t : α) (l : List α) :
    scanMin key b (t :: l) = scanMin key (if key t < key b then t else b) l := rfl

/-- One step of the scan: the new choice is below both the old one and `t`. -/
theorem key_choose_le (b t : α) :
    key (if key t < key b then t else b) ≤ key b ∧
      key (if key t < key b then t else b) ≤ key t := by
  split
  · exact ⟨le_of_lt ‹_›, le_refl _⟩
  · exact ⟨le_refl _, not_lt.mp ‹_›⟩

theorem scanMin_le_seed (b : α) (l : List α) : key (scanMin key b l) ≤ key b := by
  induction l generalizing b with
  | nil => exact le_refl _
  | cons t l ih =>
    rw [scanMin_cons]
    exact (ih _).trans (key_choose_le key b t).1

theorem scanMin_le_of_mem (b : α) {l : List α} {u : α} (hu : u ∈ l) :
    key (scanMin key b l) ≤ key u := by
  induction l generalizing b with
  | nil => cases hu
  | cons t l ih =>
    rw [scanMin_cons]
    rcases List.mem_cons.mp hu with rfl | hu
    · exact (scanMin_le_seed key _ l).trans (key_choose_le key b u).2
    · exact ih _ hu

end ArgMin
