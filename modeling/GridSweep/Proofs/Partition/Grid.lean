import GridSweep.Pipeline.Plan
import Mathlib.Logic.Function.Iterate

/-!
# Passes over the whole grid

A pass computes each row of the grid from the rows around it, by a function that also gets the
number of the row. Rows next to the edge read rows that do not exist. `Evolves` lets these be
anything, and says which states of the grid a number of passes can lead to. Where nothing from
outside is used there is only one: the passes applied one after the other.
-/

namespace GridSweep

variable {α : Type} {halo : Halo} {F : Int → List α → α} {H G : Int → α} {rows k : Nat}

/-- The rows around row `g`, from top to bottom. -/
def Halo.window (halo : Halo) (H : Int → α) (g : Int) : List α :=
  (List.range (halo.total + 1)).map fun i : Nat => H (g - halo.top + i)

/-- One pass over all rows. -/
def Halo.pass (halo : Halo) (F : Int → List α → α) (H : Int → α) (g : Int) : α :=
  F g (halo.window H g)

/-- What `H` can become in a number of passes over the rows of a grid, when rows outside of it can
be anything at any time. -/
inductive Evolves (halo : Halo) (F : Int → List α → α) (rows : Nat) (H : Int → α) :
    Nat → (Int → α) → Prop where
  | start {G : Int → α} : (∀ g : Int, 0 ≤ g → g < rows → G g = H g) → Evolves halo F rows H 0 G
  | pass {k : Nat} {G G' : Int → α} : Evolves halo F rows H k G →
    (∀ g : Int, 0 ≤ g → g < rows → G' g = halo.pass F G g) → Evolves halo F rows H (k + 1) G'

namespace Evolves

/-- Nothing is said about rows outside of the grid. -/
theorem congr {G' : Int → α} (h : Evolves halo F rows H k G)
    (heq : ∀ g : Int, 0 ≤ g → g < rows → G' g = G g) : Evolves halo F rows H k G' := by
  cases h with
  | start h0 => exact .start fun g hlow hhigh => (heq g hlow hhigh).trans (h0 g hlow hhigh)
  | pass h hpass => exact .pass h fun g hlow hhigh => (heq g hlow hhigh).trans (hpass g hlow hhigh)

theorem iterate (h : Evolves halo F rows H k G) (m : Nat) :
    Evolves halo F rows H (k + m) ((halo.pass F)^[m] G) := by
  induction m with
  | zero => exact h
  | succ m ih =>
    rw [Function.iterate_succ']
    exact .pass ih fun g _ _ => rfl

end Evolves

end GridSweep
