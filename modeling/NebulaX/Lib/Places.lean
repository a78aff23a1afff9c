import Mathlib.Logic.Function.Basic

/-!
# `NebulaX.Lib.Places`: things at places

A system keeps things at places: on a list, in the hands of a thread. `Placed inside holds place`
says that the things that are `inside` are each at one place, `place x`, and that `holds` says
which are where. The place is a function of the thing, so a thing is never at two places
(`Placed.unique`), and none is lost.

`Placed.move` takes one thing to another place, and `Placed.pass` takes it from one to the other.
-/

set_option autoImplicit false

namespace NebulaX.Lib

variable {κ ι : Type}

/-- `holds k x` is true of the things inside, at the places they are at. -/
def Placed (inside : ι → Prop) (holds : κ → ι → Prop) (place : ι → κ) : Prop :=
  ∀ k x, holds k x ↔ inside x ∧ place x = k

namespace Placed

variable {inside : ι → Prop} {holds holds' : κ → ι → Prop} {place : ι → κ}

/-- A thing is at one place. -/
theorem unique (h : Placed inside holds place) (k k' : κ) {x : ι} (hk : holds k x)
    (hk' : holds k' x) : k = k' :=
  ((h k x).mp hk).2.symm.trans ((h k' x).mp hk').2

/-- What is held is inside. -/
theorem inside_of (h : Placed inside holds place) {k : κ} {x : ι} (hk : holds k x) : inside x :=
  ((h k x).mp hk).1

/-- One thing goes to another place. -/
theorem move [DecidableEq ι] (h : Placed inside holds place) {x : ι} {k₀ : κ} (hx : inside x)
    (hholds : ∀ k y, holds' k y ↔ if y = x then k = k₀ else holds k y) :
    Placed inside holds' (Function.update place x k₀) := by
  intro k y
  rw [hholds]
  by_cases hy : y = x
  · subst hy
    simp [hx, eq_comm]
  · simp [hy, h k y]

/-- One thing goes from one place to another, and the others stay as they are. -/
theorem pass [DecidableEq ι] (h : Placed inside holds place) {x : ι} {k l : κ} (hx : holds k x)
    (hne : k ≠ l) (hfrom : ∀ y, holds' k y ↔ y ≠ x ∧ holds k y)
    (hto : ∀ y, holds' l y ↔ y = x ∨ holds l y)
    (hrest : ∀ k' y, k' ≠ k → k' ≠ l → (holds' k' y ↔ holds k' y)) :
    Placed inside holds' (Function.update place x l) := by
  refine h.move (h.inside_of hx) fun k' y => ?_
  by_cases hk : k' = k
  · subst hk
    rw [hfrom]
    split <;> simp_all
  by_cases hl : k' = l
  · subst hl
    rw [hto]
    split <;> simp_all
  rw [hrest k' y hk hl]
  split
  · rename_i hy
    subst hy
    exact iff_of_false (fun hk' => hk (h.unique k' k hk' hx)) hl
  · rfl

end Placed

end NebulaX.Lib
