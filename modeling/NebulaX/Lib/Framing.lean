import Mathlib.Data.List.Basic

/-!
# `NebulaX.Lib.Framing`: items cut out of a stream

A `Splitter` looks at the bytes received and not consumed so far. It waits for more, or it
takes some of them away and gives an item or nothing. What it decides on some bytes it
decides on every continuation of them (`stable`).

`split` takes items away as long as it can. The main result is `split_append`: to split a
prefix of the stream and then what is left of it with the bytes that follow is to split
the whole stream.
-/

set_option autoImplicit false

namespace NebulaX.Lib

/-- What to take away from the front of a buffer. -/
structure Splitter (α β : Type) where
  /-- `none` is to wait, `some (item, rest)` goes on with `rest`. -/
  next : List α → Option (Option β × List α)
  shorter : ∀ {b : List α} {item : Option β} {rest : List α},
    next b = some (item, rest) → rest.length < b.length
  stable : ∀ {b : List α} {item : Option β} {rest : List α},
    next b = some (item, rest) → ∀ x, next (b ++ x) = some (item, rest ++ x)

namespace Splitter

variable {α β : Type} (p : Splitter α β)

/-- The items of a buffer and what is left of it. -/
def split (b : List α) : List β × List α :=
  match _h : p.next b with
  | none => ([], b)
  | some (item, rest) => (item.toList ++ (split rest).1, (split rest).2)
  termination_by b.length
  decreasing_by all_goals exact p.shorter ‹_›

variable {p}

theorem split_of_none {b : List α} (h : p.next b = none) : p.split b = ([], b) := by
  rw [split]
  split
  · rfl
  · rename_i hb
    rw [h] at hb
    cases hb

theorem split_of_some {b : List α} {item : Option β} {rest : List α}
    (h : p.next b = some (item, rest)) :
    p.split b = (item.toList ++ (p.split rest).1, (p.split rest).2) := by
  rw [split]
  split
  · rename_i hb
    rw [h] at hb
    cases hb
  · rename_i hb
    rw [h, Option.some.injEq, Prod.mk.injEq] at hb
    obtain ⟨rfl, rfl⟩ := hb
    rfl

/-- What is left waits for more. -/
theorem next_split (p : Splitter α β) (b : List α) : p.next (p.split b).2 = none := by
  fun_induction p.split b with
  | case1 b h => exact h
  | case2 b item rest h ih => exact ih

/-- Splitting a prefix first makes no difference. -/
theorem split_append (p : Splitter α β) (b x : List α) :
    p.split (b ++ x) = ((p.split b).1 ++ (p.split ((p.split b).2 ++ x)).1,
      (p.split ((p.split b).2 ++ x)).2) := by
  fun_induction p.split b with
  | case1 b h => rfl
  | case2 b item rest h ih =>
      rw [split_of_some (p.stable h x), ih, List.append_assoc]

/-- Items of which each is taken away in one go. -/
theorem split_flatten {encode : β → List α} {items : List β}
    (h : ∀ i ∈ items, ∀ x, p.next (encode i ++ x) = some (some i, x))
    (hnil : p.next [] = none) : p.split (items.map encode).flatten = (items, []) := by
  induction items with
  | nil => exact split_of_none hnil
  | cons i items ih =>
      rw [List.map_cons, List.flatten_cons, split_of_some (h i List.mem_cons_self _),
        ih fun j hj => h j (List.mem_cons_of_mem i hj)]
      rfl

end Splitter

end NebulaX.Lib
