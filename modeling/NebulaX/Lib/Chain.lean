import Mathlib.Data.List.Nodup
import Mathlib.Logic.Function.Basic

/-!
# `NebulaX.Lib.Chain`: singly linked chains through an index array

A chain is threaded through an array by a `next` function and ends at the mark `nil`.
`Chain next nil head xs` says that the indices visited from `head` are exactly `xs`, in
this order. The list is determined by the array (`Chain.unique`), and a chain that reaches
`nil` visits no index twice (`Chain.nodup`), so acyclicity needs no clause of its own.

`walk` computes the list with a step bound; `Chain.walk_eq` is the bridge to the relation. Other
loops along a chain are computed by `Chain.loop_induction`.

The update lemmas are the three things free lists and hash chains do: write an index the
chain does not visit (`Chain.congr`), push an index in front (`Chain.push`), and bypass the
successor of an index (`Chain.bypass`). `Chain.of_range'` is the initial chain `f k`,
`f (k + 1)`, and so on.
-/

set_option autoImplicit false

namespace NebulaX.Lib

variable {ι : Type}

/-- From `head`, following `next` visits exactly `xs` and then arrives at `nil`. -/
def Chain (next : ι → ι) (nil : ι) : ι → List ι → Prop
  | head, [] => head = nil
  | head, x :: xs => head = x ∧ x ≠ nil ∧ Chain next nil (next x) xs

/-- The indices visited from `head` in at most `fuel` steps. -/
def walk [DecidableEq ι] (next : ι → ι) (nil : ι) : Nat → ι → List ι
  | 0, _ => []
  | fuel + 1, head => if head = nil then [] else head :: walk next nil fuel (next head)

namespace Chain

variable {next next' : ι → ι} {nil head : ι} {xs : List ι}

/-- A walk with enough steps lists the chain. -/
theorem walk_eq [DecidableEq ι] (h : Chain next nil head xs) {fuel : Nat}
    (hf : xs.length ≤ fuel) : walk next nil fuel head = xs := by
  induction xs generalizing head fuel with
  | nil =>
      cases fuel with
      | zero => rfl
      | succ n => exact if_pos h
  | cons x xs ih =>
      obtain ⟨rfl, hne, hrest⟩ := h
      cases fuel with
      | zero => simp at hf
      | succ n =>
          rw [List.length_cons] at hf
          simp only [walk, if_neg hne]
          rw [ih hrest (by omega)]

/-- The induction of a loop with a step bound that follows a chain: what it computes from `head` is
settled at the end of the chain, and at an index from what it computes behind it. -/
theorem loop_induction {motive : Nat → ι → List ι → Prop} (done : ∀ fuel, motive (fuel + 1) nil [])
    (visit : ∀ fuel x xs, x ≠ nil → motive fuel (next x) xs → motive (fuel + 1) x (x :: xs))
    (h : Chain next nil head xs) {fuel : Nat} (hf : xs.length < fuel) : motive fuel head xs := by
  induction xs generalizing head fuel with
  | nil =>
      obtain ⟨fuel, rfl⟩ := Nat.exists_eq_add_one.mpr hf
      obtain rfl : head = nil := h
      exact done fuel
  | cons x xs ih =>
      obtain ⟨rfl, hne, hrest⟩ := h
      obtain ⟨fuel, rfl⟩ := Nat.exists_eq_add_one.mpr (Nat.zero_lt_of_lt hf)
      exact visit fuel head xs hne (ih hrest (Nat.lt_of_succ_lt_succ hf))

/-- The array determines the chain. -/
theorem unique {ys : List ι} (h : Chain next nil head xs) (h' : Chain next nil head ys) :
    xs = ys := by
  induction xs generalizing head ys with
  | nil =>
      cases ys with
      | nil => rfl
      | cons y ys => exact absurd (h'.1.symm.trans h) h'.2.1
  | cons x xs ih =>
      obtain ⟨rfl, hne, hrest⟩ := h
      cases ys with
      | nil => exact absurd h' hne
      | cons y ys =>
          obtain ⟨rfl, -, hrest'⟩ := h'
          rw [ih hrest hrest']

/-- No visited index is `nil`. -/
theorem ne_nil_of_mem (h : Chain next nil head xs) {x : ι} (hx : x ∈ xs) : x ≠ nil := by
  induction xs generalizing head with
  | nil => simp at hx
  | cons y ys ih =>
      rcases List.mem_cons.mp hx with rfl | hx
      · exact h.2.1
      · exact ih h.2.2 hx

/-- A chain at `nil` is empty. -/
theorem eq_nil_of_head (h : Chain next nil nil xs) : xs = [] := by
  cases xs with
  | nil => rfl
  | cons x xs => exact absurd h.1.symm h.2.1

/-- A chain at an index that is not `nil` starts with it. -/
theorem exists_cons (h : Chain next nil head xs) (hne : head ≠ nil) :
    ∃ ys, xs = head :: ys ∧ Chain next nil (next head) ys := by
  cases xs with
  | nil => exact absurd h hne
  | cons x ys =>
      obtain ⟨rfl, -, hrest⟩ := h
      exact ⟨ys, rfl, hrest⟩

/-- Every suffix of a chain is a chain. -/
theorem suffix {l r : List ι} {x : ι} (h : Chain next nil head (l ++ x :: r)) :
    Chain next nil x (x :: r) := by
  induction l generalizing head with
  | nil => exact ⟨rfl, h.2.1, h.2.2⟩
  | cons y l ih => exact ih h.2.2

/-- A chain visits no index twice: two visits of one index would start two equal suffixes
of different lengths. -/
theorem nodup (h : Chain next nil head xs) : xs.Nodup := by
  induction xs generalizing head with
  | nil => exact List.nodup_nil
  | cons x xs ih =>
      refine List.nodup_cons.mpr ⟨fun hx => ?_, ih h.2.2⟩
      obtain ⟨l, r, rfl⟩ := List.append_of_mem hx
      have hwhole : Chain next nil x (x :: (l ++ x :: r)) := ⟨rfl, h.2.1, h.2.2⟩
      have hlater : Chain next nil x (x :: r) := h.2.2.suffix
      have hlen := congrArg List.length (hwhole.unique hlater)
      simp only [List.length_cons, List.length_append] at hlen
      omega

/-- Writing indices the chain does not visit keeps it. -/
theorem congr (h : Chain next nil head xs) (hn : ∀ x ∈ xs, next' x = next x) :
    Chain next' nil head xs := by
  induction xs generalizing head with
  | nil => exact h
  | cons x xs ih =>
      refine ⟨h.1, h.2.1, ?_⟩
      rw [hn x (by simp)]
      exact ih h.2.2 fun y hy => hn y (by simp [hy])

/-- Push: an index in front of the chain, linked to its old head. -/
theorem push [DecidableEq ι] {x : ι} (h : Chain next nil head xs) (hx : x ≠ nil)
    (hnew : x ∉ xs) : Chain (Function.update next x head) nil x (x :: xs) := by
  refine ⟨rfl, hx, ?_⟩
  rw [Function.update_self]
  refine h.congr fun y hy => ?_
  rw [Function.update_of_ne]
  rintro rfl
  exact hnew hy

/-- Bypass: the successor `x` of `a` leaves the chain. -/
theorem bypass [DecidableEq ι] {l r : List ι} {a x : ι}
    (h : Chain next nil head (l ++ a :: x :: r)) :
    Chain (Function.update next a (next x)) nil head (l ++ a :: r) := by
  induction l generalizing head with
  | nil =>
      obtain ⟨rfl, hne, rfl, hxne, hrest⟩ := h
      have hnd : (head :: next head :: r).Nodup := Chain.nodup ⟨rfl, hne, rfl, hxne, hrest⟩
      refine ⟨rfl, hne, ?_⟩
      rw [Function.update_self]
      refine hrest.congr fun y hy => ?_
      rw [Function.update_of_ne]
      rintro rfl
      exact (List.nodup_cons.mp hnd).1 (by simp [hy])
  | cons y l ih =>
      have hnd := Chain.nodup h
      obtain ⟨rfl, hne, hrest⟩ := h
      refine ⟨rfl, hne, ?_⟩
      rw [Function.update_of_ne]
      · exact ih hrest
      · rintro rfl
        exact (List.nodup_cons.mp hnd).1 (by simp)

/-- The initial chain: consecutive numbers linked upwards. -/
theorem of_range' (f : Nat → ι) (n k : Nat)
    (hstep : ∀ i, k ≤ i → i + 1 < k + n → next (f i) = f (i + 1))
    (hlast : 0 < n → next (f (k + n - 1)) = nil) (hne : ∀ i, i < k + n → f i ≠ nil)
    (hn : 0 < n) : Chain next nil (f k) ((List.range' k n).map f) := by
  induction n generalizing k with
  | zero => omega
  | succ n ih =>
      rw [List.range'_succ, List.map_cons]
      refine ⟨rfl, hne k (by omega), ?_⟩
      cases n with
      | zero => exact hlast (by omega)
      | succ n =>
          rw [hstep k (by omega) (by omega)]
          refine ih (k + 1) (fun i hi hlt => hstep i (by omega) (by omega)) (fun _ => ?_)
            (fun i hi => hne i (by omega)) (by omega)
          have hl := hlast (by omega)
          rwa [show k + (n + 1 + 1) - 1 = k + 1 + (n + 1) - 1 by omega] at hl

end Chain

end NebulaX.Lib
