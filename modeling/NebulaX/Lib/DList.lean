import NebulaX.Lib.Chain

/-!
# `NebulaX.Lib.DList`: doubly linked lists through an index array

`DList prv nxt nil head tail xs` says that the array holds the doubly linked list `xs`:
`head` and `tail` are its ends, or `nil` for the empty list, and the links of neighbours
agree. A list is a `Seg`, a segment with given outer neighbours; `Seg.append_iff` cuts a
segment in two, and the operations are stated at the cut:

* `DList.snoc`: a new index at the tail;
* `DList.remove`: an index leaves, wherever it stands. Its neighbours are joined the way
  intrusive-list code does it: each neighbour that exists gets one link rewritten, and an
  end that was the index moves inwards.

`DList.chain` forgets the back links, so `Chain.nodup` and `Chain.unique` apply.
-/

set_option autoImplicit false

namespace NebulaX.Lib

variable {ι : Type}

/-- A segment of a doubly linked list: `p` is linked before it and `n` after it. -/
def Seg (prv nxt : ι → ι) (nil : ι) : ι → List ι → ι → Prop
  | _, [], _ => True
  | p, x :: xs, n => prv x = p ∧ nxt x = xs.headD n ∧ x ≠ nil ∧ Seg prv nxt nil x xs n

/-- A whole doubly linked list with its two ends. -/
structure DList (prv nxt : ι → ι) (nil head tail : ι) (xs : List ι) : Prop where
  head_eq : head = xs.headD nil
  tail_eq : tail = xs.getLastD nil
  seg : Seg prv nxt nil nil xs nil

/-- The last element of a nonempty list is one of its elements, whatever the default. -/
theorem getLastD_mem {xs : List ι} (hne : xs ≠ []) (a : ι) : xs.getLastD a ∈ xs := by
  rw [List.getLastD_eq_getLast?, List.getLast?_eq_some_getLast hne, Option.getD_some]
  exact List.getLast_mem hne

namespace Seg

variable {prv nxt prv' nxt' : ι → ι} {nil p n : ι} {xs l r : List ι}

/-- A segment cut in two: each part sees the end of the other. -/
theorem append_iff :
    Seg prv nxt nil p (l ++ r) n ↔
      Seg prv nxt nil p l (r.headD n) ∧ Seg prv nxt nil (l.getLastD p) r n := by
  induction l generalizing p with
  | nil => simp [Seg]
  | cons x l ih =>
      have hhead : (l ++ r).headD n = l.headD (r.headD n) := by cases l <;> rfl
      simp only [List.cons_append, Seg, ih, hhead, List.getLastD_cons, and_assoc]

/-- Writing indices outside the segment keeps it. -/
theorem congr (h : Seg prv nxt nil p xs n) (hp : ∀ x ∈ xs, prv' x = prv x)
    (hn : ∀ x ∈ xs, nxt' x = nxt x) : Seg prv' nxt' nil p xs n := by
  induction xs generalizing p with
  | nil => trivial
  | cons x xs ih =>
      obtain ⟨h1, h2, h3, h4⟩ := h
      exact ⟨(hp x (by simp)).trans h1, (hn x (by simp)).trans h2, h3,
        ih h4 (fun y hy => hp y (by simp [hy])) fun y hy => hn y (by simp [hy])⟩

/-- No index of a segment is `nil`. -/
theorem ne_nil_of_mem (h : Seg prv nxt nil p xs n) {x : ι} (hx : x ∈ xs) : x ≠ nil := by
  induction xs generalizing p with
  | nil => simp at hx
  | cons y ys ih =>
      rcases List.mem_cons.mp hx with rfl | hx
      · exact h.2.2.1
      · exact ih h.2.2.2 hx

/-- Rewriting the forward link of the last index relinks the segment to a new follower. -/
theorem setNext [DecidableEq ι] (n' : ι) (h : Seg prv nxt nil p xs n) (hnd : xs.Nodup)
    (hne : xs ≠ []) : Seg prv (Function.update nxt (xs.getLastD nil) n') nil p xs n' := by
  induction xs generalizing p with
  | nil => exact absurd rfl hne
  | cons x xs ih =>
      obtain ⟨h1, h2, h3, h4⟩ := h
      obtain ⟨hx, hnd⟩ := List.nodup_cons.mp hnd
      cases xs with
      | nil => exact ⟨h1, Function.update_self _ _ _, h3, trivial⟩
      | cons y ys =>
          have hlast : (x :: y :: ys).getLastD nil = (y :: ys).getLastD nil := by
            rw [List.getLastD_cons]; rfl
          rw [hlast]
          have hmem : (y :: ys).getLastD nil ∈ y :: ys := getLastD_mem (by simp) nil
          refine ⟨h1, ?_, h3, ih h4 hnd (by simp)⟩
          rw [Function.update_of_ne]
          · exact h2
          · rintro rfl
            exact hx hmem

/-- Rewriting the back link of the first index relinks the segment to a new
predecessor. -/
theorem setPrev [DecidableEq ι] (p' : ι) (h : Seg prv nxt nil p xs n) (hnd : xs.Nodup)
    (hne : xs ≠ []) : Seg (Function.update prv (xs.headD nil) p') nxt nil p' xs n := by
  cases xs with
  | nil => exact absurd rfl hne
  | cons x xs =>
      obtain ⟨h1, h2, h3, h4⟩ := h
      obtain ⟨hx, -⟩ := List.nodup_cons.mp hnd
      refine ⟨by simp, h2, h3, h4.congr (fun y hy => ?_) fun _ _ => rfl⟩
      show Function.update prv x p' y = prv y
      rw [Function.update_of_ne]
      rintro rfl
      exact hx hy

/-- The forward links of a segment that ends at `nil` are a chain. -/
theorem chain (h : Seg prv nxt nil p xs nil) : Chain nxt nil (xs.headD nil) xs := by
  induction xs generalizing p with
  | nil => rfl
  | cons x xs ih =>
      obtain ⟨-, h2, h3, h4⟩ := h
      refine ⟨rfl, h3, ?_⟩
      rw [h2]
      exact ih h4

end Seg

namespace DList

variable {prv nxt prv' nxt' : ι → ι} {nil head tail : ι} {xs l r : List ι}

/-- The forward chain of a list. -/
theorem chain (h : DList prv nxt nil head tail xs) : Chain nxt nil head xs := by
  rw [h.head_eq]
  exact h.seg.chain

/-- A list visits no index twice. -/
theorem nodup (h : DList prv nxt nil head tail xs) : xs.Nodup := h.chain.nodup

/-- Writing indices outside the list keeps it. -/
theorem congr (h : DList prv nxt nil head tail xs) (hp : ∀ x ∈ xs, prv' x = prv x)
    (hn : ∀ x ∈ xs, nxt' x = nxt x) : DList prv' nxt' nil head tail xs :=
  ⟨h.head_eq, h.tail_eq, h.seg.congr hp hn⟩

/-- The list of one index. -/
theorem singleton {x : ι} (hx : x ≠ nil) (hp : prv x = nil) (hn : nxt x = nil) :
    DList prv nxt nil x x [x] :=
  ⟨rfl, rfl, hp, hn, hx, trivial⟩

/-- The last index of a nonempty list is one of its indices. -/
theorem tail_mem (h : DList prv nxt nil head tail xs) (hne : xs ≠ []) : tail ∈ xs := by
  rw [h.tail_eq]
  exact getLastD_mem hne nil

/-- The links of an index inside a list are its neighbours there. -/
theorem links {x : ι} (h : DList prv nxt nil head tail (l ++ x :: r)) :
    prv x = l.getLastD nil ∧ nxt x = r.headD nil := by
  obtain ⟨h1, h2, -, -⟩ := (Seg.append_iff.mp h.seg).2
  exact ⟨h1, h2⟩

variable [DecidableEq ι]

/-- A new index `x` at the tail: `x` points back to the old tail, the old tail to `x`. -/
theorem snoc {x : ι} (h : DList prv nxt nil head tail xs) (hne : xs ≠ []) (hx : x ≠ nil)
    (hnew : x ∉ xs) :
    DList (Function.update prv x tail) (Function.update (Function.update nxt x nil) tail x)
      nil head x (xs ++ [x]) where
  head_eq := by
    rw [h.head_eq]
    cases xs with
    | nil => exact absurd rfl hne
    | cons y ys => rfl
  tail_eq := by rw [List.getLastD_eq_getLast?]; simp
  seg := by
    have hmem := h.tail_mem hne
    have htx : x ≠ tail := fun e => hnew (e ▸ hmem)
    rw [Seg.append_iff]
    constructor
    · -- The old part: only the forward link of its last index changes.
      have hne' : ∀ y ∈ xs, y ≠ x := fun y hy e => hnew (e ▸ hy)
      have hold : Seg (Function.update prv x tail) (Function.update nxt x nil) nil nil xs nil :=
        h.seg.congr (fun y hy => Function.update_of_ne (hne' y hy) _ _)
          fun y hy => Function.update_of_ne (hne' y hy) _ _
      have hset := hold.setNext x h.nodup hne
      rwa [← h.tail_eq] at hset
    · refine ⟨?_, ?_, hx, trivial⟩
      · rw [Function.update_self, h.tail_eq]
      · rw [Function.update_of_ne htx, Function.update_self]
        rfl

/-- Joining the neighbours of `x`: the forward link of the left one. -/
theorem seg_left {x : ι} (h : DList prv nxt nil head tail (l ++ x :: r)) :
    Seg prv (if prv x ≠ nil then Function.update nxt (prv x) (nxt x) else nxt) nil nil l
      (r.headD nil) := by
  have hl := (Seg.append_iff.mp h.seg).1
  obtain ⟨hp, hn⟩ := h.links
  have hnd : l.Nodup := (List.nodup_append.mp h.nodup).1
  cases hnil : l with
  | nil => trivial
  | cons y ys =>
      rw [← hnil]
      have hne : l ≠ [] := by simp [hnil]
      rw [if_pos (by rw [hp]; exact hl.ne_nil_of_mem (getLastD_mem hne nil)), hp, hn]
      exact hl.setNext _ hnd hne

/-- The links after `x` was unlinked: both neighbours that exist are rewritten. -/
theorem remove {x : ι} (h : DList prv nxt nil head tail (l ++ x :: r)) :
    DList (if nxt x ≠ nil then Function.update prv (nxt x) (prv x) else prv)
      (if prv x ≠ nil then Function.update nxt (prv x) (nxt x) else nxt) nil
      (if head = x then nxt x else head) (if tail = x then prv x else tail) (l ++ r) := by
  obtain ⟨hp, hn⟩ := h.links
  have hnd := h.nodup
  obtain ⟨hndl, hndxr, hdisj⟩ := List.nodup_append.mp hnd
  obtain ⟨hxr, hndr⟩ := List.nodup_cons.mp hndxr
  have hxl : x ∉ l := fun hx => hdisj x hx x (by simp) rfl
  have hr : Seg prv nxt nil x r nil := (Seg.append_iff.mp h.seg).2.2.2.2
  refine ⟨?_, ?_, ?_⟩
  · rw [h.head_eq, hn]
    cases l with
    | nil => simp
    | cons y ys =>
        have hyx : y ≠ x := fun e => hxl (by simp [e])
        simp [hyx]
  · rw [h.tail_eq, hp]
    cases hrr : r with
    | nil => simp [List.getLastD_eq_getLast?]
    | cons y ys =>
        have hlast : (l ++ x :: y :: ys).getLastD nil = (l ++ y :: ys).getLastD nil := by
          simp [List.getLastD_eq_getLast?]
        have hmem : (l ++ x :: y :: ys).getLastD nil ∈ y :: ys := by
          rw [show (l ++ x :: y :: ys).getLastD nil = (y :: ys).getLastD nil by
            simp [List.getLastD_eq_getLast?, List.getLast?_cons]]
          exact getLastD_mem (by simp) nil
        rw [if_neg, hlast]
        rintro e
        exact hxr (hrr ▸ e ▸ hmem)
  · rw [Seg.append_iff]
    constructor
    · -- The left part keeps its back links: the rewritten one is of an index of `r`.
      refine h.seg_left.congr (fun y hy => ?_) fun _ _ => rfl
      split
      · rename_i hne
        rw [Function.update_of_ne]
        rintro rfl
        rw [hn] at hne hy
        cases r with
        | nil => exact hne rfl
        | cons z zs => exact hdisj z hy z (by simp) rfl
      · rfl
    · cases hrr : r with
      | nil => trivial
      | cons z zs =>
          have hzr : z ∈ r := by simp [hrr]
          have hz : nxt x = z := by rw [hn, hrr]; rfl
          have hzne : z ≠ nil := hr.ne_nil_of_mem hzr
          rw [← hrr, hz, if_pos hzne, hp]
          have hset := hr.setPrev (l.getLastD nil) hndr (by simp [hrr])
          rw [show r.headD nil = z by rw [hrr]; rfl] at hset
          -- The rewritten forward link is of an index of `l`.
          refine hset.congr (fun _ _ => rfl) fun y hy => ?_
          split
          · rename_i hne
            rw [Function.update_of_ne]
            rintro rfl
            have hlne : l ≠ [] := by
              rintro rfl
              exact hne rfl
            exact hdisj _ (getLastD_mem hlne nil) _ (List.mem_cons_of_mem _ hy) rfl
          · rfl

end DList

end NebulaX.Lib
