import Mathlib.Data.List.Induction

/-!
# `NebulaX.Lib.Register`: a variable one thread writes and another reads

The reader may see the variable late. A load gives any value that was stored since the value
the reader saw last, that value included: an atomic variable never goes back for one reader.
`Register` keeps the values from the one seen last to the latest one.

`Tracks f Q r lo hi` says that the values are those of a count that grew from `lo` to `hi` and
stopped only where `Q` holds.
-/

set_option autoImplicit false

namespace NebulaX.Lib

/-- A variable with one writer and one reader. -/
structure Register (α : Type) where
  /-- What the reader saw last. -/
  seen : α
  /-- What was stored since. -/
  news : List α := []

namespace Register

variable {α : Type}

/-- The value of the variable for its writer. -/
def latest (r : Register α) : α := r.news.getLastD r.seen

/-- The writer stores a value. -/
def store (r : Register α) (v : α) : Register α := { r with news := r.news ++ [v] }

/-- The reader sees the value that was stored `k` stores after the one it saw last. -/
def load (r : Register α) : Nat → Option (α × Register α)
  | 0 => some (r.seen, r)
  | k + 1 => r.news[k]?.map fun v => (v, ⟨v, r.news.drop (k + 1)⟩)

/-- What the reader can still see. -/
def values (r : Register α) : List α := r.seen :: r.news

/-- The values are those of a count that grew from `lo` to `hi`, by stops that meet `Q`. -/
def Grows (f : Nat → α) (Q : Nat → Prop) : Nat → List α → Nat → Prop
  | lo, [], hi => lo = hi
  | lo, v :: vs, hi => ∃ k, lo ≤ k ∧ Q k ∧ v = f k ∧ Grows f Q k vs hi

/-- The values are those of a count that grew from `lo`, seen last, to `hi`. -/
def Tracks (f : Nat → α) (Q : Nat → Prop) (r : Register α) (lo hi : Nat) : Prop :=
  r.seen = f lo ∧ Q lo ∧ Grows f Q lo r.news hi

variable {f : Nat → α} {Q Q' : Nat → Prop} {r : Register α} {lo hi n : Nat} {vs : List α}

theorem Grows.le (h : Grows f Q lo vs hi) : lo ≤ hi := by
  induction vs generalizing lo with
  | nil => exact Nat.le_of_eq h
  | cons v vs ih =>
      obtain ⟨k, hk, -, -, h⟩ := h
      exact Nat.le_trans hk (ih h)

theorem Grows.getLastD (h : Grows f Q lo vs hi) : vs.getLastD (f lo) = f hi := by
  induction vs generalizing lo with
  | nil => exact congrArg f h
  | cons v vs ih =>
      obtain ⟨k, -, -, rfl, h⟩ := h
      rw [List.getLastD_cons, ih h]

theorem Grows.append (h : Grows f Q lo vs hi) (hn : hi ≤ n) (hQ : Q n) :
    Grows f Q lo (vs ++ [f n]) n := by
  induction vs generalizing lo with
  | nil => exact ⟨n, Nat.le_trans (Nat.le_of_eq h) hn, hQ, rfl, rfl⟩
  | cons v vs ih =>
      obtain ⟨k, hk, hq, hv, h⟩ := h
      exact ⟨k, hk, hq, hv, ih h⟩

theorem Grows.mono (hQ : ∀ k, Q k → Q' k) (h : Grows f Q lo vs hi) : Grows f Q' lo vs hi := by
  induction vs generalizing lo with
  | nil => exact h
  | cons v vs ih =>
      obtain ⟨k, hk, hq, hv, h⟩ := h
      exact ⟨k, hk, hQ k hq, hv, ih h⟩

theorem Grows.drop (h : Grows f Q lo vs hi) {k : Nat} {v : α} (hv : vs[k]? = some v) :
    ∃ m, lo ≤ m ∧ Q m ∧ v = f m ∧ Grows f Q m (vs.drop (k + 1)) hi := by
  induction vs generalizing lo k with
  | nil => cases hv
  | cons w vs ih =>
      obtain ⟨j, hj, hq, rfl, h⟩ := h
      cases k with
      | zero => exact ⟨j, hj, hq, (Option.some.inj hv).symm, h⟩
      | succ k =>
          obtain ⟨m, hm, hq, hvm, h⟩ := ih h hv
          exact ⟨m, Nat.le_trans hj hm, hq, hvm, h⟩

theorem tracks_init (f : Nat → α) (hQ : Q n) : Tracks f Q ⟨f n, []⟩ n n := ⟨rfl, hQ, rfl⟩

theorem Tracks.le (h : Tracks f Q r lo hi) : lo ≤ hi := h.2.2.le

theorem Grows.stop (h : Grows f Q lo vs hi) (hQ : Q lo) : Q hi := by
  induction vs generalizing lo with
  | nil => exact h ▸ hQ
  | cons v vs ih =>
      obtain ⟨k, -, hk, -, h⟩ := h
      exact ih h hk

/-- The latest count meets `Q` too. -/
theorem Tracks.stop (h : Tracks f Q r lo hi) : Q hi := h.2.2.stop h.2.1

theorem Tracks.latest (h : Tracks f Q r lo hi) : r.latest = f hi := by
  rw [Register.latest, h.1, h.2.2.getLastD]

theorem Tracks.store (h : Tracks f Q r lo hi) (hn : hi ≤ n) (hQ : Q n) :
    Tracks f Q (r.store (f n)) lo n :=
  ⟨h.1, h.2.1, h.2.2.append hn hQ⟩

theorem Tracks.mono (hQ : ∀ k, Q k → Q' k) (h : Tracks f Q r lo hi) : Tracks f Q' r lo hi :=
  ⟨h.1, hQ lo h.2.1, h.2.2.mono hQ⟩

@[simp] theorem latest_store (r : Register α) (v : α) : (r.store v).latest = v := by
  simp [Register.latest, Register.store]

@[simp] theorem latest_nil (v : α) : (⟨v, []⟩ : Register α).latest = v := rfl

/-- A reader that looks at the end sees the latest value. -/
theorem load_latest (r : Register α) : r.load r.news.length = some (r.latest, ⟨r.latest, []⟩) := by
  obtain ⟨seen, news⟩ := r
  cases news using List.reverseRecOn with
  | nil => rfl
  | append_singleton news v => simp [Register.load, Register.latest]

theorem values_store (r : Register α) (v : α) : (r.store v).values = r.values ++ [v] := rfl

/-- A load forgets what is older than the value it gives. -/
theorem suffix_of_load {k : Nat} {v : α} {r' : Register α} (hload : r.load k = some (v, r')) :
    r'.seen = v ∧ r'.values <:+ r.values := by
  cases k with
  | zero =>
      rw [Register.load, Option.some.injEq, Prod.mk.injEq] at hload
      obtain ⟨rfl, rfl⟩ := hload
      exact ⟨rfl, List.suffix_rfl⟩
  | succ k =>
      simp only [Register.load, Option.map_eq_some_iff, Prod.mk.injEq] at hload
      obtain ⟨w, hw, rfl, rfl⟩ := hload
      obtain ⟨hk, rfl⟩ := List.getElem?_eq_some_iff.mp hw
      refine ⟨rfl, List.IsSuffix.trans ?_ (List.suffix_cons _ _)⟩
      rw [values, List.getElem_cons_drop]
      exact List.drop_suffix _ _

/-- A load leaves the variable as it is. -/
theorem latest_of_load {k : Nat} {v : α} {r' : Register α} (hload : r.load k = some (v, r')) :
    r'.latest = r.latest := by
  have hlast : ∀ r : Register α, r.values.getLast? = some r.latest := fun r => by
    rw [values, Register.latest, List.getLast?_cons]
    simp [List.getLastD_eq_getLast?]
  obtain ⟨t, ht⟩ := (suffix_of_load hload).2
  have hr := hlast r
  rw [← ht, List.getLast?_append, hlast r', Option.some_or] at hr
  exact Option.some.inj hr

/-- A load gives a count between the last one seen and the latest. -/
theorem Tracks.load (h : Tracks f Q r lo hi) {k : Nat} {v : α} {r' : Register α}
    (hload : r.load k = some (v, r')) :
    ∃ m, lo ≤ m ∧ m ≤ hi ∧ v = f m ∧ Tracks f Q r' m hi := by
  cases k with
  | zero =>
      rw [Register.load, Option.some.injEq, Prod.mk.injEq] at hload
      obtain ⟨rfl, rfl⟩ := hload
      exact ⟨lo, Nat.le_refl lo, h.le, h.1, h⟩
  | succ k =>
      simp only [Register.load, Option.map_eq_some_iff, Prod.mk.injEq] at hload
      obtain ⟨w, hw, rfl, rfl⟩ := hload
      obtain ⟨m, hm, hq, hwm, hgrows⟩ := h.2.2.drop hw
      exact ⟨m, hm, hgrows.le, hwm, hwm, hq, hgrows⟩

end Register

end NebulaX.Lib
