import Mathlib.Order.Defs.Unbundled

/-!
# `NebulaX.Lib.SortedMap`: an ordered map as a sorted association list

`SortedMap κ ν lt` is the content of an ordered map in iteration order: the entries,
smallest key first, with a proof that the keys strictly increase. The proof is a field,
so an unsorted or a duplicated key cannot be built, and two maps with the same entries
are equal (`SortedMap.ext`).

The operations are the ones of a balanced tree map, seen from outside: `find?`, `insert`
(insert or assign), `erase`. Each has two kinds of lemmas:

* what `find?` answers afterwards (`find?_insert`, `find?_erase`);
* where the entry list changes (`entries_of_find?_eq_some`, `insert_of_find?_eq_none`).
  The list form is the one a caller needs that iterates over the map: every entry but the
  addressed one keeps its place.

The module is generic in the key order, the key and the value type.
-/

set_option autoImplicit false

namespace NebulaX.Lib

variable {κ ν : Type} {k : κ} {v : ν} {l pre post : List (κ × ν)}

/-- The entries of an ordered map: keys strictly increasing along `lt`. -/
@[ext] structure SortedMap (κ ν : Type) (lt : κ → κ → Prop) where
  /-- The key-value pairs in iteration order. -/
  entries : List (κ × ν)
  /-- Every key is strictly before every later one. -/
  sorted : entries.Pairwise fun a b => lt a.1 b.1

namespace SortedMap

/-! ### The operations on the entry list -/

/-- The value at `k`. -/
def lookupEntry [DecidableEq κ] (k : κ) : List (κ × ν) → Option ν
  | [] => none
  | (k', v) :: rest => if k' = k then some v else lookupEntry k rest

/-- Insert `(k, v)` at its place, or assign `v` when `k` is there. -/
def insertEntry (lt : κ → κ → Prop) [DecidableRel lt] (k : κ) (v : ν) :
    List (κ × ν) → List (κ × ν)
  | [] => [(k, v)]
  | (k', v') :: rest =>
      if lt k' k then (k', v') :: insertEntry lt k v rest
      else if lt k k' then (k, v) :: (k', v') :: rest
      else (k, v) :: rest

/-- Drop the entry at `k`. -/
def eraseEntry [DecidableEq κ] (k : κ) : List (κ × ν) → List (κ × ν)
  | [] => []
  | (k', v) :: rest => if k' = k then rest else (k', v) :: eraseEntry k rest

/-- A key of the entry list after an insert is the inserted one or an old one. -/
theorem mem_insertEntry (lt : κ → κ → Prop) [DecidableRel lt] (k : κ) (v : ν)
    (l : List (κ × ν)) (x : κ × ν) (h : x ∈ insertEntry lt k v l) : x = (k, v) ∨ x ∈ l := by
  induction l with
  | nil => simpa [insertEntry] using h
  | cons e rest ih =>
      obtain ⟨k', v'⟩ := e
      simp only [insertEntry] at h
      split at h
      · rcases List.mem_cons.mp h with h | h
        · exact Or.inr (by simp [h])
        · rcases ih h with h | h
          · exact Or.inl h
          · exact Or.inr (by simp [h])
      · split at h
        · simpa using h
        · rcases List.mem_cons.mp h with h | h
          · exact Or.inl h
          · exact Or.inr (by simp [h])

/-- The entries after an erase are a sublist. -/
theorem eraseEntry_sublist [DecidableEq κ] (k : κ) (l : List (κ × ν)) :
    (eraseEntry k l).Sublist l := by
  induction l with
  | nil => exact List.Sublist.refl _
  | cons e rest ih =>
      obtain ⟨k', v'⟩ := e
      simp only [eraseEntry]
      split
      · exact List.sublist_cons_self _ _
      · exact ih.cons_cons _

section
variable {lt : κ → κ → Prop} [DecidableRel lt] [IsStrictTotalOrder κ lt]

/-- An insert keeps the keys sorted. -/
theorem pairwise_insertEntry (k : κ) (v : ν) (l : List (κ × ν))
    (h : l.Pairwise fun a b => lt a.1 b.1) :
    (insertEntry lt k v l).Pairwise fun a b => lt a.1 b.1 := by
  induction l with
  | nil => simp [insertEntry]
  | cons e rest ih =>
      obtain ⟨k', v'⟩ := e
      obtain ⟨hhead, hrest⟩ := List.pairwise_cons.mp h
      simp only [insertEntry]
      split
      · rename_i hlt
        refine List.pairwise_cons.mpr ⟨fun x hx => ?_, ih hrest⟩
        rcases mem_insertEntry lt k v rest x hx with rfl | hx
        · exact hlt
        · exact hhead x hx
      · split
        · rename_i hlt
          refine List.pairwise_cons.mpr ⟨fun x hx => ?_, h⟩
          rcases List.mem_cons.mp hx with rfl | hx
          · exact hlt
          · exact IsTrans.trans _ _ _ hlt (hhead x hx)
        · rename_i hge hle
          have hk : k' = k := Std.Trichotomous.trichotomous (r := lt) k' k hge hle
          subst hk
          exact List.pairwise_cons.mpr ⟨hhead, hrest⟩

end

/-! ### The map operations -/

section
variable {lt : κ → κ → Prop}

/-- The empty map. -/
def empty : SortedMap κ ν lt := ⟨[], List.Pairwise.nil⟩

instance : Inhabited (SortedMap κ ν lt) := ⟨empty⟩

@[simp] theorem entries_empty : (empty : SortedMap κ ν lt).entries = [] := rfl

variable [DecidableEq κ]

/-- The value stored at `k`. -/
def find? (m : SortedMap κ ν lt) (k : κ) : Option ν := lookupEntry k m.entries

/-- Remove the entry at `k`; a map without `k` stays as it is. -/
def erase (m : SortedMap κ ν lt) (k : κ) : SortedMap κ ν lt :=
  ⟨eraseEntry k m.entries, m.sorted.sublist (eraseEntry_sublist k m.entries)⟩

@[simp] theorem entries_erase (m : SortedMap κ ν lt) (k : κ) :
    (m.erase k).entries = eraseEntry k m.entries := rfl

end

section
variable {lt : κ → κ → Prop} [DecidableRel lt] [IsStrictTotalOrder κ lt]

/-- Store `v` at `k`, in place when `k` has an entry. -/
def insert (m : SortedMap κ ν lt) (k : κ) (v : ν) : SortedMap κ ν lt :=
  ⟨insertEntry lt k v m.entries, pairwise_insertEntry k v m.entries m.sorted⟩

@[simp] theorem entries_insert (m : SortedMap κ ν lt) (k : κ) (v : ν) :
    (m.insert k v).entries = insertEntry lt k v m.entries := rfl

end

/-! ### Where the entry list changes -/

section
variable [DecidableEq κ]

/-- A key with a value has its entry in the list; the entries before it have other keys. -/
theorem split_of_lookupEntry_eq_some (h : lookupEntry k l = some v) :
    ∃ pre post, l = pre ++ (k, v) :: post ∧ ∀ x ∈ pre, x.1 ≠ k := by
  induction l with
  | nil => simp [lookupEntry] at h
  | cons e rest ih =>
      obtain ⟨k', v'⟩ := e
      simp only [lookupEntry] at h
      split at h
      · rename_i hk
        subst hk
        simp only [Option.some.injEq] at h
        subst h
        exact ⟨[], rest, by simp⟩
      · rename_i hk
        obtain ⟨pre, post, rfl, hpre⟩ := ih h
        refine ⟨(k', v') :: pre, post, by simp, ?_⟩
        intro x hx
        rcases List.mem_cons.mp hx with rfl | hx
        · exact hk
        · exact hpre x hx

/-- A key without a value is no key of the list. -/
theorem lookupEntry_eq_none_iff :
    lookupEntry k l = none ↔ ∀ x ∈ l, x.1 ≠ k := by
  induction l with
  | nil => simp [lookupEntry]
  | cons e rest ih =>
      obtain ⟨k', v'⟩ := e
      by_cases hk : k' = k <;> simp [lookupEntry, hk, ih]

/-- Lookup skips a prefix without the key. -/
theorem lookupEntry_append_of_forall_ne (h : ∀ x ∈ pre, x.1 ≠ k) :
    lookupEntry k (pre ++ l) = lookupEntry k l := by
  induction pre with
  | nil => rfl
  | cons e pre ih =>
      simp only [List.cons_append, lookupEntry, if_neg (h e (by simp))]
      exact ih fun x hx => h x (by simp [hx])

/-- Erase at a split. -/
theorem eraseEntry_split (hpre : ∀ x ∈ pre, x.1 ≠ k) :
    eraseEntry k (pre ++ (k, v) :: post) = pre ++ post := by
  induction pre with
  | nil => simp [eraseEntry]
  | cons e pre ih =>
      simp only [List.cons_append, eraseEntry, if_neg (hpre e (by simp))]
      rw [ih fun x hx => hpre x (by simp [hx])]

/-- Erasing an absent key changes nothing. -/
theorem eraseEntry_of_forall_ne (h : ∀ x ∈ l, x.1 ≠ k) :
    eraseEntry k l = l := by
  induction l with
  | nil => rfl
  | cons e rest ih =>
      simp only [eraseEntry, if_neg (h e (by simp))]
      rw [ih fun x hx => h x (by simp [hx])]

end

section
variable {lt : κ → κ → Prop} [IsStrictTotalOrder κ lt] [DecidableEq κ]

/-- An entry of the list is what `find?` answers at its key. -/
theorem mem_entries_iff {m : SortedMap κ ν lt} :
    (k, v) ∈ m.entries ↔ m.find? k = some v := by
  constructor
  · intro hmem
    obtain ⟨pre, post, hl⟩ := List.append_of_mem hmem
    have hs := m.sorted
    rw [hl, List.pairwise_append] at hs
    have hpre : ∀ x ∈ pre, x.1 ≠ k := by
      intro x hx hk
      have hlt : lt x.1 k := hs.2.2 x hx (k, v) (by simp)
      exact irrefl_of lt k (hk ▸ hlt)
    show lookupEntry k m.entries = some v
    rw [hl, lookupEntry_append_of_forall_ne hpre]
    simp [lookupEntry]
  · intro h
    obtain ⟨pre, post, hl, -⟩ := split_of_lookupEntry_eq_some h
    simp [hl]

/-- The value at the key a list is split at. -/
theorem find?_of_entries_split {m : SortedMap κ ν lt} (h : m.entries = pre ++ (k, v) :: post) :
    m.find? k = some v :=
  mem_entries_iff.mp (by simp [h])

end

section
variable {lt : κ → κ → Prop} [DecidableRel lt] [IsStrictTotalOrder κ lt]

/-- Assign at a split: only the value of the entry changes. -/
theorem insertEntry_split {w : ν} (hpre : ∀ x ∈ pre, lt x.1 k) :
    insertEntry lt k w (pre ++ (k, v) :: post) = pre ++ (k, w) :: post := by
  induction pre with
  | nil => simp [insertEntry, irrefl_of lt k]
  | cons e pre ih =>
      obtain ⟨k', v'⟩ := e
      have hlt : lt k' k := hpre (k', v') (by simp)
      simp only [List.cons_append, insertEntry, if_pos hlt]
      rw [ih fun x hx => hpre x (by simp [hx])]

/-- Insert of an absent key: the list splits at the key's place. -/
theorem insertEntry_of_forall_ne (hs : l.Pairwise fun a b => lt a.1 b.1) (h : ∀ x ∈ l, x.1 ≠ k) :
    ∃ pre post, l = pre ++ post ∧ (∀ x ∈ pre, lt x.1 k) ∧ (∀ x ∈ post, lt k x.1) ∧
      ∀ v, insertEntry lt k v l = pre ++ (k, v) :: post := by
  induction l with
  | nil => exact ⟨[], [], rfl, by simp, by simp, fun v => rfl⟩
  | cons e rest ih =>
      obtain ⟨k', v'⟩ := e
      obtain ⟨hhead, hrest⟩ := List.pairwise_cons.mp hs
      by_cases hlt : lt k' k
      · obtain ⟨pre, post, hl, hpre, hpost, hins⟩ := ih hrest fun x hx => h x (by simp [hx])
        refine ⟨(k', v') :: pre, post, by simp [hl], ?_, hpost, ?_⟩
        · intro x hx
          rcases List.mem_cons.mp hx with rfl | hx
          · exact hlt
          · exact hpre x hx
        · intro v
          simp only [insertEntry, if_pos hlt, hins v, List.cons_append]
      · have hgt : lt k k' := Decidable.byContradiction fun hgt =>
          h (k', v') (by simp) (Std.Trichotomous.trichotomous (r := lt) k' k hlt hgt)
        refine ⟨[], (k', v') :: rest, rfl, by simp, ?_, ?_⟩
        · intro x hx
          rcases List.mem_cons.mp hx with rfl | hx
          · exact hgt
          · exact IsTrans.trans _ _ _ hgt (hhead x hx)
        · intro v
          simp only [insertEntry, if_neg hlt, if_pos hgt, List.nil_append]

variable [DecidableEq κ]

/-- The list around a present key: the entry splits the list, an assignment changes its
value only, and an erase drops it only. -/
theorem entries_of_find?_eq_some {m : SortedMap κ ν lt} (h : m.find? k = some v) :
    ∃ pre post, m.entries = pre ++ (k, v) :: post ∧ (∀ x ∈ pre, lt x.1 k) ∧
      (∀ x ∈ post, lt k x.1) ∧
      (∀ w, (m.insert k w).entries = pre ++ (k, w) :: post) ∧
      (m.erase k).entries = pre ++ post := by
  obtain ⟨pre, post, hl, hne⟩ := split_of_lookupEntry_eq_some h
  have hs := m.sorted
  rw [hl, List.pairwise_append] at hs
  have hpre : ∀ x ∈ pre, lt x.1 k := fun x hx => hs.2.2 x hx (k, v) (by simp)
  have hpost : ∀ x ∈ post, lt k x.1 := (List.pairwise_cons.mp hs.2.1).1
  refine ⟨pre, post, hl, hpre, hpost, ?_, ?_⟩
  · intro w
    rw [entries_insert, hl, insertEntry_split hpre]
  · rw [entries_erase, hl, eraseEntry_split hne]

/-- The list around an absent key: an insert puts the entry at its place. -/
theorem insert_of_find?_eq_none {m : SortedMap κ ν lt} (h : m.find? k = none) :
    ∃ pre post, m.entries = pre ++ post ∧ (∀ x ∈ pre, lt x.1 k) ∧ (∀ x ∈ post, lt k x.1) ∧
      ∀ v, (m.insert k v).entries = pre ++ (k, v) :: post :=
  insertEntry_of_forall_ne m.sorted (lookupEntry_eq_none_iff.mp h)

/-! ### What `find?` answers afterwards -/

/-- Storing what is stored changes nothing. -/
theorem insert_of_find?_eq_some {m : SortedMap κ ν lt} (h : m.find? k = some v) :
    m.insert k v = m := by
  obtain ⟨pre, post, hsplit, -, -, hins, -⟩ := entries_of_find?_eq_some h
  obtain ⟨entries, sorted⟩ := m
  simp only [insert, SortedMap.mk.injEq]
  exact (hins v).trans hsplit.symm

/-- Lookup after an insert. -/
theorem find?_insert (m : SortedMap κ ν lt) (k k' : κ) (v : ν) :
    (m.insert k v).find? k' = if k' = k then some v else m.find? k' := by
  split
  · rename_i hk
    subst hk
    cases hf : m.find? k' with
    | none =>
        obtain ⟨pre, post, -, -, -, hins⟩ := insert_of_find?_eq_none hf
        exact find?_of_entries_split (hins v)
    | some u =>
        obtain ⟨pre, post, -, -, -, hins, -⟩ := entries_of_find?_eq_some hf
        exact find?_of_entries_split (hins v)
  · rename_i hk
    apply Option.ext
    intro u
    rw [← mem_entries_iff, ← mem_entries_iff]
    have hne : (k', u) ≠ (k, v) := fun e => hk (Prod.mk.inj e).1
    cases hf : m.find? k with
    | none =>
        obtain ⟨pre, post, hl, -, -, hins⟩ := insert_of_find?_eq_none hf
        rw [hins v, hl]
        simp [hk]
    | some w =>
        obtain ⟨pre, post, hl, -, -, hins, -⟩ := entries_of_find?_eq_some hf
        rw [hins v, hl]
        simp [hk]

/-- Lookup after an erase. -/
theorem find?_erase (m : SortedMap κ ν lt) (k k' : κ) :
    (m.erase k).find? k' = if k' = k then none else m.find? k' := by
  cases hf : m.find? k with
  | none =>
      have he : m.erase k = m := SortedMap.ext (by
        rw [entries_erase, eraseEntry_of_forall_ne (lookupEntry_eq_none_iff.mp hf)])
      rw [he]
      split
      · rename_i hk
        rw [hk, hf]
      · rfl
  | some w =>
      obtain ⟨pre, post, hl, hpre, hpost, -, her⟩ := entries_of_find?_eq_some hf
      apply Option.ext
      intro u
      rw [← mem_entries_iff, her]
      split
      · rename_i hk
        subst hk
        simp only [List.mem_append, reduceCtorEq, iff_false, not_or]
        exact ⟨fun hx => irrefl_of lt k' (hpre _ hx), fun hx => irrefl_of lt k' (hpost _ hx)⟩
      · rename_i hk
        rw [← mem_entries_iff, hl]
        simp [hk]

end

end SortedMap

end NebulaX.Lib
