import NebulaX.Engine.OrderPool
import NebulaX.Proofs.OrderMap

/-!
# `NebulaX.Proofs.Pool`: every slot is free or in use, once

`PoolRep pool used free` says that the slots of the pool are split between the free list
`free` and the lists `used k`, one for each place `k` that uses slots: each slot below the
capacity stands in exactly one of them, and there once. `size` counts the used ones.

The places are any type here. The engine instantiates them with the sides of its books.

* `PoolRep.ofCapacity`: the new pool, all slots free;
* `PoolRep.popped`: a slot moves from the free list to a place;
* `PoolRep.deallocate`: a slot moves back;
* `PoolRep.congr`: writes to slots that leave the free links alone change nothing.
-/

set_option autoImplicit false

namespace NebulaX

open NebulaX.Lib

namespace OrderPool

@[simp] theorem storage_modify (p : OrderPool) (idx : UInt32) (f : Order → Order) :
    (p.modify idx f).storage = Function.update p.storage idx (f (p.storage idx)) := rfl

@[simp] theorem capacity_modify (p : OrderPool) (idx : UInt32) (f : Order → Order) :
    (p.modify idx f).capacity = p.capacity := rfl

@[simp] theorem freeHead_modify (p : OrderPool) (idx : UInt32) (f : Order → Order) :
    (p.modify idx f).freeHead = p.freeHead := rfl

@[simp] theorem size_modify (p : OrderPool) (idx : UInt32) (f : Order → Order) :
    (p.modify idx f).size = p.size := rfl

@[simp] theorem capacity_deallocate (p : OrderPool) (idx : UInt32) :
    (p.deallocate idx).capacity = p.capacity := rfl

/-- The pool after `allocate` took the first free slot. -/
def popped (p : OrderPool) : OrderPool :=
  { p with
    freeHead := p.freeHead.swing (p.storage p.freeHead.idx).poolNextFree
    size := p.size + 1 }

/-- `allocate` on a free list with a first slot. -/
theorem allocate_eq {p : OrderPool} (h : p.freeHead.idx ≠ uint32Max) :
    p.allocate = (some p.freeHead.idx, p.popped) := by
  rw [allocate, if_neg h]
  rfl

@[simp] theorem storage_popped (p : OrderPool) : p.popped.storage = p.storage := rfl

@[simp] theorem capacity_popped (p : OrderPool) : p.popped.capacity = p.capacity := rfl

/-- The number of free slots. -/
def freeCount (p : OrderPool) : Nat := p.capacity - p.size.toNat

end OrderPool

/-- The slots of the pool, split into free ones and used ones. -/
structure PoolRep {κ : Type} (pool : OrderPool) (used : κ → List UInt32)
    (free : List UInt32) : Prop where
  chain : Chain (fun i => (pool.storage i).poolNextFree) uint32Max pool.freeHead.idx free
  nodup : ∀ k, (used k).Nodup
  disjoint : ∀ k k' i, i ∈ used k → i ∈ used k' → k = k'
  notFree : ∀ k i, i ∈ used k → i ∉ free
  cover : ∀ i : UInt32, i.toNat < pool.capacity → i ∈ free ∨ ∃ k, i ∈ used k
  lt : ∀ k i, i ∈ used k → i.toNat < pool.capacity
  freeLt : ∀ i ∈ free, i.toNat < pool.capacity
  size : pool.size.toNat + free.length = pool.capacity
  capacity : pool.capacity ≤ 2 ^ 31

namespace PoolRep

variable {κ : Type} {pool pool' : OrderPool} {used used' : κ → List UInt32}
variable {free : List UInt32} {i : UInt32}

/-- A new pool. -/
theorem ofCapacity {c : Nat} (h2 : 2 ≤ c) (hc : c ≤ 2 ^ 31) :
    PoolRep (OrderPool.ofCapacity c) (fun _ : κ => []) ((List.range' 0 c).map UInt32.ofNat) where
  chain := chain_init h2 hc
  nodup _ := List.nodup_nil
  disjoint _ _ _ h := by simp at h
  notFree _ _ h := by simp at h
  cover i hi := Or.inl (List.mem_map.mpr ⟨i.toNat, by
    rw [List.mem_range'_1]
    exact ⟨Nat.zero_le _, by simpa [OrderPool.ofCapacity] using hi⟩, by simp⟩)
  lt _ _ h := by simp at h
  freeLt x hx := by
    obtain ⟨i, hi, rfl⟩ := List.mem_map.mp hx
    rw [List.mem_range'_1] at hi
    rw [toNat_ofNat_of_lt hc (by omega)]
    show i < c
    omega
  size := by simp [OrderPool.ofCapacity]
  capacity := hc

/-- A used slot is an array index. -/
theorem ne_nil (h : PoolRep pool used free) {k : κ} (hi : i ∈ used k) : i ≠ uint32Max := by
  rintro rfl
  have hlt := h.lt k _ hi
  have hcap := h.capacity
  simp only [uint32Max, UInt32.reduceToNat] at hlt
  omega

/-- The number of free slots is the length of the free list. -/
theorem freeCount_eq (h : PoolRep pool used free) : pool.freeCount = free.length := by
  have hs := h.size
  unfold OrderPool.freeCount
  omega

/-- `allocate` fails exactly on an empty free list. -/
theorem head_eq_nil_iff (h : PoolRep pool used free) :
    pool.freeHead.idx = uint32Max ↔ free = [] := by
  constructor
  · intro e
    have hc := h.chain
    rw [e] at hc
    exact hc.eq_nil_of_head
  · rintro rfl
    exact h.chain

/-- The writes of the book leave the free links alone. -/
theorem congr (h : PoolRep pool used free) (hcap : pool'.capacity = pool.capacity)
    (hhead : pool'.freeHead = pool.freeHead) (hsize : pool'.size = pool.size)
    (hnext : ∀ i ∈ free, (pool'.storage i).poolNextFree = (pool.storage i).poolNextFree) :
    PoolRep pool' used free where
  chain := by
    rw [hhead]
    exact h.chain.congr hnext
  nodup := h.nodup
  disjoint := h.disjoint
  notFree := h.notFree
  cover i hi := h.cover i (hcap ▸ hi)
  lt k i hi := hcap ▸ h.lt k i hi
  freeLt i hi := hcap ▸ h.freeLt i hi
  size := by
    rw [hsize, hcap]
    exact h.size
  capacity := hcap ▸ h.capacity

variable [DecidableEq κ]

/-- `allocate` takes the first free slot, and the caller puts it somewhere in the list of a
place. -/
theorem popped (h : PoolRep pool used (i :: free)) {k : κ} {l r : List UInt32}
    (hk : used k = l ++ r) :
    PoolRep pool.popped (Function.update used k (l ++ i :: r)) free ∧
      pool.popped.freeCount = pool.freeCount - 1 := by
  obtain ⟨hhead, hne, hrest⟩ := h.chain
  have hnd := List.nodup_cons.mp h.chain.nodup
  have hsize := h.size
  have hcap := h.capacity
  rw [List.length_cons] at hsize
  have hadd : (pool.size + 1).toNat = pool.size.toNat + 1 := by
    rw [UInt64.toNat_add]
    simp only [UInt64.reduceToNat]
    omega
  refine ⟨?_, ?_⟩
  · have hmem : ∀ k' j, j ∈ Function.update used k (l ++ i :: r) k' ↔
        (k' = k ∧ j = i) ∨ j ∈ used k' := by
      intro k' j
      by_cases hk' : k' = k
      · subst hk'
        rw [Function.update_self, hk]
        simp only [List.mem_append, List.mem_cons]
        tauto
      · rw [Function.update_of_ne hk']
        simp [hk']
    constructor
    case chain =>
      show Chain _ uint32Max (pool.storage pool.freeHead.idx).poolNextFree free
      rw [hhead]
      exact hrest
    case nodup =>
      intro k'
      by_cases hk' : k' = k
      · subst hk'
        rw [Function.update_self]
        refine List.nodup_middle.mpr (List.nodup_cons.mpr ⟨fun hi => ?_, hk ▸ h.nodup k'⟩)
        exact h.notFree k' i (hk ▸ hi) (by simp)
      · rw [Function.update_of_ne hk']
        exact h.nodup k'
    case disjoint =>
      intro a b j ha hb
      rw [hmem] at ha hb
      rcases ha with ⟨rfl, rfl⟩ | ha
      · rcases hb with ⟨rfl, -⟩ | hb
        · rfl
        · exact absurd (by simp) (h.notFree b j hb)
      · rcases hb with ⟨rfl, rfl⟩ | hb
        · exact absurd (by simp) (h.notFree a j ha)
        · exact h.disjoint a b j ha hb
    case notFree =>
      intro a j ha
      rcases (hmem a j).mp ha with ⟨-, rfl⟩ | ha
      · exact hnd.1
      · exact fun hj => h.notFree a j ha (by simp [hj])
    case cover =>
      intro j hj
      rcases h.cover j hj with hj | ⟨a, ha⟩
      · rcases List.mem_cons.mp hj with rfl | hj
        · exact Or.inr ⟨k, (hmem k j).mpr (Or.inl ⟨rfl, rfl⟩)⟩
        · exact Or.inl hj
      · exact Or.inr ⟨a, (hmem a j).mpr (Or.inr ha)⟩
    case lt =>
      intro a j ha
      rcases (hmem a j).mp ha with ⟨-, rfl⟩ | ha
      · exact h.freeLt j (by simp)
      · exact h.lt a j ha
    case freeLt => exact fun j hj => h.freeLt j (by simp [hj])
    case size =>
      show (pool.size + 1).toNat + free.length = pool.capacity
      omega
    case capacity => exact hcap
  · show pool.capacity - (pool.size + 1).toNat = pool.capacity - pool.size.toNat - 1
    omega

/-- `deallocate` returns a slot of a place to the free list. -/
theorem deallocate (h : PoolRep pool used free) {k : κ} {l r : List UInt32}
    (hk : used k = l ++ i :: r) :
    PoolRep (pool.deallocate i) (Function.update used k (l ++ r)) (i :: free) ∧
      (pool.deallocate i).freeCount = pool.freeCount + 1 := by
  have hik : i ∈ used k := by simp [hk]
  have hifree := h.notFree k i hik
  have hnd : (l ++ i :: r).Nodup := hk ▸ h.nodup k
  have hilr : i ∉ l ++ r := (List.nodup_cons.mp (List.nodup_middle.mp hnd)).1
  have hmem : ∀ k' j, j ∈ Function.update used k (l ++ r) k' ↔ j ∈ used k' ∧ j ≠ i := by
    intro k' j
    by_cases hk' : k' = k
    · subst hk'
      rw [Function.update_self, hk]
      constructor
      · intro hj
        refine ⟨?_, fun e => hilr (e ▸ hj)⟩
        simp only [List.mem_append, List.mem_cons] at hj ⊢
        tauto
      · rintro ⟨hj, hji⟩
        simp only [List.mem_append, List.mem_cons] at hj ⊢
        tauto
    · rw [Function.update_of_ne hk']
      refine ⟨fun hj => ⟨hj, ?_⟩, And.left⟩
      rintro rfl
      exact hk' (h.disjoint k' k j hj hik)
  have hsize := h.size
  have hcap := h.capacity
  -- A used slot means that `size` is positive: the free list is not the whole pool.
  have hlen : (i :: free).length ≤ pool.capacity := by
    refine length_le_of_nodup (List.nodup_cons.mpr ⟨hifree, h.chain.nodup⟩) fun j hj => ?_
    rcases List.mem_cons.mp hj with rfl | hj
    · exact h.lt k j hik
    · exact h.freeLt j hj
  rw [List.length_cons] at hlen
  have hsub : (pool.size - 1).toNat = pool.size.toNat - 1 := by
    rw [UInt64.toNat_sub_of_le _ _ (by rw [UInt64.le_iff_toNat_le]; simp; omega)]
    rfl
  refine ⟨?_, ?_⟩
  · constructor
    case chain =>
      refine (h.chain.push (h.ne_nil hik) hifree).congr fun j _ => ?_
      by_cases hj : j = i
      · subst hj
        simp [OrderPool.deallocate]
      · simp [OrderPool.deallocate, hj]
    case nodup =>
      intro k'
      by_cases hk' : k' = k
      · subst hk'
        rw [Function.update_self]
        exact (List.nodup_cons.mp (List.nodup_middle.mp hnd)).2
      · rw [Function.update_of_ne hk']
        exact h.nodup k'
    case disjoint =>
      exact fun a b j ha hb => h.disjoint a b j ((hmem a j).mp ha).1 ((hmem b j).mp hb).1
    case notFree =>
      intro a j ha hj
      obtain ⟨ha, hji⟩ := (hmem a j).mp ha
      rcases List.mem_cons.mp hj with rfl | hj
      · exact hji rfl
      · exact h.notFree a j ha hj
    case cover =>
      intro j hj
      by_cases hji : j = i
      · exact Or.inl (by simp [hji])
      · rcases h.cover j hj with hj | ⟨a, ha⟩
        · exact Or.inl (by simp [hj])
        · exact Or.inr ⟨a, (hmem a j).mpr ⟨ha, hji⟩⟩
    case lt => exact fun a j ha => h.lt a j ((hmem a j).mp ha).1
    case freeLt =>
      intro j hj
      rcases List.mem_cons.mp hj with rfl | hj
      · exact h.lt k j hik
      · exact h.freeLt j hj
    case size =>
      show (pool.size - 1).toNat + (i :: free).length = pool.capacity
      rw [List.length_cons]
      omega
    case capacity => exact hcap
  · show pool.capacity - (pool.size - 1).toNat = pool.capacity - pool.size.toNat + 1
    omega

end PoolRep

end NebulaX
