import Mathlib.Data.List.Perm.Subperm
import NebulaX.Engine.OrderMap
import NebulaX.Lib.Chain

/-!
# `NebulaX.Proofs.OrderMap`: the index is a finite map

`OrderMap.Rep m chains free` is the representation invariant of the hash table: every
bucket in chain state holds the node list `chains b`, the free nodes are the list `free`,
and the entries of `overflow` belong to converted buckets. Nodes of a converted bucket
appear nowhere in it: nobody reads them again and nobody returns them.

`lookup` is what `find` answers. The three operations are then stated through it:

* `find_eq_lookup`: `find` ends, and no node of another bucket is met;
* `insert_spec`: an insert of an absent key stores it, or is dropped and changes nothing.
  `DropsInsert` is the exact condition of the drop: a chain bucket, no free node, and a tag
  other than 0, so that the exhaustion test does not see the empty node pool;
* `erase_spec`: an erase removes the key and nothing else.

Everything else in the development uses these three lemmas and `Wf`, never the table.
-/

set_option autoImplicit false

namespace NebulaX

open NebulaX.Lib

variable {m : OrderMap} {chains : UInt32 → List UInt32} {free l r xs : List UInt32} {k : UInt64}
variable {b idx x v : UInt32} {c fuel : Nat}

/-- A duplicate-free list of indices below `c` has at most `c` elements. -/
theorem length_le_of_nodup (hnd : xs.Nodup) (hlt : ∀ x ∈ xs, x.toNat < c) : xs.length ≤ c := by
  have hnd' : (xs.map UInt32.toNat).Nodup := hnd.map fun _ _ h => UInt32.toNat_inj.mp h
  have hsub : xs.map UInt32.toNat ⊆ List.range c := by
    intro n hn
    obtain ⟨x, hx, rfl⟩ := List.mem_map.mp hn
    exact List.mem_range.mpr (hlt x hx)
  have hle := (List.Nodup.subperm hnd' hsub).length_le
  simpa using hle

namespace OrderMap

/-- The links of the node array. -/
def next (m : OrderMap) (i : UInt32) : UInt32 := (m.nodes i).nextIdx

/-- The answer of `find`: the slot stored under a key. -/
def lookup (m : OrderMap) (k : UInt64) : Option UInt32 := (m.find k).join

/-- The table holds the node lists `chains` and the free nodes `free`. -/
structure Rep (m : OrderMap) (chains : UInt32 → List UInt32) (free : List UInt32) : Prop where
  chain : ∀ b, m.state b = .chain → Chain m.next uint32Max (m.buckets b) (chains b)
  freeChain : Chain m.next uint32Max m.freeHead.idx free
  bucket : ∀ b, m.state b = .chain → ∀ x ∈ chains b,
    (m.nodes x).bucket = b ∧ m.hash (m.nodes x).orderId = b
  keys : ∀ b, m.state b = .chain → ((chains b).map fun x => (m.nodes x).orderId).Nodup
  len : ∀ b, m.state b = .chain → (m.bucketLen b).toNat = (chains b).length
  disjoint : ∀ b, m.state b = .chain → ∀ x ∈ chains b, x ∉ free
  lt : ∀ b, m.state b = .chain → ∀ x ∈ chains b, x.toNat < m.capacity
  freeLt : ∀ x ∈ free, x.toNat < m.capacity
  overflow : ∀ k v, m.overflow.find? k = some v → m.state (m.hash k) ≠ .chain

/-- Every chain is below the conversion threshold. -/
def Short (m : OrderMap) (chains : UInt32 → List UInt32) : Prop :=
  ∀ b, m.state b = .chain → (chains b).length < 8

/-- The representation invariant between two calls. -/
def Wf (m : OrderMap) : Prop := ∃ chains free, m.Rep chains free ∧ m.Short chains

/-- `insert` drops an entry of this key: the bucket is a chain, no node is free, and the
tag of the free head is not 0, so the 64-bit comparison with `UINT32_MAX` fails. -/
def DropsInsert (m : OrderMap) (k : UInt64) : Prop :=
  m.state (m.hash k) = .chain ∧ m.freeHead.idx = uint32Max ∧ m.freeHead.tag ≠ 0

instance (m : OrderMap) (k : UInt64) : Decidable (m.DropsInsert k) :=
  inferInstanceAs (Decidable (_ ∧ _ ∧ _))

/-! ### `find` -/

/-- The first node of a list that holds the key. -/
def nodeOf (m : OrderMap) (k : UInt64) (xs : List UInt32) : Option UInt32 :=
  xs.find? fun x => (m.nodes x).orderId = k

/-- The chain walk of `find` along a chain of its own bucket. -/
theorem findLoop_eq (hc : Chain m.next uint32Max idx xs) (hb : ∀ x ∈ xs, (m.nodes x).bucket = b)
    (hf : xs.length < fuel) :
    m.findLoop b k fuel idx = some ((m.nodeOf k xs).map fun x => (m.nodes x).order) := by
  refine Chain.loop_induction (motive := fun fuel idx xs => (∀ x ∈ xs, (m.nodes x).bucket = b) →
    m.findLoop b k fuel idx = some ((m.nodeOf k xs).map fun x => (m.nodes x).order))
    ?_ ?_ hc hf hb
  · intro fuel _
    exact if_pos rfl
  · intro fuel x xs hne ih hb
    simp only [findLoop, if_neg hne, hb x (by simp), ne_eq, not_true_eq_false, if_false, nodeOf,
      List.find?_cons]
    by_cases hk : (m.nodes x).orderId = k
    · simp [hk]
    · simp only [hk, if_false, decide_false]
      exact ih fun y hy => hb y (by simp [hy])

/-- A chain fits into the step bound of the walks. -/
theorem Rep.length_lt (h : m.Rep chains free) (hb : m.state b = .chain) :
    (chains b).length < m.capacity + 1 :=
  Nat.lt_succ_of_le (length_le_of_nodup (h.chain b hb).nodup (h.lt b hb))

/-- `find` on a well-formed table. -/
theorem Rep.find_eq (h : m.Rep chains free) (k : UInt64) :
    m.find k = some (if m.state (m.hash k) = .chain then
      (m.nodeOf k (chains (m.hash k))).map fun x => (m.nodes x).order
      else m.overflow.find? k) := by
  unfold find
  by_cases hs : m.state (m.hash k) = .chain
  · simp only [hs, ne_eq, not_true_eq_false, if_false, if_true]
    exact findLoop_eq (h.chain _ hs) (fun x hx => (h.bucket _ hs x hx).1) (h.length_lt hs)
  · simp [hs]

/-- `lookup` in a chain bucket. -/
theorem Rep.lookup_chain (h : m.Rep chains free) (hs : m.state (m.hash k) = .chain) :
    m.lookup k = (m.nodeOf k (chains (m.hash k))).map fun x => (m.nodes x).order := by
  simp [lookup, h.find_eq k, hs]

/-- `lookup` in a converted bucket. -/
theorem Rep.lookup_overflow (h : m.Rep chains free) (hs : m.state (m.hash k) ≠ .chain) :
    m.lookup k = m.overflow.find? k := by
  simp [lookup, h.find_eq k, hs]

/-- An absent key of a chain bucket is held by no node of the chain. -/
theorem Rep.key_ne_of_lookup_none (h : m.Rep chains free) (hs : m.state (m.hash k) = .chain)
    (hk : m.lookup k = none) :
    ∀ x ∈ chains (m.hash k), (m.nodes x).orderId ≠ k := by
  rw [h.lookup_chain hs, Option.map_eq_none_iff, nodeOf, List.find?_eq_none] at hk
  intro x hx
  simpa using hk x hx

/-- The node list lookup over a cut list: the first part wins. -/
theorem nodeOf_append (k : UInt64) (l r : List UInt32) :
    m.nodeOf k (l ++ r) = (m.nodeOf k l).or (m.nodeOf k r) := by
  simp [nodeOf, List.find?_append]

/-- The node list lookup reads only the keys of the listed nodes. -/
theorem nodeOf_congr {m' : OrderMap} (h : ∀ x ∈ xs, (m'.nodes x).orderId = (m.nodes x).orderId) :
    m'.nodeOf k xs = m.nodeOf k xs := by
  induction xs with
  | nil => rfl
  | cons x xs ih =>
      have hxs := ih fun y hy => h y (by simp [hy])
      simp only [nodeOf, List.find?_cons, h x (by simp)] at hxs ⊢
      rw [hxs]

/-- The node found is in the list. -/
theorem mem_of_nodeOf (h : m.nodeOf k xs = some x) : x ∈ xs :=
  List.mem_of_find?_eq_some h

/-- `find` ends on a well-formed table. -/
theorem find_eq_lookup (h : m.Wf) (k : UInt64) :
    m.find k = some (m.lookup k) := by
  obtain ⟨chains, free, hrep, -⟩ := h
  simp [lookup, hrep.find_eq k]

/-! ### `erase` -/

/-- The table after node `x` was unlinked from the chain of bucket `b`: `nodes` and
`buckets` are the arrays with the links joined around `x`, before `dropNode` returns the
node. -/
def unlinked (m : OrderMap) (nodes : UInt32 → Node) (buckets : UInt32 → UInt32) : OrderMap :=
  { m with nodes := nodes, buckets := buckets }

/-- The joined arrays: only links of nodes of bucket `b` and the head of bucket `b` may
differ, and the chain of bucket `b` is `l ++ r` now. -/
structure Unlinks (m : OrderMap) (b : UInt32) (l : List UInt32) (x : UInt32) (r : List UInt32)
    (nodes : UInt32 → Node) (buckets : UInt32 → UInt32) : Prop where
  orderId : ∀ i, (nodes i).orderId = (m.nodes i).orderId
  order : ∀ i, (nodes i).order = (m.nodes i).order
  bucket : ∀ i, (nodes i).bucket = (m.nodes i).bucket
  next : ∀ i, i ∉ l ++ x :: r → (nodes i).nextIdx = m.next i
  heads : ∀ b', b' ≠ b → buckets b' = m.buckets b'
  chain : Chain (fun i => (nodes i).nextIdx) uint32Max (buckets b) (l ++ r)

/-- The links after `dropNode`: the freed node points to the old free head. -/
theorem next_dropNode (b x : UInt32) (i : UInt32) :
    (m.dropNode b x).next i = Function.update m.next x m.freeHead.idx i := by
  by_cases hi : i = x
  · subst hi
    simp [next, dropNode, freeNode, modifyNode]
  · simp [next, dropNode, freeNode, modifyNode, Function.update_of_ne hi]

/-- `dropNode` keeps the data of every node. -/
theorem nodes_dropNode (b x i : UInt32) :
    ((m.dropNode b x).nodes i).orderId = (m.nodes i).orderId ∧
    ((m.dropNode b x).nodes i).order = (m.nodes i).order ∧
    ((m.dropNode b x).nodes i).bucket = (m.nodes i).bucket := by
  by_cases hi : i = x
  · subst hi
    simp [dropNode, freeNode, modifyNode]
  · simp [dropNode, freeNode, modifyNode, Function.update_of_ne hi]

/-- Unlinking a node and returning it keeps the representation. -/
theorem Rep.dropNode (h : m.Rep chains free) (hs : m.state b = .chain) (hx : chains b = l ++ x :: r)
    {nodes : UInt32 → Node} {buckets : UInt32 → UInt32} (hu : m.Unlinks b l x r nodes buckets) :
    ((m.unlinked nodes buckets).dropNode b x).Rep (Function.update chains b (l ++ r))
      (x :: free) := by
  have hnd : (l ++ x :: r).Nodup := hx ▸ (h.chain b hs).nodup
  have hxlr : x ∉ l ++ r := by
    have := (List.nodup_middle.mp hnd)
    exact (List.nodup_cons.mp this).1
  have hxfree : x ∉ free := h.disjoint b hs x (by simp [hx])
  -- Nodes of other chains and free nodes are not in the chain of `b`.
  have hother : ∀ b', b' ≠ b → m.state b' = .chain → ∀ y ∈ chains b', y ∉ l ++ x :: r := by
    intro b' hb' hs' y hy hyb
    rw [← hx] at hyb
    exact hb' ((h.bucket b' hs' y hy).1.symm.trans (h.bucket b hs y hyb).1)
  have hfree : ∀ y ∈ free, y ∉ l ++ x :: r := by
    intro y hy hyb
    rw [← hx] at hyb
    exact h.disjoint b hs y hyb hy
  have hsub : ∀ y ∈ l ++ r, y ∈ chains b := by
    intro y hy
    rw [hx]
    simp only [List.mem_append, List.mem_cons] at hy ⊢
    tauto
  have hdata := nodes_dropNode (m := m.unlinked nodes buckets) b x
  -- The part of each clause that does not depend on the bucket.
  have hnext : ∀ i, i ≠ x →
      ((m.unlinked nodes buckets).dropNode b x).next i = (nodes i).nextIdx := by
    intro i hi
    rw [next_dropNode, Function.update_of_ne hi]
    rfl
  constructor
  case chain =>
    intro b' hs'
    by_cases hb : b' = b
    · subst hb
      rw [Function.update_self]
      exact hu.chain.congr fun y hy => hnext y fun e => hxlr (e ▸ hy)
    · rw [Function.update_of_ne hb]
      have hc := h.chain b' hs'
      rw [← hu.heads b' hb] at hc
      refine hc.congr fun y hy => ?_
      have hy' := hother b' hb hs' y hy
      rw [hnext y (fun e => hy' (by simp [e]))]
      exact hu.next y hy'
  case freeChain =>
    have hc : Chain (m.unlinked nodes buckets).next uint32Max m.freeHead.idx free :=
      h.freeChain.congr fun y hy => hu.next y (hfree y hy)
    refine (hc.push ?_ hxfree).congr fun y _ => next_dropNode b x y
    exact (h.chain b hs).ne_nil_of_mem (by simp [hx])
  case bucket =>
    intro b' hs' y hy
    have hy' : y ∈ chains b' := by
      by_cases hb : b' = b
      · subst hb
        rw [Function.update_self] at hy
        exact hsub y hy
      · rwa [Function.update_of_ne hb] at hy
    obtain ⟨h1, h2⟩ := h.bucket b' hs' y hy'
    refine ⟨(hdata y).2.2.trans ((hu.bucket y).trans h1), ?_⟩
    show m.hash _ = b'
    rw [(hdata y).1]
    exact (congrArg m.hash (hu.orderId y)).trans h2
  case keys =>
    intro b' hs'
    have hmap : ∀ ys : List UInt32,
        (ys.map fun y => (((m.unlinked nodes buckets).dropNode b x).nodes y).orderId)
          = ys.map fun y => (m.nodes y).orderId :=
      fun ys => List.map_congr_left fun y _ => (hdata y).1.trans (hu.orderId y)
    rw [hmap]
    by_cases hb : b' = b
    · subst hb
      rw [Function.update_self]
      have hk := h.keys b' hs'
      rw [hx] at hk
      exact hk.sublist (((List.Sublist.refl l).append (List.sublist_cons_self x r)).map _)
    · rw [Function.update_of_ne hb]
      exact h.keys b' hs'
  case len =>
    intro b' hs'
    by_cases hb : b' = b
    · subst hb
      have hlen := h.len b' hs'
      rw [hx] at hlen
      show (Function.update m.bucketLen b' (m.bucketLen b' - 1) b').toNat = _
      rw [Function.update_self, Function.update_self,
        UInt16.toNat_sub_of_le _ _ (by rw [UInt16.le_iff_toNat_le, hlen]; simp; omega), hlen]
      simp
    · show (Function.update m.bucketLen b (m.bucketLen b - 1) b').toNat = _
      rw [Function.update_of_ne hb, Function.update_of_ne hb]
      exact h.len b' hs'
  case disjoint =>
    intro b' hs' y hy hmem
    by_cases hb : b' = b
    · subst hb
      rw [Function.update_self] at hy
      rcases List.mem_cons.mp hmem with rfl | hmem
      · exact hxlr hy
      · exact h.disjoint b' hs' y (hsub y hy) hmem
    · rw [Function.update_of_ne hb] at hy
      rcases List.mem_cons.mp hmem with rfl | hmem
      · exact hother b' hb hs' y hy (by simp)
      · exact h.disjoint b' hs' y hy hmem
  case lt =>
    intro b' hs' y hy
    by_cases hb : b' = b
    · subst hb
      rw [Function.update_self] at hy
      exact h.lt b' hs' y (hsub y hy)
    · rw [Function.update_of_ne hb] at hy
      exact h.lt b' hs' y hy
  case freeLt =>
    intro y hy
    rcases List.mem_cons.mp hy with rfl | hy
    · exact h.lt b hs y (by simp [hx])
    · exact h.freeLt y hy
  case overflow => exact h.overflow

/-- What the table answers after node `x` was unlinked and returned: its key is gone. -/
theorem Rep.lookup_dropNode (h : m.Rep chains free) (hs : m.state b = .chain)
    (hx : chains b = l ++ x :: r) {nodes : UInt32 → Node} {buckets : UInt32 → UInt32}
    (hu : m.Unlinks b l x r nodes buckets) (j : UInt64) :
    ((m.unlinked nodes buckets).dropNode b x).lookup j
      = if j = (m.nodes x).orderId then none else m.lookup j := by
  have hrep := h.dropNode hs hx hu
  have hdata := nodes_dropNode (m := m.unlinked nodes buckets) b x
  have hnode : ∀ ys : List UInt32,
      ((m.unlinked nodes buckets).dropNode b x).nodeOf j ys = m.nodeOf j ys :=
    fun ys => nodeOf_congr fun y _ => (hdata y).1.trans (hu.orderId y)
  have hord : (fun y => (((m.unlinked nodes buckets).dropNode b x).nodes y).order)
      = fun y => (m.nodes y).order := funext fun y => (hdata y).2.1.trans (hu.order y)
  have hkx : m.hash (m.nodes x).orderId = b := (h.bucket b hs x (by simp [hx])).2
  by_cases hsj : m.state (m.hash j) = .chain
  · rw [hrep.lookup_chain (k := j) hsj, hnode, hord]
    show (m.nodeOf j (Function.update chains b (l ++ r) (m.hash j))).map _ = _
    rw [h.lookup_chain hsj]
    by_cases hb : m.hash j = b
    · rw [hb, Function.update_self, hx, nodeOf_append, nodeOf_append]
      have hkeys := h.keys b hs
      rw [hx, List.map_append, List.map_cons] at hkeys
      split
      · -- `x` is the only node with this key.
        rename_i hj
        subst hj
        have hnone : ∀ ys : List UInt32, (∀ y ∈ ys, (m.nodes y).orderId ≠ (m.nodes x).orderId) →
            m.nodeOf (m.nodes x).orderId ys = none := by
          intro ys hys
          rw [nodeOf, List.find?_eq_none]
          intro y hy
          simpa using hys y hy
        have hmid := List.nodup_cons.mp (List.nodup_middle.mp hkeys)
        rw [hnone l fun y hy e => hmid.1 (by
            rw [List.mem_append]; exact Or.inl (List.mem_map.mpr ⟨y, hy, e⟩)),
          hnone r fun y hy e => hmid.1 (by
            rw [List.mem_append]; exact Or.inr (List.mem_map.mpr ⟨y, hy, e⟩))]
        rfl
      · rename_i hj
        have hxj : ¬ (m.nodes x).orderId = j := fun e => hj e.symm
        rw [show m.nodeOf j (x :: r) = m.nodeOf j r by simp [nodeOf, hxj]]
    · rw [Function.update_of_ne hb, if_neg]
      rintro rfl
      exact hb hkx
  · rw [hrep.lookup_overflow (k := j) hsj, h.lookup_overflow hsj, if_neg]
    · rfl
    · rintro rfl
      rw [hkx] at hsj
      exact hsj hs

/-- The search in `erase` when no later node holds the key. -/
theorem eraseLoop_absent {ys : List UInt32} (hc : Chain m.next uint32Max idx (idx :: ys))
    (hb : ∀ y ∈ idx :: ys, (m.nodes y).bucket = b) (hk : ∀ y ∈ ys, (m.nodes y).orderId ≠ k)
    (hf : ys.length < fuel) : m.eraseLoop b k fuel idx = some m := by
  induction ys generalizing idx fuel with
  | nil =>
      obtain ⟨fuel, rfl⟩ : ∃ n, fuel = n + 1 := ⟨fuel - 1, by omega⟩
      have hnext : (m.nodes idx).nextIdx = uint32Max := hc.2.2
      simp [eraseLoop, hb idx (by simp), hnext]
  | cons y ys ih =>
      obtain ⟨fuel, rfl⟩ : ∃ n, fuel = n + 1 := ⟨fuel - 1, by omega⟩
      obtain ⟨-, -, hy, hyne, hrest⟩ := hc
      have hnext : (m.nodes idx).nextIdx = y := hy
      simp only [eraseLoop, hb idx (by simp), hnext, hyne, hk y (by simp), ne_eq,
        not_true_eq_false, if_false]
      exact ih ⟨rfl, hyne, hrest⟩ (fun z hz => hb z (by simp [hz]))
        (fun z hz => hk z (by simp [hz])) (by simpa using hf)

/-- The search in `erase` when node `x` is the first later one that holds the key: the
node before `x` is linked past it. -/
theorem eraseLoop_found (hc : Chain m.next uint32Max idx (idx :: (l ++ x :: r)))
    (hb : ∀ y ∈ idx :: (l ++ x :: r), (m.nodes y).bucket = b)
    (hk : ∀ y ∈ l, (m.nodes y).orderId ≠ (m.nodes x).orderId) (hf : l.length < fuel) :
    m.eraseLoop b (m.nodes x).orderId fuel idx
      = some ((m.modifyNode (l.getLastD idx) fun n =>
          { n with nextIdx := (m.nodes x).nextIdx }).dropNode b x) := by
  induction l generalizing idx fuel with
  | nil =>
      obtain ⟨fuel, rfl⟩ : ∃ n, fuel = n + 1 := ⟨fuel - 1, by omega⟩
      obtain ⟨-, -, hy, hyne, -⟩ := hc
      have hnext : (m.nodes idx).nextIdx = x := hy
      simp [eraseLoop, hb idx (by simp), hnext, hyne]
  | cons y l ih =>
      obtain ⟨fuel, rfl⟩ : ∃ n, fuel = n + 1 := ⟨fuel - 1, by omega⟩
      obtain ⟨-, -, hy, hyne, hrest⟩ := hc
      have hnext : (m.nodes idx).nextIdx = y := hy
      simp only [eraseLoop, hb idx (by simp), hnext, hyne, hk y (by simp), ne_eq,
        not_true_eq_false, if_false, List.getLastD_cons]
      exact ih ⟨rfl, hyne, hrest⟩ (fun z hz => hb z (by simp at hz ⊢; tauto))
        (fun z hz => hk z (by simp [hz])) (by simpa using hf)

/-- Joining around the first node of a chain. -/
theorem unlinks_head (hc : Chain m.next uint32Max (m.buckets b) (x :: r)) :
    m.Unlinks b [] x r m.nodes (Function.update m.buckets b (m.nodes x).nextIdx) where
  orderId _ := rfl
  order _ := rfl
  bucket _ := rfl
  next _ _ := rfl
  heads _ hb := Function.update_of_ne hb _ _
  chain := by
    rw [Function.update_self]
    exact hc.2.2

/-- Joining around a later node: its predecessor `a` is linked past it. -/
theorem unlinks_next {a : UInt32} (hc : Chain m.next uint32Max (m.buckets b) (l ++ a :: x :: r)) :
    m.Unlinks b (l ++ [a]) x r
      (Function.update m.nodes a { m.nodes a with nextIdx := (m.nodes x).nextIdx })
      m.buckets where
  orderId i := by by_cases hi : i = a <;> simp [hi]
  order i := by by_cases hi : i = a <;> simp [hi]
  bucket i := by by_cases hi : i = a <;> simp [hi]
  next i hi := by
    have hia : i ≠ a := fun e => hi (by simp [e])
    rw [Function.update_of_ne hia]
    rfl
  heads _ _ := rfl
  chain := by
    rw [List.append_assoc]
    refine hc.bypass.congr fun y _ => ?_
    by_cases hy : y = a
    · subst hy
      simp [OrderMap.next]
    · simp [OrderMap.next, Function.update_of_ne hy]

/-- An erase of an absent key does nothing. -/
theorem Rep.erase_of_absent (hrep : m.Rep chains free) (hk : m.lookup k = none) :
    m.erase k = some m := by
  by_cases hs : m.state (m.hash k) = .chain
  · have hc := hrep.chain _ hs
    have hbucket := fun x hx => (hrep.bucket _ hs x hx).1
    have hne := hrep.key_ne_of_lookup_none hs hk
    cases hx : chains (m.hash k) with
    | nil =>
        rw [hx] at hc
        simp [erase, hs, show m.buckets (m.hash k) = uint32Max from hc]
    | cons a l =>
        rw [hx] at hc hbucket hne
        have hlen := hrep.length_lt hs
        rw [hx, List.length_cons] at hlen
        simp only [erase, hs, ne_eq, not_true_eq_false, if_false, hc.1, hc.2.1,
          hne a (by simp)]
        exact eraseLoop_absent ⟨rfl, hc.2.1, hc.2.2⟩ hbucket
          (fun y hy => hne y (by simp [hy])) (by omega)
  · rw [hrep.lookup_overflow hs] at hk
    simp [erase, hs, hk]

/-- An erase removes the key, and nothing else. -/
theorem erase_spec (h : m.Wf) (k : UInt64) :
    ∃ m', m.erase k = some m' ∧ m'.Wf ∧
      ∀ j, m'.lookup j = if j = k then none else m.lookup j := by
  obtain ⟨chains, free, hrep, hshort⟩ := h
  by_cases hk : m.lookup k = none
  · refine ⟨m, hrep.erase_of_absent hk, ⟨chains, free, hrep, hshort⟩, fun j => ?_⟩
    split
    · rename_i hj
      rw [hj, hk]
    · rfl
  -- A returned node makes one chain shorter and changes no state.
  have hdrop : ∀ {l r : List UInt32} {x : UInt32} {nodes : UInt32 → Node}
      {buckets : UInt32 → UInt32}, m.state (m.hash k) = .chain →
      chains (m.hash k) = l ++ x :: r → (m.nodes x).orderId = k →
      m.Unlinks (m.hash k) l x r nodes buckets →
      ((m.unlinked nodes buckets).dropNode (m.hash k) x).Wf ∧
      ∀ j, ((m.unlinked nodes buckets).dropNode (m.hash k) x).lookup j
        = if j = k then none else m.lookup j := by
    intro l r x nodes buckets hs hx hk hu
    refine ⟨⟨_, _, hrep.dropNode hs hx hu, ?_⟩, ?_⟩
    · intro b hb
      by_cases hbk : b = m.hash k
      · subst hbk
        have := hshort _ hs
        rw [hx] at this
        rw [Function.update_self]
        simp only [List.length_append, List.length_cons] at this ⊢
        omega
      · rw [Function.update_of_ne hbk]
        exact hshort b hb
    · intro j
      rw [hrep.lookup_dropNode hs hx hu, hk]
  by_cases hs : m.state (m.hash k) = .chain
  · have hc := hrep.chain _ hs
    have hbucket := fun x hx => (hrep.bucket _ hs x hx).1
    obtain ⟨x, hx, hkx⟩ : ∃ x ∈ chains (m.hash k), (m.nodes x).orderId = k := by
      obtain ⟨v, hv⟩ := Option.ne_none_iff_exists'.mp hk
      rw [hrep.lookup_chain hs, Option.map_eq_some_iff] at hv
      obtain ⟨x, hx, -⟩ := hv
      exact ⟨x, mem_of_nodeOf hx, by simpa using List.find?_some hx⟩
    obtain ⟨l, r, hlr⟩ := List.append_of_mem hx
    rw [hlr] at hc hbucket
    have hkeys := hrep.keys _ hs
    rw [hlr, List.map_append, List.map_cons] at hkeys
    have hkl : ∀ y ∈ l, (m.nodes y).orderId ≠ (m.nodes x).orderId := by
      intro y hy e
      refine (List.nodup_cons.mp (List.nodup_middle.mp hkeys)).1 ?_
      rw [List.mem_append]
      exact Or.inl (List.mem_map.mpr ⟨y, hy, e⟩)
    cases l with
    | nil =>
        -- The key is at the head of the chain.
        obtain ⟨hwf, hlook⟩ := hdrop hs hlr hkx (unlinks_head hc)
        obtain ⟨hhead, hne, -⟩ := hc
        refine ⟨_, ?_, hwf, hlook⟩
        simp [erase, hs, hhead, hne, hkx, unlinked]
    | cons a l =>
        -- The key is further down: the loop starts at the head `a`.
        have hhead : m.buckets (m.hash k) = a := hc.1
        have hane : a ≠ uint32Max := hc.2.1
        have hak : (m.nodes a).orderId ≠ k := fun e => hkl a (by simp) (e.trans hkx.symm)
        have hlen := hrep.length_lt hs
        rw [hlr] at hlen
        simp only [List.length_append, List.length_cons] at hlen
        have hchain : Chain m.next uint32Max a (a :: (l ++ x :: r)) := ⟨rfl, hane, hc.2.2⟩
        have hfuel : l.length < m.capacity + 1 := by omega
        have hloop := eraseLoop_found hchain hbucket (fun y hy => hkl y (by simp [hy])) hfuel
        rw [hkx] at hloop
        -- The predecessor is the last node before `x`.
        have hsplit : a :: l = (a :: l).dropLast ++ [l.getLastD a] := by
          have hgl : (a :: l).getLast (by simp) = l.getLastD a := by
            rw [List.getLast_eq_getLastD]
          rw [← hgl, List.dropLast_append_getLast]
        have hu := unlinks_next (m := m) (b := m.hash k) (a := l.getLastD a) (x := x)
          (l := (a :: l).dropLast) (r := r) (by
            rw [List.append_cons, ← hsplit]
            exact hc)
        rw [← hsplit] at hu
        obtain ⟨hwf, hlook⟩ := hdrop hs hlr hkx hu
        refine ⟨_, ?_, hwf, hlook⟩
        simp only [erase, hs, ne_eq, not_true_eq_false, if_false, hhead, hane, hak]
        exact hloop
  · -- A converted bucket: the key leaves `overflow`.
    obtain ⟨v, hf⟩ := Option.ne_none_iff_exists'.mp hk
    rw [hrep.lookup_overflow hs] at hf
    have hrep' : ({ m with overflow := m.overflow.erase k, size := m.size - 1 } :
        OrderMap).Rep chains free :=
      { hrep with
        overflow := fun j w hj => by
          rw [SortedMap.find?_erase] at hj
          split at hj
          · simp at hj
          · exact hrep.overflow j w hj }
    refine ⟨_, by simp [erase, hs, hf], ⟨chains, free, hrep', hshort⟩, ?_⟩
    intro j
    by_cases hsj : m.state (m.hash j) = .chain
    · rw [hrep'.lookup_chain (k := j) hsj, if_neg]
      · exact (hrep.lookup_chain hsj).symm
      · rintro rfl
        exact hs hsj
    · rw [hrep'.lookup_overflow (k := j) hsj, hrep.lookup_overflow hsj,
        SortedMap.find?_erase]

/-! ### `treeify` and `insert` -/

/-- Copy the entries of a node list to an ordered map, first node first. -/
def copyNodes (m : OrderMap) (xs : List UInt32)
    (ov : SortedMap UInt64 UInt32 fun a b => a < b) :
    SortedMap UInt64 UInt32 fun a b => a < b :=
  xs.foldl (fun ov x => ov.insert (m.nodes x).orderId (m.nodes x).order) ov

/-- The loop of `treeify` copies the chain. -/
theorem treeifyLoop_eq {cur : UInt32} {ov : SortedMap UInt64 UInt32 fun a b => a < b}
    (hc : Chain m.next uint32Max cur xs) (hf : xs.length < fuel) :
    treeifyLoop m.nodes fuel cur ov = some (m.copyNodes xs ov) := by
  refine Chain.loop_induction (motive := fun fuel cur xs => ∀ ov,
    treeifyLoop m.nodes fuel cur ov = some (m.copyNodes xs ov)) ?_ ?_ hc hf ov
  · intro fuel ov
    exact if_pos rfl
  · intro fuel x xs hne ih ov
    simp only [treeifyLoop, if_neg hne]
    exact ih _

/-- What the copy holds: the entries of the nodes, then the old ones. -/
theorem find?_copyNodes {ov : SortedMap UInt64 UInt32 fun a b => a < b}
    (hk : (xs.map fun x => (m.nodes x).orderId).Nodup) :
    (m.copyNodes xs ov).find? k
      = ((m.nodeOf k xs).map fun x => (m.nodes x).order).or (ov.find? k) := by
  induction xs generalizing ov with
  | nil => rfl
  | cons x xs ih =>
      rw [List.map_cons, List.nodup_cons] at hk
      have hstep : m.copyNodes (x :: xs) ov
          = m.copyNodes xs (ov.insert (m.nodes x).orderId (m.nodes x).order) := rfl
      rw [hstep, ih hk.2, SortedMap.find?_insert]
      by_cases hx : (m.nodes x).orderId = k
      · -- No later node holds this key, so the copy of `x` survives.
        have hnone : m.nodeOf k xs = none := by
          rw [nodeOf, List.find?_eq_none]
          intro y hy
          simp only [decide_eq_true_eq]
          intro e
          exact hk.1 (List.mem_map.mpr ⟨y, hy, e.trans hx.symm⟩)
        rw [hnone]
        simp [nodeOf, hx]
      · have hx' : ¬ k = (m.nodes x).orderId := fun e => hx e.symm
        simp only [nodeOf, List.find?_cons, hx, hx', decide_false, if_false]

/-- The table after the conversion of bucket `b`, whose chain is `xs`. -/
def converted (m : OrderMap) (b : UInt32) (xs : List UInt32) : OrderMap :=
  { m with
    overflow := m.copyNodes xs m.overflow
    state := Function.update m.state b .treeified }

/-- `treeify` of a bucket that holds the chain `xs`. -/
theorem treeify_eq_converted (hs : m.state b = .chain)
    (hc : Chain m.next uint32Max (m.buckets b) xs) (hf : xs.length < m.capacity + 1) :
    m.treeify b = some (m.converted b xs) := by
  simp [treeify, hs, treeifyLoop_eq hc hf, converted]

/-- `treeify` of a chain bucket. -/
theorem Rep.treeify_eq (h : m.Rep chains free) (hs : m.state b = .chain) :
    m.treeify b = some (m.converted b (chains b)) :=
  treeify_eq_converted hs (h.chain b hs) (h.length_lt hs)

/-- A bucket that is still a chain after a conversion was one before, and is another
one. -/
theorem state_converted {b' : UInt32} (h : (m.converted b xs).state b' = .chain) :
    b' ≠ b ∧ m.state b' = .chain := by
  by_cases hb : b' = b
  · subst hb
    simp [converted] at h
  · exact ⟨hb, by simpa [converted, Function.update_of_ne hb] using h⟩

/-- A conversion keeps the representation. -/
theorem Rep.converted (h : m.Rep chains free) (hs : m.state b = .chain) :
    (m.converted b (chains b)).Rep chains free where
  chain b' hb' := h.chain b' (state_converted hb').2
  freeChain := h.freeChain
  bucket b' hb' := h.bucket b' (state_converted hb').2
  keys b' hb' := h.keys b' (state_converted hb').2
  len b' hb' := h.len b' (state_converted hb').2
  disjoint b' hb' := h.disjoint b' (state_converted hb').2
  lt b' hb' := h.lt b' (state_converted hb').2
  freeLt := h.freeLt
  overflow k v hk hst := by
    obtain ⟨hne, hst⟩ := state_converted hst
    change m.hash k ≠ b at hne
    change m.state (m.hash k) = .chain at hst
    change (m.copyNodes (chains b) m.overflow).find? k = some v at hk
    rw [find?_copyNodes (h.keys b hs)] at hk
    cases hn : m.nodeOf k (chains b) with
    | none =>
        rw [hn] at hk
        exact h.overflow k v hk hst
    | some x =>
        have hkey : (m.nodes x).orderId = k := by simpa using List.find?_some hn
        exact hne (hkey ▸ (h.bucket b hs x (mem_of_nodeOf hn)).2)

/-- A conversion changes no answer. -/
theorem Rep.lookup_converted (h : m.Rep chains free) (hs : m.state b = .chain) (j : UInt64) :
    (m.converted b (chains b)).lookup j = m.lookup j := by
  have hrep := h.converted hs
  by_cases hj : m.hash j = b
  · -- The key's bucket is the converted one: it had no entry in `overflow` before.
    have hst : (m.converted b (chains b)).state ((m.converted b (chains b)).hash j) ≠ .chain :=
      fun e => (state_converted e).1 hj
    have hnone : m.overflow.find? j = none := by
      rw [Option.eq_none_iff_forall_ne_some]
      intro v hv
      exact h.overflow j v hv (hj ▸ hs)
    rw [hrep.lookup_overflow hst, h.lookup_chain (hj ▸ hs), hj]
    show (m.copyNodes (chains b) m.overflow).find? j = _
    rw [find?_copyNodes (h.keys b hs), hnone, Option.or_none]
  · have hstate : (m.converted b (chains b)).state (m.hash j) = m.state (m.hash j) :=
      Function.update_of_ne hj _ _
    by_cases hsj : m.state (m.hash j) = .chain
    · rw [hrep.lookup_chain (k := j) (hstate.trans hsj), h.lookup_chain hsj]
      rfl
    · rw [hrep.lookup_overflow (k := j) (fun e => hsj (hstate.symm.trans e)),
        h.lookup_overflow hsj]
      show (m.copyNodes (chains b) m.overflow).find? j = _
      rw [find?_copyNodes (h.keys b hs)]
      have hnone : m.nodeOf j (chains b) = none := by
        rw [nodeOf, List.find?_eq_none]
        intro x hx
        simp only [decide_eq_true_eq]
        intro e
        exact hj (e ▸ (h.bucket b hs x hx).2)
      rw [hnone]
      rfl

/-- An insert into `overflow` for a converted bucket. -/
theorem Rep.insertOverflow (h : m.Rep chains free) (hs : m.state (m.hash k) ≠ .chain) :
    (m.insertOverflow k v).Rep chains free ∧
      ∀ j, (m.insertOverflow k v).lookup j = if j = k then some v else m.lookup j := by
  have hrep : (m.insertOverflow k v).Rep chains free :=
    { h with
      overflow := fun j w hj => by
        change (m.overflow.insert k v).find? j = some w at hj
        rw [SortedMap.find?_insert] at hj
        by_cases e : j = k
        · subst e
          exact hs
        · rw [if_neg e] at hj
          exact h.overflow j w hj }
  refine ⟨hrep, fun j => ?_⟩
  by_cases hsj : m.state (m.hash j) = .chain
  · rw [hrep.lookup_chain (k := j) hsj, if_neg]
    · exact (h.lookup_chain hsj).symm
    · rintro rfl
      exact hs hsj
  · rw [hrep.lookup_overflow (k := j) hsj, h.lookup_overflow hsj]
    exact SortedMap.find?_insert _ _ _ _

/-- Take the node `idx` off the free stack and put it at the head of the chain of the
key's bucket. -/
def pushNode (m : OrderMap) (idx : UInt32) (k : UInt64) (v : UInt32) : OrderMap :=
  { m with freeHead := m.freeHead.swing (m.nodes idx).nextIdx }.insertChain (m.hash k) idx k v

/-- The links after `pushNode`. -/
theorem next_pushNode (idx : UInt32) (k : UInt64) (v i : UInt32) :
    (m.pushNode idx k v).next i = Function.update m.next idx (m.buckets (m.hash k)) i := by
  by_cases hi : i = idx
  · subst hi
    simp [next, pushNode, insertChain, modifyNode]
  · simp [next, pushNode, insertChain, modifyNode, Function.update_of_ne hi]

/-- `pushNode` writes the node it took, and no other. -/
theorem nodes_pushNode_of_ne {i : UInt32} (hi : i ≠ idx) (k : UInt64) (v : UInt32) :
    (m.pushNode idx k v).nodes i = m.nodes i := by
  simp [pushNode, insertChain, modifyNode, Function.update_of_ne hi]

/-- The node `pushNode` took. -/
theorem nodes_pushNode_self (idx : UInt32) (k : UInt64) (v : UInt32) :
    (m.pushNode idx k v).nodes idx
      = { orderId := k, order := v, nextIdx := m.buckets (m.hash k), bucket := m.hash k } := by
  simp [pushNode, insertChain, modifyNode]

/-- The chain of the key's bucket after `pushNode`. -/
theorem Rep.chain_pushNode (h : m.Rep chains (idx :: free)) (hs : m.state (m.hash k) = .chain)
    (v : UInt32) :
    Chain (m.pushNode idx k v).next uint32Max idx (idx :: chains (m.hash k)) := by
  have hidx : idx ∉ chains (m.hash k) := fun hx => h.disjoint _ hs idx hx (by simp)
  refine ((h.chain _ hs).push ?_ hidx).congr fun y _ => next_pushNode idx k v y
  exact h.freeChain.ne_nil_of_mem (by simp)

/-- An insert into a chain bucket, with room for one more node. -/
theorem Rep.pushNode (h : m.Rep chains (idx :: free)) (hs : m.state (m.hash k) = .chain)
    (hshort : (chains (m.hash k)).length < 8) (hk : m.lookup k = none) :
    (m.pushNode idx k v).Rep
      (Function.update chains (m.hash k) (idx :: chains (m.hash k))) free := by
  have hne : ∀ b, m.state b = .chain → ∀ x ∈ chains b, x ≠ idx :=
    fun b hb x hx e => h.disjoint b hb x hx (by simp [e])
  have hfree : idx ∉ free := (List.nodup_cons.mp h.freeChain.nodup).1
  have habsent := h.key_ne_of_lookup_none hs hk
  constructor
  case chain =>
    intro b hb
    by_cases hbk : b = m.hash k
    · subst hbk
      rw [Function.update_self]
      have hhead : (m.pushNode idx k v).buckets (m.hash k) = idx := Function.update_self _ _ _
      rw [hhead]
      exact h.chain_pushNode hs v
    · rw [Function.update_of_ne hbk]
      have hhead : (m.pushNode idx k v).buckets b = m.buckets b := Function.update_of_ne hbk _ _
      rw [hhead]
      refine (h.chain b hb).congr fun y hy => ?_
      rw [next_pushNode, Function.update_of_ne (hne b hb y hy)]
  case freeChain =>
    refine h.freeChain.2.2.congr fun y hy => ?_
    rw [next_pushNode, Function.update_of_ne]
    rintro rfl
    exact hfree hy
  case bucket =>
    intro b hb x hx
    by_cases hbk : b = m.hash k
    · subst hbk
      rw [Function.update_self] at hx
      rcases List.mem_cons.mp hx with rfl | hx
      · rw [nodes_pushNode_self]
        exact ⟨rfl, rfl⟩
      · rw [nodes_pushNode_of_ne (hne _ hs x hx)]
        exact h.bucket _ hs x hx
    · rw [Function.update_of_ne hbk] at hx
      rw [nodes_pushNode_of_ne (hne b hb x hx)]
      exact h.bucket b hb x hx
  case keys =>
    intro b hb
    have hmap : ∀ b, m.state b = .chain →
        ((chains b).map fun x => ((m.pushNode idx k v).nodes x).orderId)
          = (chains b).map fun x => (m.nodes x).orderId := by
      intro b hb
      refine List.map_congr_left fun x hx => ?_
      rw [nodes_pushNode_of_ne (hne b hb x hx)]
    by_cases hbk : b = m.hash k
    · subst hbk
      rw [Function.update_self, List.map_cons, hmap _ hs, nodes_pushNode_self, List.nodup_cons]
      refine ⟨fun hmem => ?_, h.keys _ hs⟩
      obtain ⟨x, hx, e⟩ := List.mem_map.mp hmem
      exact habsent x hx e
    · rw [Function.update_of_ne hbk, hmap b hb]
      exact h.keys b hb
  case len =>
    intro b hb
    by_cases hbk : b = m.hash k
    · subst hbk
      have hlen := h.len _ hs
      have hnew : (m.pushNode idx k v).bucketLen (m.hash k) = m.bucketLen (m.hash k) + 1 :=
        Function.update_self _ _ _
      rw [hnew, Function.update_self, List.length_cons, UInt16.toNat_add, hlen]
      simp only [UInt16.reduceToNat]
      omega
    · have hold : (m.pushNode idx k v).bucketLen b = m.bucketLen b :=
        Function.update_of_ne hbk _ _
      rw [hold, Function.update_of_ne hbk]
      exact h.len b hb
  case disjoint =>
    intro b hb x hx hmem
    by_cases hbk : b = m.hash k
    · subst hbk
      rw [Function.update_self] at hx
      rcases List.mem_cons.mp hx with rfl | hx
      · exact hfree hmem
      · exact h.disjoint _ hs x hx (by simp [hmem])
    · rw [Function.update_of_ne hbk] at hx
      exact h.disjoint b hb x hx (by simp [hmem])
  case lt =>
    intro b hb x hx
    by_cases hbk : b = m.hash k
    · subst hbk
      rw [Function.update_self] at hx
      rcases List.mem_cons.mp hx with rfl | hx
      · exact h.freeLt x (by simp)
      · exact h.lt _ hs x hx
    · rw [Function.update_of_ne hbk] at hx
      exact h.lt b hb x hx
  case freeLt => exact fun x hx => h.freeLt x (by simp [hx])
  case overflow => exact h.overflow

/-- What the table answers after an insert into a chain. -/
theorem Rep.lookup_pushNode (h : m.Rep chains (idx :: free)) (hs : m.state (m.hash k) = .chain)
    (hshort : (chains (m.hash k)).length < 8) (hk : m.lookup k = none) (j : UInt64) :
    (m.pushNode idx k v).lookup j = if j = k then some v else m.lookup j := by
  have hrep := h.pushNode (v := v) hs hshort hk
  have hne : ∀ b, m.state b = .chain → ∀ x ∈ chains b, x ≠ idx :=
    fun b hb x hx e => h.disjoint b hb x hx (by simp [e])
  -- Over an old chain the new table finds what the old one found.
  have hold : ∀ b, m.state b = .chain →
      ((m.pushNode idx k v).nodeOf j (chains b)).map
          (fun x => ((m.pushNode idx k v).nodes x).order)
        = (m.nodeOf j (chains b)).map fun x => (m.nodes x).order := by
    intro b hb
    have hnode : (m.pushNode idx k v).nodeOf j (chains b) = m.nodeOf j (chains b) :=
      nodeOf_congr fun x hx => by rw [nodes_pushNode_of_ne (hne b hb x hx)]
    rw [hnode]
    cases hn : m.nodeOf j (chains b) with
    | none => rfl
    | some x => simp [nodes_pushNode_of_ne (hne b hb x (mem_of_nodeOf hn))]
  by_cases hsj : m.state (m.hash j) = .chain
  · rw [hrep.lookup_chain (k := j) hsj]
    show ((m.pushNode idx k v).nodeOf j
      (Function.update chains (m.hash k) (idx :: chains (m.hash k)) (m.hash j))).map _ = _
    by_cases hjk : m.hash j = m.hash k
    · rw [hjk, Function.update_self]
      by_cases e : j = k
      · subst e
        simp [nodeOf, nodes_pushNode_self]
      · have e' : ¬ k = j := fun h => e h.symm
        have hskip : (m.pushNode idx k v).nodeOf j (idx :: chains (m.hash k))
            = (m.pushNode idx k v).nodeOf j (chains (m.hash k)) := by
          simp [nodeOf, nodes_pushNode_self, e']
        rw [hskip, hold _ hs, if_neg e, h.lookup_chain hsj, hjk]
    · rw [Function.update_of_ne hjk, hold _ hsj, h.lookup_chain hsj, if_neg]
      rintro rfl
      exact hjk rfl
  · rw [hrep.lookup_overflow (k := j) hsj, h.lookup_overflow hsj, if_neg]
    · rfl
    · rintro rfl
      exact hsj hs

/-- The conversion threshold as a number of nodes. -/
theorem treeifyThreshold_le_iff (n : UInt16) : treeifyThreshold ≤ n ↔ 8 ≤ n.toNat := by
  rw [UInt16.le_iff_toNat_le]
  simp [treeifyThreshold]

/-- `insert` with a free node at hand and a chain below the threshold. -/
theorem insert_of_free (hs : m.state (m.hash k) = .chain)
    (hlen : ¬ treeifyThreshold ≤ m.bucketLen (m.hash k)) (hidx : m.freeHead.idx ≠ uint32Max) :
    m.insert k v = if treeifyThreshold ≤
          (m.pushNode m.freeHead.idx k v).bucketLen (m.hash k)
        then (m.pushNode m.freeHead.idx k v).treeify (m.hash k) >>= fun m' => some (true, m')
        else some (true, m.pushNode m.freeHead.idx k v) := by
  have hex : m.freeHead ≠ ⟨0, uint32Max⟩ := fun e => hidx (by rw [e])
  simp [insert, hs, hlen, hex, allocNode, hidx, pushNode]
  congr

/-- A short chain is below the threshold. -/
theorem Rep.not_threshold_le (h : m.Rep chains free) (hs : m.state b = .chain)
    (hsh : (chains b).length < 8) : ¬ treeifyThreshold ≤ m.bucketLen b := by
  rw [treeifyThreshold_le_iff, h.len _ hs]
  omega

/-- `insert` returns, also for a key that is there. -/
theorem exists_insert (h : m.Wf) (k : UInt64) (v : UInt32) :
    ∃ r, m.insert k v = some r := by
  obtain ⟨chains, free, hrep, hshort⟩ := h
  by_cases hs : m.state (m.hash k) = .chain
  · have hlen := hrep.not_threshold_le hs (hshort _ hs)
    by_cases hidx : m.freeHead.idx = uint32Max
    · by_cases hex : m.freeHead = ⟨0, uint32Max⟩
      · simp [insert, hs, hex, hrep.treeify_eq hs]
      · simp [insert, hs, hlen, hex, allocNode, hidx]
    · obtain ⟨free', rfl, -⟩ := hrep.freeChain.exists_cons hidx
      rw [insert_of_free hs hlen hidx]
      split
      · -- The new chain is walked once by the conversion; it has at most eight nodes.
        have hchain := hrep.chain_pushNode hs v
        have hhead : (m.pushNode m.freeHead.idx k v).buckets (m.hash k) = m.freeHead.idx :=
          Function.update_self _ _ _
        have hfit : (m.freeHead.idx :: chains (m.hash k)).length < m.capacity + 1 := by
          refine Nat.lt_succ_of_le (length_le_of_nodup hchain.nodup fun x hx => ?_)
          rcases List.mem_cons.mp hx with rfl | hx
          · exact hrep.freeLt _ (by simp)
          · exact hrep.lt _ hs x hx
        have htree := treeify_eq_converted (m := m.pushNode m.freeHead.idx k v) hs
          (by rw [hhead]; exact hchain) hfit
        rw [htree]
        exact ⟨_, rfl⟩
      · exact ⟨_, rfl⟩
  · simp [insert, hs]

/-- An insert of an absent key, with the nodes it takes: one at most. -/
theorem Rep.insert (hrep : m.Rep chains free) (hshort : m.Short chains) (hk : m.lookup k = none)
    (v : UInt32) :
    (m.DropsInsert k ∧ m.insert k v = some (false, m)) ∨
    (¬ m.DropsInsert k ∧ ∃ m' chains' free', m.insert k v = some (true, m') ∧
      m'.Rep chains' free' ∧ m'.Short chains' ∧ free.length ≤ free'.length + 1 ∧
      ∀ j, m'.lookup j = if j = k then some v else m.lookup j) := by
  by_cases hs : m.state (m.hash k) = .chain
  · have hsh := hshort _ hs
    have hlen := hrep.not_threshold_le hs hsh
    by_cases hex : m.freeHead = ⟨0, uint32Max⟩
    · -- The empty node pool is seen: the bucket is converted.
      refine Or.inr ⟨fun hd => hd.2.2 (by rw [hex]), ?_⟩
      have hst : (m.converted (m.hash k) (chains (m.hash k))).state
          ((m.converted (m.hash k) (chains (m.hash k))).hash k) ≠ .chain :=
        fun e => (state_converted e).1 rfl
      obtain ⟨hrep', hlook⟩ := (hrep.converted hs).insertOverflow (v := v) hst
      refine ⟨_, chains, free, by simp [OrderMap.insert, hs, hex, hrep.treeify_eq hs], hrep',
        ?_, Nat.le_succ _, ?_⟩
      · intro b hb
        change (m.converted (m.hash k) (chains (m.hash k))).state b = .chain at hb
        exact hshort b (state_converted hb).2
      · intro j
        rw [hlook, hrep.lookup_converted hs]
    · by_cases hidx : m.freeHead.idx = uint32Max
      · -- No node, and the test does not see it: the entry is dropped.
        refine Or.inl ⟨⟨hs, hidx, fun ht => hex ?_⟩, ?_⟩
        · cases hf : m.freeHead
          simp_all
        · simp [OrderMap.insert, hs, hlen, hex, allocNode, hidx]
      · refine Or.inr ⟨fun hd => hidx hd.2.1, ?_⟩
        obtain ⟨free', rfl, -⟩ := hrep.freeChain.exists_cons hidx
        have hpush := hrep.pushNode (v := v) hs hsh hk
        have hlook := hrep.lookup_pushNode (v := v) hs hsh hk
        rw [insert_of_free hs (hrep.not_threshold_le hs hsh) hidx]
        -- The other chains stay short; the one of this key is below the threshold, or it
        -- is converted on the spot.
        have hothers : ∀ b, b ≠ m.hash k → m.state b = .chain →
            (Function.update chains (m.hash k) (m.freeHead.idx :: chains (m.hash k)) b).length
              < 8 := by
          intro b hb hsb
          rw [Function.update_of_ne hb]
          exact hshort b hsb
        split
        · rename_i hthr
          refine ⟨_, _, _, by rw [hpush.treeify_eq hs]; rfl, hpush.converted hs,
            fun b hb => ?_, Nat.le_refl _, fun j => ?_⟩
          · obtain ⟨hb, hsb⟩ := state_converted hb
            exact hothers b hb hsb
          · rw [hpush.lookup_converted hs, hlook]
        · rename_i hthr
          refine ⟨_, _, _, rfl, hpush, fun b hb => ?_, Nat.le_refl _, hlook⟩
          by_cases hbk : b = m.hash k
          · subst hbk
            rw [treeifyThreshold_le_iff, hpush.len _ hb] at hthr
            omega
          · exact hothers b hbk hb
  · -- A converted bucket.
    refine Or.inr ⟨fun hd => hs hd.1, ?_⟩
    obtain ⟨hrep', hlook⟩ := hrep.insertOverflow (v := v) hs
    exact ⟨_, chains, free, by simp [OrderMap.insert, hs], hrep', hshort, Nat.le_succ _, hlook⟩

/-- An insert of an absent key. It stores the entry and answers `true`, or, exactly under
`DropsInsert`, it changes nothing and answers `false`. -/
theorem insert_spec (h : m.Wf) (hk : m.lookup k = none) (v : UInt32) :
    (m.DropsInsert k ∧ m.insert k v = some (false, m)) ∨
    (¬ m.DropsInsert k ∧ ∃ m', m.insert k v = some (true, m') ∧ m'.Wf ∧
      ∀ j, m'.lookup j = if j = k then some v else m.lookup j) := by
  obtain ⟨chains, free, hrep, hshort⟩ := h
  refine (hrep.insert hshort hk v).imp_right fun ⟨hdrop, m', chains', free', hins, hrep', hshort',
    _, hlook⟩ => ⟨hdrop, m', hins, ⟨chains', free', hrep', hshort'⟩, hlook⟩

/-! ### The new table -/

/-- The doubling loop yields a power of two, not below `n` unless the steps ran out. -/
theorem roundPow2Loop_eq (n fuel j : Nat) :
    ∃ i, roundPow2Loop n fuel (2 ^ j) = 2 ^ i ∧ (n ≤ 2 ^ i ∨ i = j + fuel) := by
  induction fuel generalizing j with
  | zero => exact ⟨j, rfl, Or.inr rfl⟩
  | succ fuel ih =>
      simp only [roundPow2Loop]
      split
      · obtain ⟨i, hi, h⟩ := ih (j + 1)
        rw [Nat.pow_succ] at hi
        refine ⟨i, hi, h.imp id fun e => ?_⟩
        omega
      · rename_i hge
        exact ⟨j, rfl, Or.inl (Nat.le_of_not_lt hge)⟩

/-- A capacity the constructor accepts is at most `2 ^ 31`. -/
theorem le_of_roundPow2_ne_zero {n : Nat} (h : roundPow2 n ≠ 0) : n ≤ 2 ^ 31 := by
  obtain ⟨i, hi, hn⟩ := roundPow2Loop_eq n 64 0
  rw [Nat.pow_zero] at hi
  have hlt : i < 32 := by
    refine Nat.lt_of_not_le fun hge => h ?_
    obtain ⟨t, rfl⟩ := Nat.exists_eq_add_of_le hge
    rw [roundPow2, hi, ← UInt32.toNat_inj, Nat.pow_add]
    simp [Nat.toUInt32]
  rcases hn with hn | hn
  · exact Nat.le_trans hn (Nat.pow_le_pow_right (by decide) (by omega))
  · omega

/-- A capacity of at most `2 ^ 31` is accepted. -/
theorem roundPow2_ne_zero {n : Nat} (h : n ≤ 2 ^ 31) : roundPow2 n ≠ 0 := by
  have hloop : ∀ fuel j, j ≤ 31 → ∃ i ≤ 31, roundPow2Loop n fuel (2 ^ j) = 2 ^ i := by
    intro fuel
    induction fuel with
    | zero => exact fun j hj => ⟨j, hj, rfl⟩
    | succ fuel ih =>
        intro j hj
        simp only [roundPow2Loop]
        split
        · -- A doubling happens below `n` only, so the exponent stays below 32.
          rename_i hlt
          have hj' : j < 31 := by
            refine Nat.lt_of_not_le fun hge => ?_
            have hpow : 2 ^ 31 ≤ 2 ^ j := Nat.pow_le_pow_right (by decide) hge
            omega
          obtain ⟨i, hi, heq⟩ := ih (j + 1) (by omega)
          exact ⟨i, hi, by rw [← heq, Nat.pow_succ]⟩
        · exact ⟨j, hj, rfl⟩
  obtain ⟨i, hi, heq⟩ := hloop 64 0 (by omega)
  rw [Nat.pow_zero] at heq
  have hpow : 2 ^ i ≤ 2 ^ 31 := Nat.pow_le_pow_right (by decide) hi
  have hpos : 0 < 2 ^ i := Nat.pow_pos (by decide)
  rw [roundPow2, heq]
  intro hzero
  have hnat := congrArg UInt32.toNat hzero
  simp only [Nat.toUInt32, UInt32.toNat_ofNat', UInt32.toNat_zero] at hnat
  omega

/-- The constructor returns for a capacity from 2 to `2 ^ 31`. -/
theorem exists_ofCapacity (h2 : 2 ≤ c) (hc : c ≤ 2 ^ 31) :
    ∃ m, ofCapacity c = some m := by
  rw [ofCapacity, if_neg (not_or.mpr ⟨by omega, roundPow2_ne_zero hc⟩)]
  exact ⟨_, rfl⟩

/-- What the constructor needs: a capacity from 2 to `2 ^ 31`. -/
theorem ofCapacity_bounds (h : ofCapacity c = some m) :
    2 ≤ c ∧ c ≤ 2 ^ 31 := by
  unfold ofCapacity at h
  split at h
  · simp at h
  · rename_i hc
    obtain ⟨h2, hp⟩ := not_or.mp hc
    exact ⟨by omega, le_of_roundPow2_ne_zero hp⟩

end OrderMap

/-- Index numbers below a capacity of at most `2 ^ 31`, as machine words. -/
theorem toNat_ofNat_of_lt {i : Nat} (hc : c ≤ 2 ^ 31) (hi : i < c) :
    (UInt32.ofNat i).toNat = i := by
  rw [UInt32.toNat_ofNat']
  omega

/-- The initial free list of the slot pool and of the node pool: each index is followed by
the next one, the last by nothing. -/
theorem chain_init (h2 : 2 ≤ c) (hc : c ≤ 2 ^ 31) :
    Chain (fun i : UInt32 => if i.toNat + 1 < c then i + 1 else uint32Max) uint32Max 0
      ((List.range' 0 c).map UInt32.ofNat) := by
  refine Chain.of_range' UInt32.ofNat c 0 (fun i _ hi => ?_) (fun _ => ?_) (fun i hi => ?_)
    (by omega)
  · rw [toNat_ofNat_of_lt hc (by omega), if_pos (by omega)]
    simp
  · rw [toNat_ofNat_of_lt hc (by omega), if_neg (by omega)]
  · intro e
    have h := congrArg UInt32.toNat e
    rw [toNat_ofNat_of_lt hc (by omega)] at h
    simp [uint32Max] at h
    omega

namespace OrderMap

/-- A new table has no entry, and all its nodes are free. -/
theorem rep_ofCapacity (h : ofCapacity c = some m) :
    m.Rep (fun _ => []) ((List.range' 0 c).map UInt32.ofNat) ∧ ∀ k, m.lookup k = none := by
  obtain ⟨h2, hc⟩ := ofCapacity_bounds h
  have hrep : m.Rep (fun _ => []) ((List.range' 0 c).map UInt32.ofNat) := by
    unfold ofCapacity at h
    split at h
    · simp at h
    · rw [Option.some.injEq] at h
      subst h
      refine ⟨fun b _ => rfl, chain_init h2 hc, by simp, by simp, by simp, by simp, by simp,
        ?_, fun k v hk => by simp [SortedMap.find?, SortedMap.lookupEntry] at hk⟩
      intro x hx
      obtain ⟨i, hi, rfl⟩ := List.mem_map.mp hx
      rw [List.mem_range'_1] at hi
      rw [toNat_ofNat_of_lt hc (by omega)]
      show i < c
      omega
  refine ⟨hrep, fun k => ?_⟩
  rw [lookup, hrep.find_eq]
  unfold ofCapacity at h
  split at h
  · simp at h
  · rw [Option.some.injEq] at h
    subst h
    simp [nodeOf]

/-- A new table is well formed and empty. -/
theorem ofCapacity_spec (h : ofCapacity c = some m) :
    m.Wf ∧ ∀ k, m.lookup k = none := by
  obtain ⟨hrep, hlook⟩ := rep_ofCapacity h
  exact ⟨⟨_, _, hrep, fun b _ => by simp⟩, hlook⟩

end OrderMap

end NebulaX
