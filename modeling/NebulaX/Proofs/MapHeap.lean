import NebulaX.Engine.MapThreads
import NebulaX.Lib.Places
import NebulaX.Proofs.FreeStack
import NebulaX.Proofs.OrderMap

/-!
# `NebulaX.Proofs.MapHeap`: the nodes of the order index under several threads

Every node is on the free stack, in the chain of one bucket, or in the hands of one thread that
fills it or gives it back. `Heap place lists free m owns` says so for the index `m`, when `lists b`
are the nodes of bucket `b` and `owns t` is the node of thread `t`. It also says what a node of a
chain holds: its bucket, and a key of that bucket which no other node of the chain has.

There is one lemma for each thing a step can do to the nodes: write the node of a thread, take a
node from the free stack, give it back, link it to a chain, and unlink one. The links of a chain or
of the stack change only where a step changes that chain or the stack.
-/

set_option autoImplicit false

namespace NebulaX

open NebulaX.Lib

/-- Where a node can be. -/
inductive NodePlace (τ : Type) where
  | free
  | bucket (b : UInt32)
  | thread (t : τ)

namespace OrderMap

variable {τ : Type}

/-- The node `x` is at a place. -/
def At (lists : UInt32 → List UInt32) (free : List UInt32) (owns : τ → Option UInt32) :
    NodePlace τ → UInt32 → Prop
  | .free, x => x ∈ free
  | .bucket b, x => x ∈ lists b
  | .thread t, x => owns t = some x

/-- The nodes of the index are at their places. -/
structure Heap (place : UInt32 → NodePlace τ) (lists : UInt32 → List UInt32) (free : List UInt32)
    (m : OrderMap) (owns : τ → Option UInt32) : Prop where
  freeChain : Chain m.link uint32Max m.freeHead.idx free
  chains : ∀ b, Chain m.link uint32Max (m.buckets b) (lists b)
  placed : Placed (fun x => x.toNat < m.capacity) (At lists free owns) place
  bucket : ∀ b, ∀ x ∈ lists b, (m.nodes x).bucket = b ∧ m.hash (m.nodes x).orderId = b
  keys : ∀ b, ((lists b).map fun x => (m.nodes x).orderId).Nodup
  capacity : m.capacity < 2 ^ 32

section
variable {place : UInt32 → NodePlace τ} {lists : UInt32 → List UInt32} {free : List UInt32}
variable {m m' : OrderMap} {owns : τ → Option UInt32} {t : τ} {b idx x : UInt32}

namespace Heap

/-- A node is not `UINT32_MAX`. -/
theorem ne_nil (hp : Heap place lists free m owns) (hx : x.toNat < m.capacity) : x ≠ uint32Max := by
  rintro rfl
  have hcap := hp.capacity
  have hmax : uint32Max.toNat = 2 ^ 32 - 1 := rfl
  omega

theorem not_free (hp : Heap place lists free m owns) (hown : owns t = some idx) : idx ∉ free :=
  fun hf => by cases hp.placed.unique (.thread t) .free hown hf

theorem not_listed (hp : Heap place lists free m owns) (hown : owns t = some idx) :
    idx ∉ lists b :=
  fun hf => by cases hp.placed.unique (.thread t) (.bucket b) hown hf

theorem listed_not_free (hp : Heap place lists free m owns) (hx : x ∈ lists b) : x ∉ free :=
  fun hf => by cases hp.placed.unique (.bucket b) .free hx hf

theorem listed_not_owned (hp : Heap place lists free m owns) (hx : x ∈ lists b) (t : τ) :
    owns t ≠ some x :=
  fun hf => by cases hp.placed.unique (.bucket b) (.thread t) hx hf

theorem listed_once (hp : Heap place lists free m owns) {b' : UInt32} (hx : x ∈ lists b)
    (hx' : x ∈ lists b') : b = b' := by
  cases hp.placed.unique (.bucket b) (.bucket b') hx hx'
  rfl

theorem owned_once (hp : Heap place lists free m owns) {t' : τ} (hx : owns t = some x)
    (hx' : owns t' = some x) : t = t' := by
  cases hp.placed.unique (.thread t) (.thread t') hx hx'
  rfl

/-! ### Writes that move no node -/

/-- The nodes, the heads and the free stack are as before. -/
theorem same (hp : Heap place lists free m owns) (hnodes : m'.nodes = m.nodes)
    (hbuckets : m'.buckets = m.buckets) (hhead : m'.freeHead = m.freeHead)
    (hshift : m'.hashShift = m.hashShift) (hcap : m'.capacity = m.capacity) :
    Heap place lists free m' owns := by
  have hlink : m'.link = m.link := by
    funext i
    rw [link, link, hnodes]
  have hhash : m'.hash = m.hash := by
    funext k
    rw [hash, hash, hshift]
  exact
    { freeChain := by rw [hlink, hhead]; exact hp.freeChain
      chains := fun b => by rw [hlink, hbuckets]; exact hp.chains b
      placed := by rw [hcap]; exact hp.placed
      bucket := fun b x hx => by rw [hnodes, hhash]; exact hp.bucket b x hx
      keys := fun b => by rw [hnodes]; exact hp.keys b
      capacity := by rw [hcap]; exact hp.capacity }

/-- A thread writes its own node. -/
theorem writeOwn (hp : Heap place lists free m owns) (hown : owns t = some idx)
    (f : Node → Node) : Heap place lists free (m.modifyNode idx f) owns := by
  have hnodes : ∀ x, x ≠ idx → (m.modifyNode idx f).nodes x = m.nodes x := fun x hx =>
    Function.update_of_ne hx _ _
  have hlisted : ∀ b, ∀ x ∈ lists b, (m.modifyNode idx f).nodes x = m.nodes x := fun b x hx =>
    hnodes x fun heq => hp.not_listed hown (heq ▸ hx)
  constructor
  case freeChain =>
    refine hp.freeChain.congr fun x hx => ?_
    rw [link, hnodes x fun heq => hp.not_free hown (heq ▸ hx)]
    rfl
  case chains =>
    intro b
    refine (hp.chains b).congr fun x hx => ?_
    rw [link, hlisted b x hx]
    rfl
  case placed => exact hp.placed
  case bucket =>
    intro b x hx
    rw [hlisted b x hx]
    exact hp.bucket b x hx
  case keys =>
    intro b
    rw [List.map_congr_left fun x hx => congrArg Node.orderId (hlisted b x hx)]
    exact hp.keys b
  case capacity => exact hp.capacity

/-! ### The hands of a thread -/

variable [DecidableEq τ]

/-- A thread with empty hands takes the node `x`, which no thread has. -/
theorem taken (hnone : owns t = none) (hx : ∀ t', owns t' ≠ some x) (t' : τ) (y : UInt32) :
    Function.update owns t (some x) t' = some y ↔
      if y = x then (.thread t' : NodePlace τ) = .thread t else owns t' = some y := by
  by_cases ht : t' = t
  · subst ht
    by_cases hy : y = x
    · simp [hy]
    · simp [hy, Ne.symm hy, hnone]
  · by_cases hy : y = x
    · simp [hy, ht, hx]
    · simp [hy, ht]

/-- A thread lets go of its node `x`. -/
theorem given (hp : Heap place lists free m owns) (hown : owns t = some x) {k : NodePlace τ}
    (hk : ∀ t', k ≠ .thread t') (t' : τ) (y : UInt32) :
    Function.update owns t none t' = some y ↔
      if y = x then .thread t' = k else owns t' = some y := by
  by_cases ht : t' = t
  · subst ht
    by_cases hy : y = x
    · simp [hy, Ne.symm (hk t')]
    · simp [hy, Ne.symm hy, hown]
  · by_cases hy : y = x
    · subst hy
      simpa [ht, Ne.symm (hk t')] using fun hy => ht (hp.owned_once hy hown)
    · simp [hy, ht]

/-! ### The free stack -/

/-- A thread takes the first free node. -/
theorem pop (hp : Heap place lists (idx :: free) m owns) {next : UInt32}
    (hrest : Chain m.link uint32Max next free) (hown : owns t = none) :
    Heap (Function.update place idx (.thread t)) lists free
      { m with freeHead := m.freeHead.swing next } (Function.update owns t (some idx)) where
  freeChain := hrest
  chains := hp.chains
  placed := by
    have hfree : At lists (idx :: free) owns .free idx := List.mem_cons_self
    have hnotin : idx ∉ free := (List.nodup_cons.mp hp.freeChain.nodup).1
    refine hp.placed.move (hp.placed.inside_of hfree) fun k y => ?_
    cases k with
    | free =>
        by_cases hy : y = idx
        · simp [At, hy, hnotin]
        · simp [At, hy]
    | bucket b =>
        by_cases hy : y = idx
        · subst hy
          simpa [At] using fun hx => hp.listed_not_free (b := b) hx List.mem_cons_self
        · simp [At, hy]
    | thread t' =>
        exact taken hown (fun t' hx => hp.not_free hx List.mem_cons_self) t' y
  bucket := hp.bucket
  keys := hp.keys
  capacity := hp.capacity

/-- A thread gives its node back. -/
theorem push (hp : Heap place lists free m owns) (hown : owns t = some idx)
    (hchain : Chain m.link uint32Max idx (idx :: free)) :
    Heap (Function.update place idx .free) lists (idx :: free)
      { m with freeHead := m.freeHead.swing idx } (Function.update owns t none) where
  freeChain := hchain
  chains := hp.chains
  placed := by
    refine hp.placed.move (hp.placed.inside_of (k := .thread t) hown) fun k y => ?_
    cases k with
    | free =>
        by_cases hy : y = idx <;> simp [At, hy]
    | bucket b =>
        by_cases hy : y = idx
        · simp [At, hy, hp.not_listed hown]
        · simp [At, hy]
    | thread t' => exact hp.given (k := .free) hown (fun _ => nofun) t' y
  bucket := hp.bucket
  keys := hp.keys
  capacity := hp.capacity

/-! ### Chains -/

/-- A thread puts its node in front of a chain. -/
theorem link (hp : Heap place lists free m owns) (hown : owns t = some idx)
    (hnext : m.link idx = m.buckets b) (hbucket : (m.nodes idx).bucket = b)
    (hhash : m.hash (m.nodes idx).orderId = b)
    (habsent : ∀ x ∈ lists b, (m.nodes x).orderId ≠ (m.nodes idx).orderId) :
    Heap (Function.update place idx (.bucket b)) (Function.update lists b (idx :: lists b)) free
      { m with buckets := Function.update m.buckets b idx } (Function.update owns t none) where
  freeChain := hp.freeChain
  chains := by
    intro b'
    change Chain m.link uint32Max (Function.update m.buckets b idx b') _
    by_cases hb : b' = b
    · subst hb
      rw [Function.update_self, Function.update_self]
      refine ⟨rfl, hp.ne_nil (hp.placed.inside_of (k := .thread t) hown), ?_⟩
      have hchain := hp.chains b'
      rw [← hnext] at hchain
      exact hchain
    · rw [Function.update_of_ne hb, Function.update_of_ne hb]
      exact hp.chains b'
  placed := by
    refine hp.placed.move (hp.placed.inside_of (k := .thread t) hown) fun k y => ?_
    cases k with
    | free =>
        by_cases hy : y = idx
        · simp [At, hy, hp.not_free hown]
        · simp [At, hy]
    | bucket b' =>
        by_cases hb : b' = b
        · subst hb
          by_cases hy : y = idx <;> simp [At, hy]
        · by_cases hy : y = idx
          · simp [At, hy, hb, hp.not_listed hown]
          · simp [At, hy, hb]
    | thread t' => exact hp.given (k := .bucket b) hown (fun _ => nofun) t' y
  bucket := by
    intro b' x hx
    by_cases hb : b' = b
    · subst hb
      rw [Function.update_self] at hx
      rcases List.mem_cons.mp hx with rfl | hx
      · exact ⟨hbucket, hhash⟩
      · exact hp.bucket b' x hx
    · rw [Function.update_of_ne hb] at hx
      exact hp.bucket b' x hx
  keys := by
    intro b'
    by_cases hb : b' = b
    · subst hb
      rw [Function.update_self, List.map_cons, List.nodup_cons]
      refine ⟨?_, hp.keys b'⟩
      intro hmem
      obtain ⟨x, hx, hkey⟩ := List.mem_map.mp hmem
      exact habsent x hx hkey
    · rw [Function.update_of_ne hb]
      exact hp.keys b'
  capacity := hp.capacity

/-- A thread takes a node out of a chain. -/
theorem unlink (hp : Heap place lists free m owns) {l r : List UInt32}
    {nodes : UInt32 → Node} {buckets : UInt32 → UInt32} (hx : lists b = l ++ x :: r)
    (hu : m.Unlinks b l x r nodes buckets) (hown : owns t = none) :
    Heap (Function.update place x (.thread t)) (Function.update lists b (l ++ r)) free
      (m.unlinked nodes buckets) (Function.update owns t (some x)) := by
  have hmem : x ∈ lists b := by simp [hx]
  have hnodup : (l ++ x :: r).Nodup := hx ▸ (hp.chains b).nodup
  have hnotin : x ∉ l ++ r := (List.nodup_cons.mp (List.nodup_middle.mp hnodup)).1
  have hsub : ∀ y ∈ l ++ r, y ∈ lists b := by
    intro y hy
    rw [hx]
    rcases List.mem_append.mp hy with hy | hy
    · exact List.mem_append_left _ hy
    · exact List.mem_append_right _ (List.mem_cons_of_mem _ hy)
  -- the links outside the chain of `b` are as before
  have hlink : ∀ y, y ∉ lists b → (m.unlinked nodes buckets).link y = m.link y := fun y hy =>
    hu.next y (hx ▸ hy)
  constructor
  case freeChain =>
    exact hp.freeChain.congr fun y hy => hlink y fun hyb => hp.listed_not_free hyb hy
  case chains =>
    intro b'
    by_cases hb : b' = b
    · subst hb
      rw [Function.update_self]
      exact hu.chain
    · rw [Function.update_of_ne hb]
      change Chain _ _ (buckets b') _
      rw [hu.heads b' hb]
      exact (hp.chains b').congr fun y hy => hlink y fun hyb => hb (hp.listed_once hy hyb)
  case placed =>
    refine hp.placed.move (hp.placed.inside_of (k := .bucket b) hmem) fun k y => ?_
    cases k with
    | free =>
        by_cases hy : y = x
        · simp [At, hy, hp.listed_not_free hmem]
        · simp [At, hy]
    | bucket b' =>
        by_cases hb : b' = b
        · subst hb
          by_cases hy : y = x
          · subst hy
            simpa [At] using hnotin
          · simp [At, hy, hx]
        · by_cases hy : y = x
          · subst hy
            simpa [At, hb] using fun hyb => hb (hp.listed_once hyb hmem)
          · simp [At, hy, hb]
    | thread t' => exact taken hown (hp.listed_not_owned hmem) t' y
  case bucket =>
    intro b' y hy
    have hy' : y ∈ lists b' := by
      by_cases hb : b' = b
      · subst hb
        rw [Function.update_self] at hy
        exact hsub y hy
      · rwa [Function.update_of_ne hb] at hy
    change (nodes y).bucket = b' ∧ m.hash (nodes y).orderId = b'
    rw [hu.bucket, hu.orderId]
    exact hp.bucket b' y hy'
  case keys =>
    intro b'
    change ((Function.update lists b (l ++ r) b').map fun y => (nodes y).orderId).Nodup
    rw [List.map_congr_left fun y _ => hu.orderId y]
    by_cases hb : b' = b
    · subst hb
      have hkeys := hp.keys b'
      rw [hx] at hkeys
      rw [Function.update_self]
      refine hkeys.sublist (List.Sublist.map _ ?_)
      exact (List.Sublist.refl l).append (List.sublist_cons_self x r)
    · rw [Function.update_of_ne hb]
      exact hp.keys b'
  case capacity => exact hp.capacity

end Heap

end

end OrderMap

end NebulaX
