import NebulaX.Lib.Trace
import NebulaX.Proofs.MapHeap

/-!
# `NebulaX.Proofs.MapThreads`: the order index under several threads

What holds of the index while calls are under way. A node is in the list of one bucket, on the free
stack, or in the hands of one thread (`OrderMap.Heap`). What a thread has read so far is still right
in its own bucket, because no call changes that bucket meanwhile (`OrderMap.ThreadOk`). A key that
no call is about to change is stored as the calls that returned left it (`MapThreads.Inv.holds`).
-/

set_option autoImplicit false

namespace NebulaX

open NebulaX.Lib

/-! ### What a thread has in hand -/

/-- The node of a thread in `insert`. -/
def InsertPc.owns : InsertPc → Option UInt32
  | .allocLoop pc => pc.owns
  | .storeId idx => some idx
  | .storeOrder idx => some idx
  | .storeBucket idx => some idx
  | .recheck idx => some idx
  | .head idx => some idx
  | .storeNext idx _ => some idx
  | .link idx _ => some idx
  | .retry idx _ => some idx
  | .free idx => some idx
  | .freeLoop pc => pc.owns
  | _ => none

/-- The node of a thread in `erase`. -/
def ErasePc.owns : ErasePc → Option UInt32
  | .free idx => some idx
  | .freeLoop pc => pc.owns
  | _ => none

namespace MapThread

/-- The key of the call. -/
def key? : MapThread → Option UInt64
  | .idle => none
  | .insert k _ _ => some k
  | .find k _ => some k
  | .erase k _ => some k

/-- The thread only reads. -/
def Reads : MapThread → Prop
  | .idle => True
  | .find _ _ => True
  | _ => False

instance : DecidablePred Reads
  | .idle | .find _ _ => .isTrue trivial
  | .insert _ _ _ | .erase _ _ => .isFalse id

/-- The node in the hands of the thread. -/
def owns : MapThread → Option UInt32
  | .insert _ _ pc => pc.owns
  | .erase _ pc => pc.owns
  | _ => none

/-- Where the thread is in a loop on the free stack. -/
def stack? : MapThread → Option StackPc
  | .insert _ _ (.allocLoop pc) => some pc
  | .insert _ _ (.freeLoop pc) => some pc
  | .erase _ (.freeLoop pc) => some pc
  | _ => none

/-- A thread in a loop on the free stack has the node of that loop. -/
theorem owns_of_stack {th : MapThread} {pc : StackPc} (h : th.stack? = some pc) :
    th.owns = pc.owns := by
  cases th with
  | idle => cases h
  | insert k v pc' => cases pc' <;> cases h <;> rfl
  | find k pc' => cases h
  | erase k pc' =>
      cases pc' <;> cases h
      rfl

/-- What the thread has done to the entry of its key. -/
def effect : MapThread → Option (Option UInt32)
  | .insert _ v .addLen => some (some v)
  | .insert _ v .addSize => some (some v)
  | .insert _ v .lenAfter => some (some v)
  | .insert _ v (.treeify true) => some (some v)
  | .insert _ v (.copy true) => some (some v)
  | .erase _ (.free _) => some none
  | .erase _ (.freeLoop _) => some none
  | .erase _ .subLen => some none
  | .erase _ .subSize => some none
  | _ => none

/-- The state of the bucket while the thread is in its call. -/
def mode : MapThread → BucketState
  | .insert _ _ .overflow => .treeified
  | .insert _ _ (.copy _) => .converting
  | .find _ .overflow => .treeified
  | .erase _ .overflow => .treeified
  | _ => .chain

end MapThread

namespace OrderMap

variable {m m' : OrderMap} {lists lists' : UInt32 → List UInt32} {k : UInt64} {v idx : UInt32}

/-- What is stored under a key. -/
def stored (m : OrderMap) (lists : UInt32 → List UInt32) (k : UInt64) : Option UInt32 :=
  if m.state (m.hash k) = .treeified then m.overflow.find? k
  else (m.nodeOf k (lists (m.hash k))).map fun x => (m.nodes x).order

/-- A walk along the chain `l` for `k` has come to the node `idx`. -/
def Reached (m : OrderMap) (k : UInt64) (l : List UInt32) (idx : UInt32) : Prop :=
  ∃ l₁ r, l = l₁ ++ idx :: r ∧ ∀ y ∈ l₁, (m.nodes y).orderId ≠ k

/-- The node is filled for `insert`. -/
def Filled (m : OrderMap) (k : UInt64) (v idx : UInt32) : Prop :=
  (m.nodes idx).orderId = k ∧ (m.nodes idx).order = v ∧ (m.nodes idx).bucket = m.hash k

/-- The key `k` is at the node `next`, which comes after `idx`. -/
def Before (m : OrderMap) (k : UInt64) (l : List UInt32) (idx next : UInt32) : Prop :=
  ∃ l₁ r, l = l₁ ++ idx :: next :: r ∧ (∀ y ∈ l₁, (m.nodes y).orderId ≠ k) ∧
    (m.nodes idx).orderId ≠ k

/-- What a thread in `insert` knows. It does not come to `freeNode`: nobody else converts the
bucket. -/
def InsertFits (m : OrderMap) (k : UInt64) (v : UInt32) : InsertPc → Prop
  | .allocLoop pc => pc.owns = none
  | .storeOrder idx => (m.nodes idx).orderId = k
  | .storeBucket idx => (m.nodes idx).orderId = k ∧ (m.nodes idx).order = v
  | .recheck idx => m.Filled k v idx
  | .head idx => m.Filled k v idx
  | .storeNext idx head => m.Filled k v idx ∧ m.buckets (m.hash k) = head
  | .link idx head => m.Filled k v idx ∧ m.buckets (m.hash k) = head ∧ m.link idx = head
  | .retry idx head => m.Filled k v idx ∧ m.buckets (m.hash k) = head
  | .free _ => False
  | .freeLoop _ => False
  | _ => True

/-- What a thread in `find` knows of the chain `l`. -/
def FindFits (m : OrderMap) (k : UInt64) (l : List UInt32) : FindPc → Prop
  | .bucket idx => m.Reached k l idx
  | .id idx => m.Reached k l idx
  | .order idx => m.Reached k l idx ∧ (m.nodes idx).orderId = k
  | .next idx => m.Reached k l idx ∧ (m.nodes idx).orderId ≠ k
  | _ => True

/-- What a thread in `erase` knows of the chain `l`. -/
def EraseFits (m : OrderMap) (k : UInt64) (l : List UInt32) : ErasePc → Prop
  | .headId idx => ∃ r, l = idx :: r
  | .headNext idx => (∃ r, l = idx :: r) ∧ (m.nodes idx).orderId = k
  | .unlinkHead idx nxt => (∃ r, l = idx :: r) ∧ (m.nodes idx).orderId = k ∧ m.link idx = nxt
  | .headAgain idx => (∃ r, l = idx :: r) ∧ (m.nodes idx).orderId = k
  | .bucket idx => m.Reached k l idx ∧ (m.nodes idx).orderId ≠ k
  | .next idx => m.Reached k l idx ∧ (m.nodes idx).orderId ≠ k
  | .nextId idx next => m.Before k l idx next
  | .nextNext idx next => m.Before k l idx next ∧ (m.nodes next).orderId = k
  | .unlink idx next nxt2 =>
      m.Before k l idx next ∧ (m.nodes next).orderId = k ∧ m.link next = nxt2
  | .freeLoop pc => pc.owns ≠ none
  | _ => True

/-- What a thread knows. -/
def Fits (m : OrderMap) (lists : UInt32 → List UInt32) : MapThread → Prop
  | .idle => True
  | .insert k v pc => m.InsertFits k v pc
  | .find k pc => m.FindFits k (lists (m.hash k)) pc
  | .erase k pc => m.EraseFits k (lists (m.hash k)) pc

/-! ### What a bucket is -/

/-- The indices agree on the bucket `b`. -/
structure SameAt (b : UInt32) (lists lists' : UInt32 → List UInt32) (m m' : OrderMap) : Prop where
  shift : m'.hashShift = m.hashShift
  state : m'.state b = m.state b
  buckets : m'.buckets b = m.buckets b
  listed : lists' b = lists b
  nodes : ∀ x ∈ lists b, m'.nodes x = m.nodes x
  overflow : ∀ k, m.hash k = b → m'.overflow.find? k = m.overflow.find? k

theorem hash_eq (h : m'.hashShift = m.hashShift) : m'.hash = m.hash := by
  funext k
  rw [hash, hash, h]

theorem SameAt.stored (h : SameAt (m.hash k) lists lists' m m') :
    m'.stored lists' k = m.stored lists k := by
  rw [OrderMap.stored, OrderMap.stored, hash_eq h.shift, h.state, h.listed, h.overflow k rfl,
    nodeOf_congr fun x hx => congrArg Node.orderId (h.nodes x hx)]
  split
  · rfl
  · cases hn : m.nodeOf k (lists (m.hash k)) with
    | none => rfl
    | some x => rw [Option.map_some, Option.map_some, h.nodes x (mem_of_nodeOf hn)]

theorem Reached.mem {l : List UInt32} (h : m.Reached k l idx) : idx ∈ l := by
  obtain ⟨l₁, r, rfl, -⟩ := h
  simp

theorem Reached.congr {l : List UInt32} (hn : ∀ x ∈ l, m'.nodes x = m.nodes x)
    (h : m.Reached k l idx) : m'.Reached k l idx := by
  obtain ⟨l₁, r, rfl, hl⟩ := h
  refine ⟨l₁, r, rfl, fun y hy => ?_⟩
  rw [hn y (List.mem_append_left _ hy)]
  exact hl y hy

theorem Before.congr {l : List UInt32} {next : UInt32} (hn : ∀ x ∈ l, m'.nodes x = m.nodes x)
    (h : m.Before k l idx next) : m'.Before k l idx next := by
  obtain ⟨l₁, r, rfl, hl, hidx⟩ := h
  refine ⟨l₁, r, rfl, fun y hy => ?_, ?_⟩
  · rw [hn y (List.mem_append_left _ hy)]
    exact hl y hy
  · rw [hn idx (by simp)]
    exact hidx

theorem Before.mem_next {l : List UInt32} {next : UInt32} (h : m.Before k l idx next) :
    next ∈ l := by
  obtain ⟨l₁, r, rfl, -⟩ := h
  simp

/-- What a thread knows depends on its bucket and on its own node. -/
theorem Fits.frame {th : MapThread} (h : m.Fits lists th)
    (hsame : ∀ k, th.key? = some k → SameAt (m.hash k) lists lists' m m')
    (hown : ∀ x, th.owns = some x → m'.nodes x = m.nodes x) : m'.Fits lists' th := by
  cases th with
  | idle => trivial
  | insert k v pc =>
      have hs := hsame k rfl
      have hhash := hash_eq hs.shift
      cases pc <;>
        simp only [Fits, InsertFits, Filled, link] at h ⊢ <;>
        first
        | exact h
        | (rw [hown _ rfl]; exact h)
        | (rw [hown _ rfl, hhash]; exact h)
        | (rw [hown _ rfl, hhash, hs.buckets]; exact h)
  | find k pc =>
      have hs := hsame k rfl
      simp only [Fits, hash_eq hs.shift, hs.listed] at h ⊢
      cases pc with
      | overflow => trivial
      | head => trivial
      | bucket idx | id idx => exact Reached.congr hs.nodes h
      | order idx | next idx => exact ⟨h.1.congr hs.nodes, by rw [hs.nodes _ h.1.mem]; exact h.2⟩
  | erase k pc =>
      have hs := hsame k rfl
      simp only [Fits, hash_eq hs.shift, hs.listed] at h ⊢
      have hfirst : ∀ {idx : UInt32}, (∃ r, lists (m.hash k) = idx :: r) →
          m'.nodes idx = m.nodes idx := by
        rintro idx ⟨r, hr⟩
        exact hs.nodes idx (by rw [hr]; exact List.mem_cons_self)
      cases pc with
      | overflow => trivial
      | head => trivial
      | headId idx => exact h
      | headNext idx => exact ⟨h.1, by rw [hfirst h.1]; exact h.2⟩
      | unlinkHead idx nxt => exact ⟨h.1, by rw [hfirst h.1]; exact h.2.1,
          by rw [link, hfirst h.1]; exact h.2.2⟩
      | headAgain idx => exact ⟨h.1, by rw [hfirst h.1]; exact h.2⟩
      | bucket idx | next idx => exact ⟨h.1.congr hs.nodes, by rw [hs.nodes _ h.1.mem]; exact h.2⟩
      | nextId idx next => exact Before.congr hs.nodes h
      | nextNext idx next =>
          exact ⟨h.1.congr hs.nodes, by rw [hs.nodes _ h.1.mem_next]; exact h.2⟩
      | unlink idx next nxt2 =>
          exact ⟨h.1.congr hs.nodes, by rw [hs.nodes _ h.1.mem_next]; exact h.2.1,
            by rw [link, hs.nodes _ h.1.mem_next]; exact h.2.2⟩
      | free idx => trivial
      | freeLoop pc => exact h
      | subLen => trivial
      | subSize => trivial

/-- The counters aside, the index is as before. -/
structure SameMap (m m' : OrderMap) : Prop where
  nodes : m'.nodes = m.nodes
  buckets : m'.buckets = m.buckets
  state : m'.state = m.state
  freeHead : m'.freeHead = m.freeHead
  shift : m'.hashShift = m.hashShift
  capacity : m'.capacity = m.capacity
  overflow : m'.overflow = m.overflow

theorem SameMap.refl (m : OrderMap) : SameMap m m := ⟨rfl, rfl, rfl, rfl, rfl, rfl, rfl⟩

theorem SameMap.sameAt (h : SameMap m m') (b : UInt32) : SameAt b lists lists m m' where
  shift := h.shift
  state := by rw [h.state]
  buckets := by rw [h.buckets]
  listed := rfl
  nodes := fun x _ => by rw [h.nodes]
  overflow := fun k _ => by rw [h.overflow]

theorem SameMap.link (h : SameMap m m') : m'.link = m.link := by
  funext i
  rw [OrderMap.link, OrderMap.link, h.nodes]

/-- A thread is in step with the index, `n` exchanges after it loaded the free head. -/
structure ThreadOk (lists : UInt32 → List UInt32) (m : OrderMap) (n : Nat) (th : MapThread) :
    Prop where
  state : ∀ k, th.key? = some k → m.state (m.hash k) = th.mode
  fits : m.Fits lists th
  absent : ∀ k v pc, th = .insert k v pc → th.effect = none → m.stored lists k = none
  effect : ∀ k r, th.key? = some k → th.effect = some r → m.stored lists k = r
  tracks : ∀ pc, th.stack? = some pc → pc.Tracks m.freeHead m.link n

theorem ThreadOk.idle {n : Nat} : ThreadOk lists m n .idle :=
  ⟨nofun, trivial, nofun, nofun, nofun⟩

/-- A thread goes on in its call, with the same effect. -/
structure SameCall (th th' : MapThread) : Prop where
  key : th'.key? = th.key?
  mode : th'.mode = th.mode
  effect : th'.effect = th.effect
  reads : th'.Reads ↔ th.Reads
  insert : ∀ k v pc, th' = .insert k v pc → ∃ pc', th = .insert k v pc'

theorem ThreadOk.again {th th' : MapThread} {n n' : Nat} (h : ThreadOk lists m n th)
    (hc : SameCall th th')
    (hsame : ∀ k, th.key? = some k → SameAt (m.hash k) lists lists' m m')
    (hfits : m'.Fits lists' th')
    (htracks : ∀ pc, th'.stack? = some pc → pc.Tracks m'.freeHead m'.link n') :
    ThreadOk lists' m' n' th' where
  state k hk := by
    have hs := hsame k (hc.key ▸ hk)
    rw [hc.mode, hash_eq hs.shift, hs.state]
    exact h.state k (hc.key ▸ hk)
  fits := hfits
  absent k v pc hth heff := by
    obtain ⟨pc', hth'⟩ := hc.insert k v pc hth
    rw [(hsame k (by rw [hth']; rfl)).stored]
    exact h.absent k v pc' hth' (hc.effect ▸ heff)
  effect k r hk heff := by
    rw [(hsame k (hc.key ▸ hk)).stored]
    exact h.effect k r (hc.key ▸ hk) (hc.effect ▸ heff)
  tracks := htracks

theorem ThreadOk.frame {th : MapThread} {n n' : Nat} (h : ThreadOk lists m n th)
    (hsame : ∀ k, th.key? = some k → SameAt (m.hash k) lists lists' m m')
    (hown : ∀ x, th.owns = some x → m'.nodes x = m.nodes x)
    (htracks : ∀ pc, th.stack? = some pc → pc.Tracks m'.freeHead m'.link n') :
    ThreadOk lists' m' n' th :=
  h.again ⟨rfl, rfl, rfl, Iff.rfl, fun _ _ pc hth => ⟨pc, hth⟩⟩ hsame (h.fits.frame hsame hown)
    htracks

/-! ### What a walk finds -/

section
variable {τ : Type} {place : UInt32 → NodePlace τ} {free : List UInt32}
variable {owns : τ → Option UInt32}

theorem stored_chain (hst : m.state (m.hash k) ≠ .treeified) :
    m.stored lists k = (m.nodeOf k (lists (m.hash k))).map fun x => (m.nodes x).order :=
  if_neg hst

theorem stored_treeified (hst : m.state (m.hash k) = .treeified) :
    m.stored lists k = m.overflow.find? k := if_pos hst

theorem nodeOf_eq_none {l : List UInt32} (h : ∀ y ∈ l, (m.nodes y).orderId ≠ k) :
    m.nodeOf k l = none := by
  rw [nodeOf, List.find?_eq_none]
  intro y hy
  simpa using h y hy

theorem Reached.nodeOf {l : List UInt32} (h : m.Reached k l idx)
    (hidx : (m.nodes idx).orderId = k) : m.nodeOf k l = some idx := by
  obtain ⟨l₁, r, rfl, hl⟩ := h
  rw [nodeOf_append, nodeOf_eq_none hl, Option.none_or, OrderMap.nodeOf]
  exact List.find?_cons_of_pos (by simpa using hidx)

/-- A walk that has passed `l₁` is at the end, or at the next node. -/
theorem reached_or_none {l l₁ r : List UInt32} (hl : l = l₁ ++ r)
    (hpassed : ∀ y ∈ l₁, (m.nodes y).orderId ≠ k) (hc : Chain m.link uint32Max idx r) :
    (idx = uint32Max ∧ m.nodeOf k l = none) ∨
      (idx ≠ uint32Max ∧ m.Reached k l idx ∧ ∃ r', r = idx :: r') := by
  by_cases hidx : idx = uint32Max
  · subst hidx
    have hr := hc.eq_nil_of_head
    subst hr
    rw [List.append_nil] at hl
    subst hl
    exact Or.inl ⟨rfl, nodeOf_eq_none hpassed⟩
  · obtain ⟨r', rfl, -⟩ := hc.exists_cons hidx
    exact Or.inr ⟨hidx, ⟨l₁, r', hl, hpassed⟩, r', rfl⟩

/-- The chain behind a node of it. -/
theorem Reached.behind {l : List UInt32} (h : m.Reached k l idx)
    (hc : Chain m.link uint32Max (m.buckets (m.hash k)) l) (hidx : (m.nodes idx).orderId ≠ k) :
    ∃ l₁ r, l = l₁ ++ r ∧ (∀ y ∈ l₁, (m.nodes y).orderId ≠ k) ∧
      (∃ l₀, l₁ = l₀ ++ [idx] ∧ ∀ y ∈ l₀, (m.nodes y).orderId ≠ k) ∧
      Chain m.link uint32Max (m.link idx) r := by
  obtain ⟨l₀, r, rfl, hl⟩ := h
  refine ⟨l₀ ++ [idx], r, by simp, ?_, ⟨l₀, rfl, hl⟩, (Chain.suffix hc).2.2⟩
  intro y hy
  rcases List.mem_append.mp hy with hy | hy
  · exact hl y hy
  · rw [List.mem_singleton.mp hy]
    exact hidx

/-- The next access of `find`: it goes on along the chain, or it returns what is stored. -/
theorem findStep_spec (hp : Heap place lists free m owns) {pc : FindPc}
    (hst : m.state (m.hash k) = (MapThread.find k pc).mode)
    (hf : m.FindFits k (lists (m.hash k)) pc) :
    (∃ pc', m.findStep k pc = .goto pc' ∧
      (MapThread.find k pc').mode = (MapThread.find k pc).mode ∧
      m.FindFits k (lists (m.hash k)) pc') ∨
    m.findStep k pc = .done (m.stored lists k) := by
  have harrive : ∀ {idx : UInt32} {l₁ r : List UInt32}, m.state (m.hash k) = .chain →
      lists (m.hash k) = l₁ ++ r → (∀ y ∈ l₁, (m.nodes y).orderId ≠ k) →
      Chain m.link uint32Max idx r →
      (∃ pc', findAt idx = .goto pc' ∧ (MapThread.find k pc').mode = .chain ∧
        m.FindFits k (lists (m.hash k)) pc') ∨ findAt idx = .done (m.stored lists k) := by
    intro idx l₁ r hchain hl hpassed hc
    rcases reached_or_none hl hpassed hc with ⟨rfl, hnone⟩ | ⟨hidx, hreached, -⟩
    · refine Or.inr ?_
      rw [findAt, if_pos rfl, stored_chain (by rw [hchain]; nofun), hnone]
      rfl
    · exact Or.inl ⟨.bucket idx, if_neg hidx, rfl, hreached⟩
  cases pc with
  | overflow => exact Or.inr (by rw [findStep, stored_treeified hst])
  | head =>
      exact harrive hst (show lists (m.hash k) = [] ++ lists (m.hash k) from rfl) nofun
        (hp.chains _)
  | bucket idx =>
      have hbucket := (hp.bucket _ idx hf.mem).1
      exact Or.inl ⟨.id idx, by simp [findStep, hbucket], rfl, hf⟩
  | id idx =>
      by_cases hid : (m.nodes idx).orderId = k
      · exact Or.inl ⟨.order idx, if_pos hid, rfl, hf, hid⟩
      · exact Or.inl ⟨.next idx, if_neg hid, rfl, hf, hid⟩
  | order idx =>
      refine Or.inr ?_
      rw [findStep, stored_chain (by rw [hst]; nofun), hf.1.nodeOf hf.2]
      rfl
  | next idx =>
      obtain ⟨l₁, r, hl, hpassed, -, hc⟩ := hf.1.behind (hp.chains _) hf.2
      exact harrive hst hl hpassed hc

end

end OrderMap

namespace MapThreads

variable {τ : Type} {s s' : MapThreads τ}

/-! ### Runs -/

/-- What the calls that have returned leave under a key. -/
def content (h : List (MapAction τ × MapEvent τ)) (k : UInt64) : Option UInt32 :=
  h.foldl (fun r x => match x.2 with
    | .inserted k' v true => if k' = k then some v else r
    | .erased k' => if k' = k then none else r
    | _ => r) none

theorem content_snoc (h : List (MapAction τ × MapEvent τ)) (a : MapAction τ) (o : MapEvent τ)
    (k : UInt64) : content (h ++ [(a, o)]) k = match o with
      | .inserted k' v true => if k' = k then some v else content h k
      | .erased k' => if k' = k then none else content h k
      | _ => content h k := by
  simp [content]

/-- The exchanges of `free_head_` that succeeded since `t` loaded it. -/
def since [DecidableEq τ] (t : τ) (h : List (MapAction τ × MapEvent τ)) : Nat :=
  swingsSince (fun x => x.2 = .loaded t) (fun x => x.2 matches .swung _) h

/-- No other thread is in a call on a key of this bucket, or all of them only look. -/
def Apart (s : MapThreads τ) (looks : Prop) (k : UInt64) : Prop :=
  ∀ t k', (s.threads t).key? = some k' → s.map.hash k' = s.map.hash k →
    looks ∧ (s.threads t).Reads

instance [Fintype τ] (s : MapThreads τ) (looks : Prop) [Decidable looks] (k : UInt64) :
    Decidable (s.Apart looks k) :=
  -- The key is looked for in the option: all keys are too many to try.
  letI (t : τ) : Decidable (∀ k' ∈ (s.threads t).key?, s.map.hash k' = s.map.hash k →
      looks ∧ (s.threads t).Reads) := Option.decidableForallMem _
  inferInstanceAs (Decidable (∀ t, ∀ k' ∈ (s.threads t).key?, s.map.hash k' = s.map.hash k →
    looks ∧ (s.threads t).Reads))

/-- The condition on a step. Calls on keys of one bucket do not overlap, finds apart. An insert is
of a key that is not there. No thread is in a loop on the free stack, between its load of the head
and its exchange, while `2 ^ 32` exchanges succeed. -/
def Separate [DecidableEq τ] (h : List (MapAction τ × MapEvent τ)) (s : MapThreads τ) :
    MapAction τ → Prop
  | .insert _ k _ => s.Apart False k ∧ content h k = none
  | .find _ k => s.Apart True k
  | .erase _ k => s.Apart False k
  | .next t _ => ∀ pc, (s.threads t).stack? = some pc → since t h < 2 ^ 32

instance [Fintype τ] [DecidableEq τ] (h : List (MapAction τ × MapEvent τ)) (s : MapThreads τ) :
    DecidablePred (Separate h s)
  | .insert _ _ _ => inferInstanceAs (Decidable (_ ∧ _ = none))
  | .find _ _ | .erase _ _ => inferInstanceAs (Decidable (s.Apart _ _))
  | .next t _ => inferInstanceAs
      (Decidable (∀ pc ∈ (s.threads t).stack?, since t h < 2 ^ 32))

/-- The index after the run `h`. -/
structure Inv [DecidableEq τ] (place : UInt32 → NodePlace τ) (lists : UInt32 → List UInt32)
    (free : List UInt32) (h : List (MapAction τ × MapEvent τ)) (s : MapThreads τ) : Prop where
  heap : s.map.Heap place lists free fun t => (s.threads t).owns
  threads : ∀ t, OrderMap.ThreadOk lists s.map (since t h) (s.threads t)
  alone : ∀ t t' k k', t ≠ t' → (s.threads t).key? = some k → (s.threads t').key? = some k' →
    s.map.hash k = s.map.hash k' → (s.threads t).Reads
  converting : ∀ b, s.map.state b = .converting →
    ∃ t k, (s.threads t).key? = some k ∧ s.map.hash k = b ∧ ¬ (s.threads t).Reads
  overflow : ∀ k, s.map.state (s.map.hash k) ≠ .treeified → s.map.overflow.find? k = none
  holds : ∀ k, (∀ t, (s.threads t).key? = some k → (s.threads t).effect = none) →
    s.map.stored lists k = content h k

variable [DecidableEq τ] {place place' : UInt32 → NodePlace τ}
variable {lists lists' : UInt32 → List UInt32} {free free' : List UInt32}
variable {h : List (MapAction τ × MapEvent τ)} {a : MapAction τ} {o : MapEvent τ}
variable {t t' : τ} {k k' : UInt64} {v idx : UInt32} {th th₀ : MapThread} {m m' : OrderMap}

@[simp] theorem goto_threads (t t' : τ) (p : MapThread) :
    (s.goto t p).threads t' = if t' = t then p else s.threads t' := by
  by_cases h : t' = t
  · subst h
    simp [goto]
  · simp [goto, h]

@[simp] theorem goto_map (t : τ) (p : MapThread) : (s.goto t p).map = s.map := rfl

theorem owns_goto (t : τ) (p : MapThread) :
    (fun t' => ((s.goto t p).threads t').owns)
      = Function.update (fun t' => (s.threads t').owns) t p.owns := by
  funext t'
  by_cases h : t' = t
  · subst h
    simp
  · simp [h]

/-- No other thread is in the bucket of a thread that writes. -/
theorem Inv.others (hi : Inv place lists free h s) (hkey : (s.threads t).key? = some k)
    (hw : ¬ (s.threads t).Reads) (ht : t' ≠ t) (hkey' : (s.threads t').key? = some k') :
    s.map.hash k' ≠ s.map.hash k :=
  fun heq => hw (hi.alone t t' k k' ht.symm hkey hkey' heq.symm)

/-- What is stored in the bucket of a thread that writes. -/
theorem Inv.stored (hi : Inv place lists free h s) (hth : s.threads t = th₀)
    (hkey : th₀.key? = some k) (hw : ¬ th₀.Reads) (hk' : s.map.hash k' = s.map.hash k)
    (hne : k' = k → th₀.effect = none) : s.map.stored lists k' = content h k' := by
  subst hth
  refine hi.holds k' fun t' ht' => ?_
  by_cases heq : t' = t
  · subst heq
    rw [hkey] at ht'
    exact hne (Option.some.inj ht').symm
  · exact absurd hk' (hi.others hkey hw heq ht')

/-- A step of a thread that writes: what it does to its own bucket and to its own nodes leaves the
other buckets and the other threads alone. -/
theorem Inv.writes (hi : Inv place lists free h s) (hth : s.threads t = th₀)
    (hkey : th₀.key? = some k) (hw : ¬ th₀.Reads)
    (hkey' : ∀ k', th.key? = some k' → k' = k ∧ ¬ th.Reads)
    (hheap : m'.Heap place' lists' free' (Function.update (fun t => (s.threads t).owns) t th.owns))
    (hsame : ∀ b, b ≠ s.map.hash k → OrderMap.SameAt b lists lists' s.map m')
    (hshift : m'.hashShift = s.map.hashShift)
    (hown : ∀ t' x, t' ≠ t → (s.threads t').owns = some x → m'.nodes x = s.map.nodes x)
    (htracks : ∀ t' pc, t' ≠ t → (s.threads t').stack? = some pc →
      pc.Tracks m'.freeHead m'.link (since t' (h ++ [(a, o)])))
    (hok : OrderMap.ThreadOk lists' m' (since t (h ++ [(a, o)])) th)
    (hcontent : ∀ k', s.map.hash k' = s.map.hash k → (th.key? = some k' → th.effect = none) →
      m'.stored lists' k' = content (h ++ [(a, o)]) k')
    (hother : ∀ k', k' ≠ k → content (h ++ [(a, o)]) k' = content h k')
    (hover : m'.state (s.map.hash k) ≠ .treeified → ∀ k', s.map.hash k' = s.map.hash k →
      m'.overflow.find? k' = none)
    (hconv : m'.state (s.map.hash k) = .converting → th.key? = some k) :
    Inv place' lists' free' (h ++ [(a, o)]) ({ s with map := m' }.goto t th) := by
  subst hth
  have hhash : m'.hash = s.map.hash := OrderMap.hash_eq hshift
  constructor
  case heap =>
    rw [owns_goto]
    exact hheap
  case threads =>
    intro t'
    by_cases ht : t' = t
    · subst ht
      simpa using hok
    · simp only [goto_threads, if_neg ht, goto_map]
      refine (hi.threads t').frame ?_ (fun x => hown t' x ht) (fun pc => htracks t' pc ht)
      exact fun k' hk' => hsame _ (hi.others hkey hw ht hk')
  case alone =>
    intro t₁ t₂ k₁ k₂ hne hk₁ hk₂ heq
    simp only [goto_threads, goto_map, hhash] at hk₁ hk₂ heq ⊢
    by_cases h₁ : t₁ = t
    · have h₂ : t₂ ≠ t := fun e => hne (h₁.trans e.symm)
      rw [if_pos h₁] at hk₁
      rw [if_neg h₂] at hk₂
      rw [(hkey' k₁ hk₁).1] at heq
      exact absurd heq.symm (hi.others hkey hw h₂ hk₂)
    · rw [if_neg h₁] at hk₁ ⊢
      by_cases h₂ : t₂ = t
      · rw [if_pos h₂] at hk₂
        rw [(hkey' k₂ hk₂).1] at heq
        exact absurd heq (hi.others hkey hw h₁ hk₁)
      · rw [if_neg h₂] at hk₂
        exact hi.alone t₁ t₂ k₁ k₂ hne hk₁ hk₂ heq
  case converting =>
    intro b hb
    simp only [goto_threads, goto_map, hhash] at hb ⊢
    by_cases hbk : b = s.map.hash k
    · subst hbk
      have hth := hconv hb
      exact ⟨t, k, by rw [if_pos rfl]; exact hth, rfl, by rw [if_pos rfl]; exact (hkey' k hth).2⟩
    · rw [(hsame b hbk).state] at hb
      obtain ⟨t', k', hk', hb', hw'⟩ := hi.converting b hb
      have ht : t' ≠ t := by
        rintro rfl
        rw [hkey] at hk'
        exact hbk (by rw [← hb', Option.some.inj hk'])
      exact ⟨t', k', by rw [if_neg ht]; exact hk', hb', by rw [if_neg ht]; exact hw'⟩
  case overflow =>
    intro k' hk'
    simp only [goto_map, hhash] at hk' ⊢
    by_cases hbk : s.map.hash k' = s.map.hash k
    · rw [hbk] at hk'
      exact hover hk' k' hbk
    · rw [(hsame _ hbk).overflow k' rfl]
      rw [(hsame _ hbk).state] at hk'
      exact hi.overflow k' hk'
  case holds =>
    intro k' hk'
    simp only [goto_map]
    by_cases hbk : s.map.hash k' = s.map.hash k
    · refine hcontent k' hbk fun hth => ?_
      have := hk' t
      simpa [hth] using this
    · rw [(hsame _ hbk).stored, hother k' fun e => hbk (by rw [e])]
      refine hi.holds k' fun t' ht' => ?_
      have ht : t' ≠ t := by
        rintro rfl
        rw [hkey] at ht'
        exact hbk (by rw [Option.some.inj ht'])
      simpa [ht, ht'] using hk' t'

/-! ### Steps that change nothing but the place of a thread -/

theorem since_snoc (h : List (MapAction τ × MapEvent τ)) (a : MapAction τ) (o : MapEvent τ)
    (t : τ) : since t (h ++ [(a, o)]) = match o with
      | .loaded t' => if t' = t then 0 else since t h
      | .swung _ => since t h + 1
      | _ => since t h := by
  rw [since, swingsSince_snoc]
  cases o <;> simp [since]

/-- The event of a step of `t` that is no exchange of the free head. -/
def Calm (t : τ) : MapEvent τ → Prop
  | .loaded t' => t' = t
  | .swung _ => False
  | _ => True

theorem Calm.since (ho : Calm t o) (ht : t' ≠ t) : since t' (h ++ [(a, o)]) = since t' h := by
  rw [since_snoc]
  cases o with
  | loaded t₁ =>
      have ht₁ : t₁ = t := ho
      exact if_neg fun e => ht (e.symm.trans ht₁)
  | swung t₁ => exact absurd ho id
  | silent => rfl
  | inserted k v r => rfl
  | found k r => rfl
  | erased k => rfl

theorem Inv.tracks (hi : Inv place lists free h s) (ho : Calm t o) (ht : t' ≠ t) {pc : StackPc}
    (hpc : (s.threads t').stack? = some pc) :
    pc.Tracks s.map.freeHead s.map.link (MapThreads.since t' (h ++ [(a, o)])) := by
  rw [ho.since ht]
  exact (hi.threads t').tracks pc hpc

/-- A thread that writes goes on in its call. What the buckets hold stays. -/
theorem Inv.shifts (hi : Inv place lists free h s) (hth : s.threads t = th₀)
    (hkey : th₀.key? = some k) (hw : ¬ th₀.Reads)
    (hheap : m'.Heap place' lists free' (Function.update (fun t => (s.threads t).owns) t th.owns))
    (hsame : ∀ b, OrderMap.SameAt b lists lists s.map m')
    (hown : ∀ t' x, t' ≠ t → (s.threads t').owns = some x → m'.nodes x = s.map.nodes x)
    (hothers : ∀ t' pc, t' ≠ t → (s.threads t').stack? = some pc →
      pc.Tracks m'.freeHead m'.link (since t' (h ++ [(a, o)])))
    (hcontent : ∀ k, content (h ++ [(a, o)]) k = content h k)
    (hc : OrderMap.SameCall th₀ th) (hfits : m'.Fits lists th)
    (htracks : ∀ pc, th.stack? = some pc →
      pc.Tracks m'.freeHead m'.link (since t (h ++ [(a, o)]))) :
    Inv place' lists free' (h ++ [(a, o)]) ({ s with map := m' }.goto t th) := by
  subst hth
  refine hi.writes rfl hkey hw ?_ hheap (fun b _ => hsame b) (hsame 0).shift hown hothers
    ((hi.threads t).again hc (fun k _ => hsame _) hfits htracks) ?_ (fun k' _ => hcontent k') ?_ ?_
  · intro k' hk'
    rw [hc.key, hkey] at hk'
    exact ⟨(Option.some.inj hk').symm, fun hr => hw (hc.reads.mp hr)⟩
  · intro k' hk' heff
    rw [(hsame _).stored, hcontent]
    refine hi.stored rfl hkey hw hk' fun heq => ?_
    rw [← hc.effect]
    exact heff (by rw [hc.key, hkey, heq])
  · intro hst k' hk'
    rw [(hsame _).overflow k' rfl]
    rw [(hsame _).state, ← hk'] at hst
    exact hi.overflow k' hst
  · intro _
    rw [hc.key, hkey]

/-- The same node stays in the hands of a thread. -/
theorem owns_same (hth : s.threads t = th₀) (howns : th.owns = th₀.owns) :
    Function.update (fun t => (s.threads t).owns) t th.owns = fun t => (s.threads t).owns := by
  rw [howns, ← hth]
  exact Function.update_eq_self t _

/-- A thread that writes goes on in its call, and at most a counter changes. -/
theorem Inv.goes (hi : Inv place lists free h s) (hth : s.threads t = th₀)
    (hkey : th₀.key? = some k) (hw : ¬ th₀.Reads) (hm : OrderMap.SameMap s.map m') (ho : Calm t o)
    (hcontent : ∀ k, content (h ++ [(a, o)]) k = content h k)
    (hc : OrderMap.SameCall th₀ th) (howns : th.owns = th₀.owns) (hfits : m'.Fits lists th)
    (htracks : ∀ pc, th.stack? = some pc →
      pc.Tracks s.map.freeHead s.map.link (since t (h ++ [(a, o)]))) :
    Inv place lists free (h ++ [(a, o)]) ({ s with map := m' }.goto t th) := by
  refine hi.shifts hth hkey hw ?_ hm.sameAt ?_ ?_ hcontent hc hfits ?_
  · rw [owns_same hth howns]
    exact hi.heap.same hm.nodes hm.buckets hm.freeHead hm.shift hm.capacity
  · intro t' x _ _
    rw [hm.nodes]
  · intro t' pc ht hpc
    rw [hm.freeHead, hm.link]
    exact hi.tracks ho ht hpc
  · rw [hm.freeHead, hm.link]
    exact htracks

/-- What the others know after a write to a node that is not free. -/
theorem Inv.tracks_modify (hi : Inv place lists free h s) (f : Node → Node) (hidx : idx ∉ free)
    (hown : (s.threads t').owns ≠ some idx) {pc : StackPc}
    (hpc : (s.threads t').stack? = some pc) :
    pc.Tracks s.map.freeHead (s.map.modifyNode idx f).link (since t' h) := by
  refine ((hi.threads t').tracks pc hpc).write hi.heap.freeChain hidx ?_ fun j hj => ?_
  · rw [← MapThread.owns_of_stack hpc]
    exact hown
  · simp [OrderMap.link, OrderMap.modifyNode, hj]

/-- A thread stores to its own node. -/
theorem Inv.stores (hi : Inv place lists free h s) (hth : s.threads t = th₀)
    (hkey : th₀.key? = some k) (hw : ¬ th₀.Reads) (hidx : th₀.owns = some idx) (f : Node → Node)
    (hc : OrderMap.SameCall th₀ th) (howns : th.owns = th₀.owns)
    (hfits : (s.map.modifyNode idx f).Fits lists th)
    (htracks : ∀ pc, th.stack? = some pc →
      pc.Tracks s.map.freeHead (s.map.modifyNode idx f).link (since t h)) :
    Inv place lists free (h ++ [(a, .silent)])
      ({ s with map := s.map.modifyNode idx f }.goto t th) := by
  subst hth
  have hne : ∀ x, x ≠ idx → (s.map.modifyNode idx f).nodes x = s.map.nodes x := fun x hx =>
    Function.update_of_ne hx _ _
  have hfree : idx ∉ free := hi.heap.not_free (t := t) hidx
  have hother : ∀ t', t' ≠ t → (s.threads t').owns ≠ some idx := fun t' ht hx =>
    ht (hi.heap.owned_once (t := t') hx hidx)
  refine hi.shifts rfl hkey hw ?_ ?_ ?_ ?_ (fun k => content_snoc h a _ k) hc hfits ?_
  · rw [owns_same rfl howns]
    exact hi.heap.writeOwn (t := t) hidx f
  · intro b
    refine ⟨rfl, rfl, rfl, rfl, fun x hx => hne x ?_, fun _ _ => rfl⟩
    rintro rfl
    exact hi.heap.not_listed (t := t) hidx hx
  · intro t' x ht hx
    refine hne x ?_
    rintro rfl
    exact hother t' ht hx
  · intro t' pc ht hpc
    rw [since_snoc]
    exact hi.tracks_modify f hfree (hother t' ht) hpc
  · intro pc hpc
    rw [since_snoc]
    exact htracks pc hpc

/-- A thread that writes returns, with its effect done. -/
theorem Inv.returns (hi : Inv place lists free h s) (hth : s.threads t = th₀)
    (hkey : th₀.key? = some k) (hw : ¬ th₀.Reads) (hm : OrderMap.SameMap s.map m') (ho : Calm t o)
    (howns : th₀.owns = none)
    (hstored : s.map.stored lists k = content (h ++ [(a, o)]) k)
    (hother : ∀ k', k' ≠ k → content (h ++ [(a, o)]) k' = content h k')
    (hconv : s.map.state (s.map.hash k) ≠ .converting) :
    Inv place lists free (h ++ [(a, o)]) ({ s with map := m' }.goto t .idle) := by
  refine hi.writes hth hkey hw nofun ?_ (fun b _ => hm.sameAt b) hm.shift ?_ ?_ .idle ?_ hother ?_
    ?_
  · have hidle : MapThread.idle.owns = th₀.owns := howns.symm
    rw [owns_same hth hidle]
    exact hi.heap.same hm.nodes hm.buckets hm.freeHead hm.shift hm.capacity
  · intro t' x _ _
    rw [hm.nodes]
  · intro t' pc ht hpc
    rw [hm.freeHead, hm.link]
    exact hi.tracks ho ht hpc
  · intro k' hk' _
    rw [(hm.sameAt _).stored]
    by_cases heq : k' = k
    · rw [heq]
      exact hstored
    · rw [hother k' heq]
      exact hi.stored hth hkey hw hk' fun e => absurd e heq
  · intro hst k' hk'
    rw [hm.overflow]
    rw [hm.state, ← hk'] at hst
    exact hi.overflow k' hst
  · intro hst
    rw [hm.state] at hst
    exact absurd hst hconv

/-- The index stays, and a thread that has changed nothing goes to another place where it has
changed nothing. -/
theorem Inv.turns (hi : Inv place lists free h s) (hth : s.threads t = th₀)
    (heff : th₀.effect = none) (howns : th.owns = th₀.owns) (hr : th₀.Reads)
    (halone : ∀ k t' k', th.key? = some k → t' ≠ t → (s.threads t').key? = some k' →
      s.map.hash k' = s.map.hash k → th.Reads ∧ (s.threads t').Reads)
    (hok : OrderMap.ThreadOk lists s.map (since t (h ++ [(a, o)])) th) (ho : Calm t o)
    (hcontent : ∀ k, content (h ++ [(a, o)]) k = content h k) :
    Inv place lists free (h ++ [(a, o)]) (s.goto t th) := by
  subst hth
  constructor
  case heap =>
    rw [owns_goto, owns_same rfl howns]
    exact hi.heap
  case threads =>
    intro t'
    by_cases ht : t' = t
    · subst ht
      simpa using hok
    · simp only [goto_threads, if_neg ht, goto_map]
      exact (hi.threads t').frame (fun _ _ => (OrderMap.SameMap.refl _).sameAt _)
        (fun _ _ => rfl) fun pc hpc => hi.tracks ho ht hpc
  case alone =>
    intro t₁ t₂ k₁ k₂ hne hk₁ hk₂ heq
    simp only [goto_threads, goto_map] at hk₁ hk₂ heq ⊢
    by_cases h₁ : t₁ = t
    · have h₂ : t₂ ≠ t := fun e => hne (h₁.trans e.symm)
      rw [if_pos h₁] at hk₁ ⊢
      rw [if_neg h₂] at hk₂
      exact (halone k₁ t₂ k₂ hk₁ h₂ hk₂ heq.symm).1
    · rw [if_neg h₁] at hk₁ ⊢
      by_cases h₂ : t₂ = t
      · rw [if_pos h₂] at hk₂
        exact (halone k₂ t₁ k₁ hk₂ h₁ hk₁ heq).2
      · rw [if_neg h₂] at hk₂
        exact hi.alone t₁ t₂ k₁ k₂ hne hk₁ hk₂ heq
  case converting =>
    intro b hb
    obtain ⟨t', k', hk', hb', hw'⟩ := hi.converting b hb
    have ht : t' ≠ t := by
      rintro rfl
      exact hw' hr
    refine ⟨t', k', ?_, hb', ?_⟩
    · rw [goto_threads, if_neg ht]
      exact hk'
    · rw [goto_threads, if_neg ht]
      exact hw'
  case overflow => exact hi.overflow
  case holds =>
    intro k' hk'
    rw [hcontent]
    refine hi.holds k' fun t' ht' => ?_
    by_cases ht : t' = t
    · rw [ht]
      exact heff
    · have := hk' t'
      rw [goto_threads, if_neg ht] at this
      exact this ht'

/-- A step of `find`, and what it returns. -/
theorem Inv.find (hi : Inv place lists free h s) {pc : FindPc}
    (hth : s.threads t = .find k pc)
    (hstep : s.after t s.map (.find k) (.found k) (s.map.findStep k pc) = (s', o)) :
    Inv place lists free (h ++ [(a, o)]) s' ∧ ∀ k' r, o = .found k' r → r = content h k' := by
  have hok := hi.threads t
  rw [hth] at hok
  have hread : (s.threads t).Reads := by
    rw [hth]
    trivial
  have halone : ∀ t' k', t' ≠ t → (s.threads t').key? = some k' →
      s.map.hash k' = s.map.hash k → (s.threads t').Reads := fun t' k' ht hk' heq =>
    hi.alone t' t k' k ht hk' (by rw [hth]; rfl) heq
  rcases OrderMap.findStep_spec hi.heap (hok.state k rfl) hok.fits with
    ⟨pc', hpc', hmode, hfits⟩ | hdone
  · rw [hpc'] at hstep
    cases hstep
    refine ⟨?_, nofun⟩
    refine hi.turns hth rfl rfl trivial ?_ ?_ trivial ?_
    · rintro _ t' k' ⟨⟩ ht hk' heq
      exact ⟨trivial, halone t' k' ht hk' heq⟩
    · exact hok.again ⟨rfl, hmode, rfl, Iff.rfl, nofun⟩
        (fun _ _ => (OrderMap.SameMap.refl _).sameAt _) hfits nofun
    · exact fun k => content_snoc h a _ k
  · rw [hdone] at hstep
    cases hstep
    constructor
    · exact hi.turns hth rfl rfl trivial nofun .idle trivial fun k => content_snoc h a _ k
    · rintro k' r ⟨⟩
      -- whoever is in the bucket only looks, so nothing is under way for the key
      refine hi.holds k fun t' ht' => ?_
      have hr' : (s.threads t').Reads := by
        by_cases ht : t' = t
        · rw [ht]
          exact hread
        · exact halone t' k ht ht' rfl
      cases hc : s.threads t' with
      | idle => rfl
      | insert k v pc =>
          rw [hc] at hr'
          exact absurd hr' id
      | find k pc => rfl
      | erase k pc =>
          rw [hc] at hr'
          exact absurd hr' id

end MapThreads

end NebulaX
