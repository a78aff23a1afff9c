import NebulaX.Proofs.SharedRecovery

/-!
# `NebulaX.Proofs.SharedCompaction`: the scan of `recoverFromShared` loses nothing

`recoverFromShared` reads and writes one array: every slot goes to the free list first, and
`addOrder` fills the low slots while the scan reads the higher ones. The slot it allocates is
never ahead of the scan, so a slot is read before anything is written to it
(`Packs.cell`), and the whole scan is `Lib.packed`.

The counters are another matter. They follow every slot that passes the two tests of the loop,
also one whose side `addOrder` refuses, and `2 ^ 64 - 1` takes them back to 0.
-/

set_option autoImplicit false

namespace NebulaX

open NebulaX.Lib

/-- The slot passes the tests of the loop: its numbers go into the counters. -/
def Scanned (x : OrderInfo × UInt64) : Prop :=
  x.1.orderId ≠ 0 ∧ x.1.status ≠ .filled ∧ x.1.status ≠ .cancelled

instance : DecidablePred Scanned := fun _ => inferInstanceAs (Decidable (_ ∧ _ ∧ _))

theorem Live.scanned {x : OrderInfo × UInt64} (h : Live x) : Scanned x := ⟨h.1, h.2.1, h.2.2.1⟩

/-- The largest 64-bit number. -/
def uint64Max : UInt64 := 0xFFFFFFFFFFFFFFFF

/-- A counter that is kept ahead of a number. -/
theorem lt_ahead {next n : UInt64} (h : n ≠ uint64Max) :
    next ≤ (if next ≤ n then n + 1 else next) ∧ n < (if next ≤ n then n + 1 else next) := by
  have hlt : n < n + 1 := by
    rw [UInt64.lt_iff_toNat_lt, UInt64.toNat_add]
    have hne : n.toNat ≠ uint64Max.toNat := fun e => h (UInt64.toNat_inj.mp e)
    have hmax : uint64Max.toNat = 2 ^ 64 - 1 := rfl
    have hn := n.toNat_lt
    change n.toNat < (n.toNat + 1) % 2 ^ 64
    omega
  split
  · rename_i hle
    exact ⟨UInt64.le_trans hle (UInt64.le_of_lt hlt), hlt⟩
  · rename_i hle
    exact ⟨UInt64.le_refl next, UInt64.not_le.mp hle⟩

namespace MatchingEngine

/-- The counters are ahead of the numbers of the scanned slots before `n`. -/
def Ahead (st : Nat → OrderInfo × UInt64) (n : Nat) (e : MatchingEngine) : Prop :=
  ∀ i < n, Scanned (st i) → (st i).1.orderId < e.nextOrderId ∧ (st i).2 < e.nextSequence

/-- What a round does to the counters: `o` is read after `addOrder`. -/
theorem recoverSlot_counters {e e' : MatchingEngine} {i : UInt32}
    (h : e.recoverSlot i = some e') :
    (¬ Scanned (e.pool.storage i).data ∧ e' = e) ∨
      Scanned (e.pool.storage i).data ∧ ∃ o, o = e'.pool.storage i ∧
        e'.nextOrderId = (if e.nextOrderId ≤ o.orderId then o.orderId + 1 else e.nextOrderId) ∧
        e'.nextSequence
          = if e.nextSequence ≤ o.sequence then o.sequence + 1 else e.nextSequence := by
  unfold recoverSlot at h
  dsimp only at h
  split at h
  · rename_i h0
    exact Or.inl ⟨fun hs => hs.1 h0, (Option.some.inj h).symm⟩
  rename_i h0
  split at h
  · rename_i hs
    exact Or.inl ⟨fun hsc => hs.elim hsc.2.1 hsc.2.2, (Option.some.inj h).symm⟩
  · rename_i hs
    simp only [Option.bind_eq_bind, Option.bind_eq_some_iff, pure, Option.some.injEq] at h
    obtain ⟨⟨ok, b⟩, -, rfl⟩ := h
    exact Or.inr ⟨⟨h0, fun e => hs (Or.inl e), fun e => hs (Or.inr e)⟩, _, rfl, rfl, rfl⟩

namespace Packs

variable {st : Nat → OrderInfo × UInt64} {c n k : Nat} {e e' : MatchingEngine}

/-- The scan finds its next slot as it was at the start. -/
theorem cell (h : Packs st c n e) (hn : n < c) : NebulaX.cells e.pool.storage n = st n :=
  (h.cells n hn).trans (packed_of_scan_le (Nat.le_refl n))

/-- The slot the scan has just passed still holds what it held: the order may have moved to the
front, but nothing else has come in. -/
theorem cell_passed (h : Packs st c (n + 1) e) (hn : n < c) :
    NebulaX.cells e.pool.storage n = st n := by
  rw [h.cells n hn, packed_succ]
  have hold : packed Live st n n = st n := packed_of_scan_le (Nat.le_refl n)
  split
  · by_cases hm : n = (kept Live st n).length
    · rw [← hm, Function.update_self]
    · rw [Function.update_of_ne hm, hold]
  · exact hold

/-- One round, if it comes back. -/
theorem of_recoverSlot (h : Packs st c n e) (hn : n < c)
    (hr : e.recoverSlot (UInt32.ofNat n) = some e') : Packs st c (n + 1) e' :=
  h.of_recoverSlots (k := 1) hn (by simp [recoverSlots, hr])

/-- One round keeps the counters ahead. -/
theorem ahead_succ (h : Packs st c n e) (hn : n < c) (ha : Ahead st n e)
    (hmax : ∀ i < c, Scanned (st i) → (st i).1.orderId ≠ uint64Max ∧ (st i).2 ≠ uint64Max)
    (hr : e.recoverSlot (UInt32.ofNat n) = some e') : Ahead st (n + 1) e' := by
  intro i hi hs
  rcases recoverSlot_counters hr with ⟨hskip, rfl⟩ | ⟨hsc, o, ho, hid, hseq⟩
  · rcases Nat.lt_succ_iff_lt_or_eq.mp hi with hi | rfl
    · exact ha i hi hs
    · rw [show (e'.pool.storage (UInt32.ofNat i)).data = st i from h.cell hn] at hskip
      exact absurd hs hskip
  · have hdata : o.data = st n := ho ▸ (h.of_recoverSlot hn hr).cell_passed hn
    rw [show (e.pool.storage (UInt32.ofNat n)).data = st n from h.cell hn] at hsc
    rw [hid, hseq, show o.orderId = (st n).1.orderId from congrArg (fun x => x.1.orderId) hdata,
      show o.sequence = (st n).2 from congrArg Prod.snd hdata]
    obtain ⟨hle, hlt⟩ := @lt_ahead e.nextOrderId _ (hmax n hn hsc).1
    obtain ⟨hle', hlt'⟩ := @lt_ahead e.nextSequence _ (hmax n hn hsc).2
    rcases Nat.lt_succ_iff_lt_or_eq.mp hi with hi | rfl
    · exact ⟨UInt64.lt_of_lt_of_le (ha i hi hs).1 hle, UInt64.lt_of_lt_of_le (ha i hi hs).2 hle'⟩
    · exact ⟨hlt, hlt'⟩

/-- The whole scan keeps the counters ahead. -/
theorem ahead_recoverSlots (h : Packs st c n e) (hle : n + k ≤ c) (ha : Ahead st n e)
    (hmax : ∀ i < c, Scanned (st i) → (st i).1.orderId ≠ uint64Max ∧ (st i).2 ≠ uint64Max)
    (hr : recoverSlots k n e = some e') : Ahead st (n + k) e' := by
  induction k generalizing n e with
  | zero =>
      rw [recoverSlots, Option.some.injEq] at hr
      exact hr ▸ ha
  | succ k ih =>
      simp only [recoverSlots, Option.bind_eq_bind, Option.bind_eq_some_iff] at hr
      obtain ⟨e₁, he₁, hr⟩ := hr
      have hn : n < c := by omega
      rw [show n + (k + 1) = n + 1 + k by omega]
      exact ih (h.of_recoverSlot hn he₁) (by omega) (h.ahead_succ hn ha hmax he₁) hr

/-- The pool has given out one slot for each order. -/
theorem size_eq (h : Packs st c n e) (hn : n ≤ c) :
    e.pool.size.toNat = (kept Live st n).length := by
  have hsize := h.free.size
  rw [h.capacity, List.length_map, List.length_range'] at hsize
  have hle := length_kept_le Live st n
  omega

/-- The other books stay empty. -/
theorem slots_of_ne_zero (h : Packs st c n e) {π : Place} (hπ : π.1 ≠ 0) : e.slots π = [] := by
  rw [List.eq_nil_iff_forall_not_mem]
  intro i hi
  have hlevel := h.orders π (e.pool.storage i).price
  rw [List.filter_eq_nil_iff.mpr (by simp [hπ]), levelData] at hlevel
  have hmem : (e.pool.storage i).data ∈ (placeSlots e.levelsOf e.pool.storage π).map
      fun i => (e.pool.storage i).data := List.mem_map.mpr ⟨i, hi, rfl⟩
  exact (List.filter_eq_nil_iff.mp hlevel) _ hmem (by simp [Order.data])

end Packs

/-- **Compaction in place loses nothing.** A new engine over an array of arbitrary contents in
which no two live slots share an id: the scan comes back and finds every slot as it was at the
start; book 0 then holds exactly the live orders, each price in the order of the slots, and no
other book holds an order; the pool has given out that many slots; and the counters are ahead
of all live orders, if no slot that passes the tests of the loop has a number of `2 ^ 64 - 1`. -/
theorem compaction_loses_nothing {storage : UInt32 → Order} {c : Nat}
    {metrics : Option IOCounters} {wal : Option WalWriter} {tradePool : Option TradePool}
    {d₀ : MatchingEngine}
    (h₀ : ofPool (.ofStorage storage c false) metrics wal tradePool = some d₀)
    (hids : ∀ i < c, ∀ j < c, Live (cells storage i) → Live (cells storage j) →
      (cells storage i).1.orderId = (cells storage j).1.orderId → i = j) :
    ∃ d₁ d, { d₀ with pool := d₀.pool.rebuildFreelist }.bookFor 0 = some d₁ ∧
      d₀.recoverFromShared c = some d ∧
      (∀ n < c, ∀ e, recoverSlots n 0 d₁ = some e → cells e.pool.storage n = cells storage n) ∧
      (∀ s price, (((d.slots (0, s)).map fun i => (d.pool.storage i).data).filter fun x =>
          x.1.price = price)
        = ((List.range c).map (cells storage)).filter fun x =>
            Live x ∧ x.1.side.bookSide = s ∧ x.1.price = price) ∧
      (∀ π : Place, π.1 ≠ 0 → d.slots π = []) ∧
      d.pool.size.toNat = (((List.range c).map (cells storage)).filter Live).length ∧
      ((∀ i < c, Scanned (cells storage i) →
          (cells storage i).1.orderId ≠ uint64Max ∧ (cells storage i).2 ≠ uint64Max) →
        ∀ i < c, Live (cells storage i) →
          (cells storage i).1.orderId < d.nextOrderId ∧
            (cells storage i).2 < d.nextSequence) := by
  obtain ⟨d₁, hstart, hwf, hlook, heq, hopen⟩ := exists_packs_start h₀
  obtain ⟨d₂, hd₂⟩ := hstart.exists_recoverSlots (Nat.zero_add c).le hwf hids fun i _ _ _ => hlook _
  have hend := hstart.of_recoverSlots (Nat.zero_add c).le hd₂
  rw [Nat.zero_add] at hend
  have hd : Packs (cells storage) c c d₂.countPool := hend.congr rfl rfl
  refine ⟨d₁, d₂.countPool, hopen, by rw [heq, hd₂]; rfl, fun n hn e he => ?_, fun s price => ?_,
    fun π hπ => hd.slots_of_ne_zero hπ, hd.size_eq (Nat.le_refl c), fun hmax i hi hlive => ?_⟩
  · have hpacks := hstart.of_recoverSlots (by omega) he
    rw [Nat.zero_add] at hpacks
    exact hpacks.cell hn
  · have horders := hd.orders (0, s) price
    rw [kept, List.filter_filter] at horders
    refine horders.trans (List.filter_congr fun x _ => ?_)
    rw [← Bool.decide_and, decide_eq_decide]
    exact ⟨fun h => ⟨h.2, h.1.2⟩, fun h => ⟨⟨rfl, h.2⟩, h.1⟩⟩
  · have hahead := hstart.ahead_recoverSlots (Nat.zero_add c).le
      (fun i hi => absurd hi (Nat.not_lt_zero i)) hmax hd₂
    rw [Nat.zero_add] at hahead
    exact hahead i hi hlive.scanned

/-- Two bids behind a cancelled order, and between them an order whose side byte is 7. -/
def scattered (i : UInt32) : Order :=
  if i = 0 then { userId := 3, orderId := 9, side := .buy, price := 100, originalQty := 5
                  remainingQty := 5, sequence := 1, status := .cancelled }
  else if i = 1 then { userId := 1, orderId := 5, side := .buy, price := 100, originalQty := 5
                       remainingQty := 5, sequence := 8 }
  else if i = 2 then { userId := 2, orderId := 7, side := byte7, price := 100, originalQty := 4
                       remainingQty := 4, sequence := 2 }
  else if i = 3 then { userId := 2, orderId := 6, side := .buy, price := 100, originalQty := 7
                       remainingQty := 7, sequence := 3 }
  else {}

/-- All three move to the front, in the order of their slots. -/
theorem compaction_loses_nothing_three : ∃ d₀ d,
    ofPool (.ofStorage scattered 5 false) none none none = some d₀ ∧
    d₀.recoverFromShared 5 = some d ∧
    ((((d.slots (0, .bid)).map fun i => (d.pool.storage i).data).filter fun x =>
      x.1.price = 100).map fun x => (x.1.orderId, x.2)) = [(5, 8), (6, 3)] ∧
    ((((d.slots (0, .ask)).map fun i => (d.pool.storage i).data).filter fun x =>
      x.1.price = 100).map fun x => (x.1.orderId, x.2)) = [(7, 2)] ∧
    d.pool.size.toNat = 3 ∧ 7 < d.nextOrderId ∧ 8 < d.nextSequence := by
  obtain ⟨d₀, h₀⟩ : ∃ d₀, ofPool (.ofStorage scattered 5 false) none none none = some d₀ :=
    ⟨_, rfl⟩
  obtain ⟨d₁, d, -, hd, -, horders, -, hsize, hahead⟩ := compaction_loses_nothing h₀ (by decide)
  have hnext := hahead (by decide)
  refine ⟨d₀, d, h₀, hd, ?_, ?_, hsize, (hnext 2 (by decide) (by decide)).1,
    (hnext 1 (by decide) (by decide)).2⟩
  · rw [horders]
    decide
  · rw [horders]
    decide

/-- A live order, and behind it a slot without a side and with the largest id. -/
def sidelessMax (i : UInt32) : Order :=
  if i = 0 then { userId := 1, orderId := 5, side := .buy, price := 100, originalQty := 5
                  remainingQty := 5, sequence := 8 }
  else { orderId := uint64Max }

/-- `addOrder` refuses the slot without a side, but its id takes the counter of the ids back to
0, behind the live order. -/
theorem sideless_slot_resets : ∃ d₀ d,
    ofPool (.ofStorage sidelessMax 2 false) none none none = some d₀ ∧
    d₀.recoverFromShared 2 = some d ∧
    (∀ i < 2, Live (cells sidelessMax i) → (cells sidelessMax i).1.orderId ≠ uint64Max ∧
      (cells sidelessMax i).2 ≠ uint64Max) ∧
    Live (cells sidelessMax 0) ∧ (cells sidelessMax 0).1.orderId = 5 ∧ d.nextOrderId = 0 := by
  have hrun : ((ofPool (.ofStorage sidelessMax 2 false) none none none).bind fun d₀ =>
      (d₀.recoverFromShared 2).map fun d => d.nextOrderId) = some 0 := by decide +kernel
  simp only [Option.bind_eq_some_iff, Option.map_eq_some_iff] at hrun
  obtain ⟨d₀, h₀, d, hd, hnext⟩ := hrun
  exact ⟨d₀, d, h₀, hd, by decide, by decide, rfl, hnext⟩

end MatchingEngine

end NebulaX
