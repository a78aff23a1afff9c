import NebulaX.Proofs.FillOrKill
import NebulaX.Proofs.Validity

/-!
# `NebulaX.Proofs.TopOfBook`: the reported top of a book

`getBook` reports the key of the first level of each side and that level's `total_qty`. The
price is always the best one. The volume is kept in 32 bits through every add, fill, cancel and
removal, so it is the volume at that price modulo `2 ^ 32` (`top_volume`).
-/

set_option autoImplicit false

namespace NebulaX

open NebulaX.Lib

namespace Exchange

/-- A call for a book that does not exist changes nothing. -/
theorem step_of_kMaxLocate_le {keep : Bool} {x : Exchange} {c : Call}
    (hl : MatchingEngine.kMaxLocate ≤ c.locate) : (x.step keep c).1 = x := by
  cases c with
  | add locate ref side price quantity userId tif =>
      have hl : MatchingEngine.kMaxLocate ≤ locate := hl
      simp only [step, add, refusal, if_pos hl]
  | cancel locate ref userId =>
      have hl : MatchingEngine.kMaxLocate ≤ locate := hl
      simp only [step, cancel, owned, if_pos hl]
  | cancelShares locate ref shares userId =>
      have hl : MatchingEngine.kMaxLocate ≤ locate := hl
      simp only [step, cancelShares, owned, if_pos hl]
  | replace locate oldRef newRef side price quantity userId =>
      have hl : MatchingEngine.kMaxLocate ≤ locate := hl
      simp only [step, replace, owned, if_pos hl]

/-- No order rests in a book that does not exist. -/
def Inside (x : Exchange) : Prop :=
  ∀ π : Place, MatchingEngine.kMaxLocate ≤ π.1 → x.queues π = []

theorem inside_empty (c : Nat) : (empty c).Inside := fun _ _ => rfl

theorem Inside.step {x : Exchange} (h : x.Inside) (hx : x.Proper) (keep : Bool) (c : Call) :
    (x.step keep c).1.Inside := by
  intro π hπ
  refine List.eq_nil_iff_forall_not_mem.mpr fun o ho => ?_
  rcases (step_does keep x c).mem hx ho with ⟨o', ho', -⟩ | ⟨hloc, -⟩
  · rw [h π hπ] at ho'
    exact List.not_mem_nil ho'
  · -- the call is for this book, so it has changed nothing
    rw [step_of_kMaxLocate_le (hloc ▸ hπ), h π hπ] at ho
    exact List.not_mem_nil ho

end Exchange

namespace MatchingEngine

/-! ### The best price and its volume -/

/-- Some order of the side has this price, and none has a better one. -/
def IsBest (e : MatchingEngine) (π : Place) (price : UInt32) : Prop :=
  (∃ i ∈ e.slots π, (e.pool.storage i).price = price) ∧
    ∀ i ∈ e.slots π, ¬ π.2.Better (e.pool.storage i).price price

/-- The shares that rest at a price, as an integer. -/
def volumeAt (e : MatchingEngine) (π : Place) (price : UInt32) : Nat :=
  (((e.slots π).filter fun i => (e.pool.storage i).price = price).map fun i =>
    (e.pool.storage i).remainingQty.toNat).sum

/-- The report of a book shows the best price of a side, or 0 when nobody is there. -/
def ReportsPrice (e : MatchingEngine) (locate : UInt64) (d : BookSide) : Prop :=
  if e.slots (locate, d) = [] then ((e.getBook locate).2.top d).1 = 0
  else e.IsBest (locate, d) ((e.getBook locate).2.top d).1

/-- The report of a book shows the volume at the price it shows. -/
def ReportsVolume (e : MatchingEngine) (locate : UInt64) (d : BookSide) : Prop :=
  ((e.getBook locate).2.top d).2.toNat = e.volumeAt (locate, d) ((e.getBook locate).2.top d).1

section
variable {e : MatchingEngine} {locate : UInt64} {d : BookSide}

theorem IsBest.unique {π : Place} {a b : UInt32} (ha : e.IsBest π a) (hb : e.IsBest π b) :
    a = b := by
  obtain ⟨⟨i, hi, rfl⟩, hi'⟩ := ha
  obtain ⟨⟨j, hj, rfl⟩, hj'⟩ := hb
  have hij := hi' j hj
  have hji := hj' i hi
  obtain ⟨locate, d⟩ := π
  cases d with
  | bid => exact UInt32.le_antisymm (UInt32.not_lt.mp hji) (UInt32.not_lt.mp hij)
  | ask => exact UInt32.le_antisymm (UInt32.not_lt.mp hij) (UInt32.not_lt.mp hji)

theorem volumeAt_eq (e : MatchingEngine) (π : Place) (price : UInt32) :
    ((((e.slots π).filter fun i => (e.pool.storage i).price = price).map fun i =>
      (e.pool.storage i).remainingQty).sum).toNat = e.volumeAt π price % 2 ^ 32 := by
  have h := toNat_sum_remainingQty (((e.slots π).filter fun i =>
    (e.pool.storage i).price = price).map e.pool.info)
  rwa [List.map_map, List.map_map] at h

/-- The price and the volume `getBook` reports. -/
theorem Inv.top_volume (h : e.Inv) (hout : kMaxLocate ≤ locate → e.slots (locate, d) = []) :
    e.ReportsPrice locate d ∧ ((e.getBook locate).2.top d).2.toNat
      = e.volumeAt (locate, d) ((e.getBook locate).2.top d).1 % 2 ^ 32 := by
  by_cases hl : kMaxLocate ≤ locate
  · have htop : (e.getBook locate).2.top d = (0, 0) := by
      simp only [getBook, if_pos hl]
      cases d <;> rfl
    rw [ReportsPrice, if_pos (hout hl), htop, volumeAt, hout hl]
    exact ⟨rfl, rfl⟩
  rcases top_eq h hl d with ⟨hnil, htop⟩ | ⟨i, hi, hprice, hvolume⟩
  · rw [ReportsPrice, if_pos hnil, htop, volumeAt, hnil]
    exact ⟨rfl, rfl⟩
  · have hmem := List.mem_of_head? hi
    rw [ReportsPrice, if_neg (List.ne_nil_of_mem hmem), hvolume, volumeAt_eq]
    refine ⟨⟨⟨i, hmem, hprice⟩, fun j hj => ?_⟩, rfl⟩
    -- the first order of the queue has the best price
    rw [← hprice]
    obtain ⟨rest, hslots⟩ : ∃ rest, e.slots (locate, d) = i :: rest := by
      rw [List.head?_eq_some_iff] at hi
      exact hi
    have hsorted : Queue.Sorted d ((e.slots (locate, d)).map e.pool.info) :=
      h.proper.sorted (locate, d)
    rw [hslots, List.map_cons] at hsorted
    rw [hslots] at hj
    rcases List.mem_cons.mp hj with rfl | hj
    · cases d <;> exact UInt32.lt_irrefl _
    · exact (List.pairwise_cons.mp hsorted).1 _ (List.mem_map_of_mem hj)

end

/-- No order rests in a book that does not exist. -/
theorem slots_of_kMaxLocate_le {c : Nat} {metrics : Option IOCounters} {wal : Option WalWriter}
    {tradePool : Option TradePool} {e₀ e : MatchingEngine}
    {h : List (Call × List BinaryResponse)}
    (h₀ : ofCapacity c metrics wal tradePool = some e₀) (t : Trace exec Admissible e₀ h e) :
    e.Inv ∧ ∀ π : Place, kMaxLocate ≤ π.1 → e.slots π = [] := by
  suffices e.Inv ∧ e.abs.Inside from ⟨this.1, fun π hπ => List.map_eq_nil_iff.mp (this.2 π hπ)⟩
  refine t.invariant (fun _ e => e.Inv ∧ e.abs.Inside)
    ⟨Inv.start h₀, abs_ofCapacity h₀ ▸ Exchange.inside_empty _⟩ ?_
  rintro h e call e' out - ⟨hinv, hinside⟩ hp hstep
  have hs := stepsTo_of_exec hinv hp hstep
  have habs : e'.abs = _ := congrArg Prod.fst hs.abs
  exact ⟨hs.inv, habs ▸ hinside.step hinv.proper _ call⟩

/-- **The top of the book.** In every run from an empty engine in which references are unique
while resting and calls are addressed to the right books, `getBook` reports the best price of
each side of each book, and it reports the volume at that price exactly when this is below
`2 ^ 32`. -/
theorem top_of_book {c : Nat} {metrics : Option IOCounters} {wal : Option WalWriter}
    {tradePool : Option TradePool} {e₀ e : MatchingEngine}
    {h : List (Call × List BinaryResponse)}
    (h₀ : ofCapacity c metrics wal tradePool = some e₀) (t : Trace exec Admissible e₀ h e)
    (locate : UInt64) (d : BookSide) :
    e.ReportsPrice locate d ∧ (e.ReportsVolume locate d ↔
      ∀ price, e.IsBest (locate, d) price → e.volumeAt (locate, d) price < 2 ^ 32) := by
  obtain ⟨hinv, hout⟩ := slots_of_kMaxLocate_le h₀ t
  obtain ⟨hprice, hvolume⟩ := hinv.top_volume (d := d) (hout (locate, d))
  refine ⟨hprice, ?_⟩
  rw [ReportsVolume, hvolume, eq_comm, eq_comm, Nat.mod_eq_iff_lt (by decide)]
  rw [ReportsPrice] at hprice
  split at hprice
  · rename_i hnil
    rw [volumeAt, hnil]
    exact ⟨fun _ price _ => by simp [volumeAt, hnil], fun _ => by simp⟩
  · refine ⟨fun hlt price hbest => ?_, fun hlt => hlt _ hprice⟩
    rwa [IsBest.unique hbest hprice]

/-- Two bids at one price, five shares and seven. -/
theorem top_of_book_twelve : ∃ e₀ e outs, ofCapacity 4 none none none = some e₀ ∧
    run exec e₀ [.add 3 1 .buy 100 5 1 .day, .add 3 2 .buy 100 7 2 .day] = some (e, outs) ∧
    (e.getBook 3).2.top .bid = (100, 12) ∧ e.ReportsPrice 3 .bid ∧ e.ReportsVolume 3 .bid := by
  obtain ⟨e₀, h₀⟩ : ∃ e₀, ofCapacity 4 none none none = some e₀ := ⟨_, rfl⟩
  have hrun : ((ofCapacity 4 none none none).bind fun e₀ =>
      (run exec e₀ [.add 3 1 .buy 100 5 1 .day, .add 3 2 .buy 100 7 2 .day]).map fun r =>
        ((r.1.getBook 3).2.top .bid, (r.1.slots (3, .bid)).map fun i =>
          ((r.1.pool.storage i).price, (r.1.pool.storage i).remainingQty)))
      = some ((100, 12), [(100, 5), (100, 7)]) := by decide +kernel
  rw [h₀, Option.bind_some, Option.map_eq_some_iff] at hrun
  obtain ⟨⟨e, outs⟩, hrun, hend⟩ := hrun
  obtain ⟨htop, hslots⟩ := Prod.mk.inj hend
  obtain ⟨hprice, hiff⟩ := top_of_book h₀ (trace_of_adds h₀ (by decide) (by decide) hrun) 3 .bid
  refine ⟨e₀, e, outs, h₀, hrun, htop, hprice, hiff.mpr fun price _ => ?_⟩
  have hvolume : e.volumeAt (3, .bid) price = (([(100, 5), (100, 7)].filter
      fun p : UInt32 × UInt32 => p.1 = price).map fun p => p.2.toNat).sum := by
    rw [← hslots, List.filter_map, List.map_map]
    rfl
  rw [hvolume]
  by_cases hp : 100 = price
  · subst hp
    decide
  · simp [hp]

/-- Two bids at one price whose shares add up to `2 ^ 32`: the reported volume is 0. -/
theorem volume_wraps : ∃ e₀ e outs, ofCapacity 4 none none none = some e₀ ∧
    run exec e₀ [.add 0 1 .buy 100 4294967295 1 .day, .add 0 2 .buy 100 1 2 .day]
      = some (e, outs) ∧
    (e.getBook 0).2.top .bid = (100, 0) ∧ e.volumeAt (0, .bid) 100 = 2 ^ 32 := by
  obtain ⟨e₀, h₀⟩ : ∃ e₀, ofCapacity 4 none none none = some e₀ := ⟨_, rfl⟩
  have hrun : ((ofCapacity 4 none none none).bind fun e₀ =>
      (run exec e₀ [.add 0 1 .buy 100 4294967295 1 .day, .add 0 2 .buy 100 1 2 .day]).map fun r =>
        ((r.1.getBook 0).2.top .bid, r.1.volumeAt (0, .bid) 100))
      = some ((100, 0), 2 ^ 32) := by decide +kernel
  rw [h₀, Option.bind_some, Option.map_eq_some_iff] at hrun
  obtain ⟨⟨e, outs⟩, hrun, hend⟩ := hrun
  obtain ⟨htop, hvolume⟩ := Prod.mk.inj hend
  exact ⟨e₀, e, outs, h₀, hrun, htop, hvolume⟩

end MatchingEngine

end NebulaX
