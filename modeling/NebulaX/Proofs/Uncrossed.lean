import NebulaX.Proofs.Runs

/-!
# `NebulaX.Proofs.Uncrossed`: no two users stand crossed in a book

Self-trade prevention passes over the taker's own orders, so a bid can come to rest at or
above an ask of the same user, and the best bid need not lie below the best ask. What does
hold is `Uncrossed`: a bid and an ask that both have something left and that cross belong to
the same user. The step that matters is an order that rests with something left
(`skips_or_beyond`): then every order it left on the other side is its own or beyond its
limit. All other steps only take orders or quantity away.
-/

set_option autoImplicit false

namespace NebulaX

open NebulaX.Lib

namespace Exchange

/-- Orders of different users that have something left do not cross. -/
def Uncrossed (x : Exchange) : Prop :=
  ∀ locate, ∀ b ∈ x.queues (locate, .bid), ∀ a ∈ x.queues (locate, .ask),
    b.remainingQty ≠ 0 → a.remainingQty ≠ 0 → a.price ≤ b.price → b.userId = a.userId

section
variable {x x' : Exchange}

theorem LeftOf.ne_zero_of_ne_zero {o o' : OrderInfo} (h : LeftOf o o') (ho : o.remainingQty ≠ 0) :
    o'.remainingQty ≠ 0 := by
  intro hz
  have hle := h.le
  rw [hz, UInt32.le_iff_toNat_le, UInt32.toNat_zero] at hle
  exact ho (UInt32.toNat_inj.mp (by simpa using hle))

/-- Taking orders and quantity away crosses nothing. -/
theorem Uncrossed.thins (h : x.Uncrossed) (ht : Thins x x') : x'.Uncrossed := by
  intro locate b hb a ha hbz haz hp
  obtain ⟨b', hb', hlb⟩ := ht _ b hb
  obtain ⟨a', ha', hla⟩ := ht _ a ha
  rw [hlb.userId, hla.userId]
  rw [hlb.price, hla.price] at hp
  exact h locate b' hb' a' ha' (hlb.ne_zero_of_ne_zero hbz) (hla.ne_zero_of_ne_zero haz) hp

/-- An order that rests with something left crosses no order of another user. -/
theorem userId_eq_of_cross (hx : x.Proper) {locate : UInt64} {o y : OrderInfo}
    (hrest : (x.fills locate o).rest ≠ 0)
    (hy : y ∈ (x.matched locate o).queues (locate, o.side.bookSide.opposite))
    (hp : ¬ o.side.bookSide.opposite.Better o.price y.price) : y.userId = o.userId := by
  rw [matched_queues, Function.update_self] at hy
  rcases skips_or_beyond (hx.sorted (locate, o.side.bookSide.opposite)) hrest hy with hs | hb
  · exact hs.2
  · exact absurd hb hp

theorem Submitted.uncrossed {keep : Bool} {locate : UInt64} {o : OrderInfo}
    {r : Exchange × List BinaryResponse} (h : Submitted keep x locate o r) (hx : x.Proper)
    (hu : x.Uncrossed) : r.1.Uncrossed := by
  have hmatched : (x.matched locate o).Uncrossed := hu.thins (thins_matched x locate o)
  cases h with
  | filled _ => exact hmatched
  | dropped _ _ _ => exact hmatched
  | rested _ hside _ =>
      intro l b hb a ha hbz haz hp
      have hcross : ∀ y, y ∈ (x.matched locate o).queues (locate, o.side.bookSide.opposite) →
          (x.fills locate o).rest ≠ 0 → ¬ o.side.bookSide.opposite.Better o.price y.price →
          y.userId = o.userId := fun y hy hz hp => userId_eq_of_cross hx hz hy hp
      rcases mem_enter.mp hb with ⟨hπb, rfl⟩ | hb
      · -- The new order is the bid.
        obtain ⟨rfl, hd⟩ := Prod.mk.inj hπb
        have hd' : o.side.bookSide = .bid := hd.symm
        rw [hd'] at hcross
        rcases mem_enter.mp ha with ⟨hπa, -⟩ | ha
        · exact absurd (hd.trans (Prod.mk.inj hπa).2.symm) (by decide)
        · exact (hcross a ha hbz (UInt32.not_lt.mpr hp)).symm
      · rcases mem_enter.mp ha with ⟨hπa, rfl⟩ | ha
        · obtain ⟨rfl, hd⟩ := Prod.mk.inj hπa
          have hd' : o.side.bookSide = .ask := hd.symm
          rw [hd'] at hcross
          exact hcross b hb haz (UInt32.not_lt.mpr hp)
        · exact hmatched l b hb a ha hbz haz hp

/-- A call keeps orders of different users uncrossed. -/
theorem Does.uncrossed {keep : Bool} {c : Call} {r : Exchange × List BinaryResponse}
    (h : Does keep x c r) (hx : x.Proper) (hu : x.Uncrossed) : r.1.Uncrossed := by
  cases h with
  | refused _ _ _ => exact hu
  | cancelled _ | usedUp _ _ => exact hu.thins (thins_remove x _ _)
  | reduced ho hlt => exact hu.thins (thins_reduce hx ho hlt)
  | added _ _ hr => exact hr.uncrossed hx hu
  | replaced _ hr => exact hr.uncrossed (hx.remove _ _) (hu.thins (thins_remove x _ _))

end

end Exchange

namespace MatchingEngine

section
variable {cap : Nat} {metrics : Option IOCounters} {wal : Option WalWriter}
variable {tradePool : Option TradePool} {e₀ e : MatchingEngine}
variable {h : List (Call × List BinaryResponse)}

/-- Orders of different users stay uncrossed in an admissible run. -/
theorem uncrossed_of_trace (h₀ : ofCapacity cap metrics wal tradePool = some e₀)
    (t : Trace exec Admissible e₀ h e) : e.abs.Uncrossed := by
  refine t.invariant (fun _ e => e.abs.Uncrossed) ?_ fun h e c e' out t hu hp hstep => ?_
  · rw [abs_ofCapacity h₀]
    exact fun _ b hb => absurd hb List.not_mem_nil
  · have hinv := Inv.of_trace (Inv.start h₀) t
    have hdoes := Exchange.step_does (!e.drops c) e.abs c
    rw [← (stepsTo_of_exec hinv hp hstep).abs] at hdoes
    exact hdoes.uncrossed hinv.proper hu

/-- In every state of an admissible run, a resting bid and a resting ask of one book that
both have something left and that cross belong to the same user. The next call trades with
no order of the taker's own user, unless that is user 0. -/
theorem book_never_crossed (h₀ : ofCapacity cap metrics wal tradePool = some e₀)
    (t : Trace exec Admissible e₀ h e) :
    (∀ locate, ∀ i ∈ e.slots (locate, .bid), ∀ j ∈ e.slots (locate, .ask),
      0 < (e.pool.storage i).remainingQty → 0 < (e.pool.storage j).remainingQty →
      (e.pool.storage j).price ≤ (e.pool.storage i).price →
        (e.pool.storage i).userId = (e.pool.storage j).userId) ∧
    ∀ c e' out trade, Admissible h e c → e.exec c = some (e', out) → .trade trade ∈ out →
      ∃ u π i, c.taker? = some u ∧ i ∈ e.slots π ∧
        (e.pool.storage i).orderId = trade.orderRef ∧
        (u ≠ 0 → (e.pool.storage i).userId ≠ u) := by
  have hinv := Inv.of_trace (Inv.start h₀) t
  refine ⟨fun locate i hi j hj hiz hjz hp => ?_, fun c e' out trade hadm hstep htrade => ?_⟩
  · exact uncrossed_of_trace h₀ t locate _ (List.mem_map.mpr ⟨i, hi, rfl⟩) _
      (List.mem_map.mpr ⟨j, hj, rfl⟩) (UInt32.ne_of_lt hiz).symm
      (UInt32.ne_of_lt hjz).symm hp
  · have hdoes := Exchange.step_does (!e.drops c) e.abs c
    rw [← (stepsTo_of_exec hinv hadm hstep).abs] at hdoes
    obtain ⟨u, π, hu, y, hy, hid, hskip, -⟩ := hdoes.trade hinv.proper htrade
    obtain ⟨i, hi, rfl⟩ := List.mem_map.mp hy
    exact ⟨u, π, i, hu, hi, hid, fun hz huser => hskip ⟨hz, huser⟩⟩

end

/-- A bid of user 1 and a sell of user 2 that trades with it. -/
theorem book_never_crossed_trade : ∃ e₀ e e' out, ofCapacity 2 none none none = some e₀ ∧
    e₀.exec (.add 0 1 .buy 100 5 1 .day) = some (e, [.ok 1]) ∧
    e.exec (.add 0 2 .sell 90 3 2 .day) = some (e', out) ∧
    .trade ⟨0, 1, .buy, 100, 3⟩ ∈ out ∧
    ∃ u π i, (Call.add 0 2 .sell 90 3 2 .day).taker? = some u ∧ i ∈ e.slots π ∧
      (e.pool.storage i).orderId = 1 ∧ (u ≠ 0 → (e.pool.storage i).userId ≠ u) := by
  have hrun : ((ofCapacity 2 none none none).bind fun e₀ =>
      (e₀.exec (.add 0 1 .buy 100 5 1 .day)).bind fun r₁ =>
      (r₁.1.exec (.add 0 2 .sell 90 3 2 .day)).map fun r₂ => (r₁.2, r₂.2))
      = some ([.ok 1], [.trade ⟨0, 1, .buy, 100, 3⟩, .filled 2]) := by
    decide +kernel
  simp only [Option.bind_eq_some_iff, Option.map_eq_some_iff, Prod.mk.injEq] at hrun
  obtain ⟨e₀, h₀, ⟨e, out₁⟩, hstep₁, ⟨e', out₂⟩, hstep₂, rfl, rfl⟩ := hrun
  have t := Trace.nil.snoc (P := Admissible) (admissible_start h₀ _) hstep₁
  exact ⟨e₀, e, e', _, h₀, hstep₁, hstep₂, by simp, (book_never_crossed h₀ t).2 _ e' _
    ⟨0, 1, .buy, 100, 3⟩ (admissible_add h₀ t (by decide)) hstep₂ (by simp)⟩

end MatchingEngine

end NebulaX
