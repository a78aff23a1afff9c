import NebulaX.Proofs.View

/-!
# `NebulaX.Proofs.NonInterference`: books do not influence each other

All books share the pool, the index and the sequence counter. As long as the pool does not
run out and the index keeps every reference, none of that shows in a book: what happens in
book `locate` is what happens in an exchange that has no other book.

* `soloStep` is a call to that exchange, with the queues of the one book as its state.
* `projects` is the simulation: the calls of a run that are addressed to the book, taken
  alone, are a run of `soloStep` with the same answers and the same queues.
* `non_interference` follows, since two runs with the same calls to the book project to the
  same run.
-/

set_option autoImplicit false

namespace NebulaX

open NebulaX.Lib

namespace Exchange

/-! ### One book alone -/

/-- The exchange that has one book, all of whose orders are indexed, and a free slot. -/
def solo (locate : UInt64) (q : BookSide → List OrderInfo) : Exchange where
  queues π := if π.1 = locate then q π.2 else []
  indexed ref := (q .bid ++ q .ask).any fun o => o.orderId = ref
  free := 1

/-- A call to the book alone. -/
def soloStep (locate : UInt64) (q : BookSide → List OrderInfo) (c : Call) :
    Option ((BookSide → List OrderInfo) × List BinaryResponse) :=
  let r := (solo locate q).step true c
  some (fun d => r.1.queues (locate, d), r.2)

/-- The two exchanges have the same book `locate`. -/
def Agree (locate : UInt64) (x y : Exchange) : Prop :=
  ∀ d, x.queues (locate, d) = y.queues (locate, d)

theorem agree_solo (x : Exchange) (locate : UInt64) :
    Agree locate x (solo locate fun d => x.queues (locate, d)) := by
  intro d
  simp [solo]

theorem solo_complete (locate : UInt64) (q : BookSide → List OrderInfo) :
    (solo locate q).Complete := by
  intro π o ho
  simp only [solo] at ho ⊢
  split at ho
  · rw [List.any_eq_true]
    refine ⟨o, ?_, by simp⟩
    cases hd : π.2 <;> simp_all
  · exact absurd ho List.not_mem_nil

section
variable {x y : Exchange} {locate : UInt64} {o : OrderInfo}

/-- A complete index answers for a book as its queues do. -/
theorem find_of_complete (hc : x.Complete) (locate ref : UInt64) :
    x.find locate ref = (x.queues (locate, .bid) ++ x.queues (locate, .ask)).find?
      fun o => o.orderId = ref := by
  unfold find
  split
  · rfl
  · rename_i hx
    rw [eq_comm, List.find?_eq_none]
    intro o ho hid
    have hid' : o.orderId = ref := by simpa using hid
    have hmem : ∃ d, o ∈ x.queues (locate, d) := by
      rcases List.mem_append.mp ho with ho | ho
      · exact ⟨_, ho⟩
      · exact ⟨_, ho⟩
    obtain ⟨d, ho⟩ := hmem
    exact hx (hid' ▸ hc _ o ho)

theorem Agree.owned (h : Agree locate x y) (hx : x.Complete) (hy : y.Complete)
    (ref userId : UInt64) : x.owned locate ref userId = y.owned locate ref userId := by
  unfold Exchange.owned
  rw [find_of_complete hx, find_of_complete hy, h, h]

theorem Agree.fills (h : Agree locate x y) (o : OrderInfo) :
    x.fills locate o = y.fills locate o := by
  unfold Exchange.fills
  rw [h]

/-- An operation on one queue of the book keeps the agreement. -/
theorem Agree.update (h : Agree locate x y) {x' y' : Exchange} {d : BookSide}
    {f : List OrderInfo → List OrderInfo}
    (hx : x'.queues = Function.update x.queues (locate, d) (f (x.queues (locate, d))))
    (hy : y'.queues = Function.update y.queues (locate, d) (f (y.queues (locate, d)))) :
    Agree locate x' y' := by
  intro d'
  rw [hx, hy, h d]
  by_cases hd : d' = d
  · rw [hd, Function.update_self, Function.update_self]
  · have hne : (locate, d') ≠ (locate, d) := by simpa using hd
    rw [Function.update_of_ne hne, Function.update_of_ne hne, h]

theorem Agree.remove (h : Agree locate x y) (o : OrderInfo) :
    Agree locate (x.remove locate o) (y.remove locate o) :=
  h.update (f := Queue.without o.orderId) rfl rfl

theorem Agree.matched (h : Agree locate x y) (o : OrderInfo) :
    Agree locate (x.matched locate o) (y.matched locate o) :=
  h.update (f := fun _ => (x.fills locate o).queue) rfl (by rw [h.fills]; rfl)

theorem Agree.enter (h : Agree locate x y) (keep : Bool) (o : OrderInfo) :
    Agree locate (x.enter keep locate o) (y.enter keep locate o) :=
  h.update (f := Queue.insert o.side.bookSide o) rfl rfl

/-- An order that may rest: the answers are the same, and so is the book, if the one pool is
not full and the other did not turn out to be. -/
theorem Agree.submitDay (h : Agree locate x y) (keep : Bool) (o : OrderInfo)
    (hx : .error .poolFull ∉ (x.submitDay keep locate o).2) (hy : y.free ≠ 0) :
    (x.submitDay keep locate o).2 = (y.submitDay keep locate o).2 ∧
      Agree locate (x.submitDay keep locate o).1 (y.submitDay keep locate o).1 := by
  simp only [Exchange.submitDay] at hx ⊢
  rw [← h.fills]
  split at hx
  · rename_i hf
    rw [if_pos hf, if_pos hf]
    exact ⟨rfl, h.matched o⟩
  · rename_i hf
    rw [if_neg hf, if_neg hf]
    simp only [Exchange.rest] at hx ⊢
    split at hx
    · simp at hx
    · rename_i hr
      have hfree : ¬ (((x.fills locate o).taker o).side = .invalid ∨
          (y.matched locate o).free = 0) := by
        rintro (hside | hz)
        · exact hr (Or.inl hside)
        · simp only [Exchange.matched, settled] at hz
          omega
      rw [if_neg hr, if_neg hfree]
      exact ⟨rfl, (h.matched o).enter keep _⟩

/-- An order that may not rest. -/
theorem Agree.submitNow (h : Agree locate x y) (o : OrderInfo) (needed : UInt32)
    (code : ErrorCode) :
    (x.submitNow locate o needed code).2 = (y.submitNow locate o needed code).2 ∧
      Agree locate (x.submitNow locate o needed code).1 (y.submitNow locate o needed code).1 := by
  simp only [Exchange.submitNow]
  rw [← h.fills]
  split
  · exact ⟨rfl, h.matched o⟩
  · split <;> exact ⟨rfl, h.matched o⟩

/-- A call to the book: the answers are the same, and so is the book afterwards. -/
theorem Agree.step {c : Call} (h : Agree c.locate x y) (hcx : x.Complete) (hcy : y.Complete)
    (hx : .error .poolFull ∉ (x.step true c).2) (hy : y.free ≠ 0) :
    (x.step true c).2 = (y.step true c).2 ∧
      Agree c.locate (x.step true c).1 (y.step true c).1 := by
  cases c with
  | add locate ref side price quantity userId tif =>
      simp only [Exchange.step, Exchange.add] at hx ⊢
      split
      · exact ⟨rfl, h⟩
      · rename_i hok
        rw [hok] at hx
        cases tif with
        | day => exact h.submitDay true _ hx hy
        | ioc => exact h.submitNow _ _ _
        | fok =>
            have hq : x.queues (locate, side.bookSide.opposite)
                = y.queues (locate, side.bookSide.opposite) := h _
            simp only [hq]
            split
            · exact h.submitNow _ _ _
            · exact ⟨rfl, h⟩
  | cancel locate ref userId =>
      change Agree locate x y at h
      simp only [Exchange.step, Exchange.cancel]
      rw [← h.owned hcx hcy]
      split
      · exact ⟨rfl, h⟩
      · exact ⟨rfl, h.remove _⟩
  | cancelShares locate ref shares userId =>
      change Agree locate x y at h
      simp only [Exchange.step, Exchange.cancelShares]
      rw [← h.owned hcx hcy]
      split
      · exact ⟨rfl, h⟩
      · split
        · exact ⟨rfl, h.remove _⟩
        · exact ⟨rfl, h.update (f := Queue.modify _ _) rfl rfl⟩
  | replace locate oldRef newRef side price quantity userId =>
      change Agree locate x y at h
      simp only [Exchange.step, Exchange.replace] at hx ⊢
      rw [← h.owned hcx hcy]
      split
      · exact ⟨rfl, h⟩
      · rename_i o ho
        rw [ho] at hx
        exact (h.remove o).submitDay true _ hx (Nat.succ_ne_zero _)

end

end Exchange

namespace MatchingEngine

/-! ### Projection -/

/-- A call that keeps what callers promise and whose reference the index does not drop. -/
def Undisturbed (h : List (Call × List BinaryResponse)) (e : MatchingEngine) (c : Call) : Prop :=
  Admissible h e c ∧ e.drops c = false

/-- The part of a history that is addressed to a book. -/
def atBook (locate : UInt64) (h : List (Call × List BinaryResponse)) :
    List (Call × List BinaryResponse) :=
  h.filter fun x => x.1.locate = locate

/-- No call was refused for want of a slot. -/
def NeverFull (h : List (Call × List BinaryResponse)) : Prop :=
  ∀ x ∈ h, .error .poolFull ∉ x.2

section
variable {cap : Nat} {metrics : Option IOCounters} {wal : Option WalWriter}
variable {tradePool : Option TradePool} {e₀ e : MatchingEngine}
variable {h : List (Call × List BinaryResponse)}

/-- The step of an undisturbed call. -/
theorem Undisturbed.step (hinv : e.Inv) {c : Call} (hp : Undisturbed h e c)
    {e' : MatchingEngine} {out : List BinaryResponse} (hstep : e.exec c = some (e', out)) :
    e'.Inv ∧ (e'.abs, out) = e.abs.step true c := by
  have hs := stepsTo_of_exec hinv hp.1 hstep
  have habs := hs.abs
  rw [hp.2] at habs
  exact ⟨hs.inv, habs⟩

/-- The index stays complete in an undisturbed run. -/
theorem complete_of_trace (h₀ : ofCapacity cap metrics wal tradePool = some e₀)
    (t : Trace exec Undisturbed e₀ h e) : e.Inv ∧ e.abs.Complete := by
  refine t.invariant (fun _ e => e.Inv ∧ e.abs.Complete) ⟨Inv.start h₀, fun π o ho => ?_⟩
    fun h e c e' out _ ⟨hinv, hc⟩ hp hstep => ?_
  · rw [abs_ofCapacity h₀] at ho
    exact absurd ho List.not_mem_nil
  · obtain ⟨hinv', habs⟩ := hp.step hinv hstep
    refine ⟨hinv', ?_⟩
    have hdoes := Exchange.step_does true e.abs c
    rw [← habs] at hdoes
    exact hdoes.complete hc hinv.proper

/-- The calls of a run to a book, taken alone, are a run of that book alone, with the same
answers and the same queues. -/
theorem projects (h₀ : ofCapacity cap metrics wal tradePool = some e₀) (locate : UInt64)
    (t : Trace exec Undisturbed e₀ h e) (hfull : NeverFull h) :
    run (Exchange.soloStep locate) (fun _ => []) ((atBook locate h).map Prod.fst)
      = some (fun d => e.abs.queues (locate, d), (atBook locate h).map Prod.snd) := by
  revert hfull
  refine t.invariant (fun h e => NeverFull h →
    run (Exchange.soloStep locate) (fun _ => []) ((atBook locate h).map Prod.fst)
      = some (fun d => e.abs.queues (locate, d), (atBook locate h).map Prod.snd))
    (fun _ => ?_) fun h e c e' out t ih hp hstep hfull => ?_
  · rw [abs_ofCapacity h₀]
    rfl
  · obtain ⟨hinv, hc⟩ := complete_of_trace h₀ t
    obtain ⟨-, habs⟩ := hp.step hinv hstep
    have ih := ih fun x hx => hfull x (List.mem_append_left _ hx)
    have hout : .error .poolFull ∉ out := hfull (c, out) (by simp)
    by_cases hl : c.locate = locate
    · -- A call to the book: the book alone makes the same step.
      have hat : atBook locate (h ++ [(c, out)]) = atBook locate h ++ [(c, out)] := by
        simp [atBook, List.filter_append, hl]
      rw [hat, List.map_append, List.map_append]
      refine run_snoc ih ?_
      subst hl
      obtain ⟨hanswer, hbook⟩ := (Exchange.agree_solo e.abs c.locate).step hc
        (Exchange.solo_complete _ _) (by rw [← habs]; exact hout) (by simp [Exchange.solo])
      rw [← habs] at hanswer hbook
      simp only [Exchange.soloStep, Option.some.injEq, Prod.mk.injEq]
      exact ⟨funext fun d => (hbook d).symm, hanswer.symm⟩
    · -- A call to another book does not show.
      have hat : atBook locate (h ++ [(c, out)]) = atBook locate h := by
        simp [atBook, List.filter_append, hl]
      rw [hat, ih]
      have hdoes := Exchange.step_does true e.abs c
      rw [← habs] at hdoes
      refine congrArg (fun q => some (q, _)) (funext fun d => ?_)
      exact (hdoes.queues_of_ne (fun hd => hl hd.symm : (locate, d).1 ≠ c.locate)).symm

end

/-- Two runs with the same calls to a book, whatever else they do: the calls to the book get
the same answers, and the book ends with the same levels and the same orders, in the same
places, with the same quantities. -/
theorem non_interference {cap₁ cap₂ : Nat} {metrics₁ metrics₂ : Option IOCounters}
    {wal₁ wal₂ : Option WalWriter} {tradePool₁ tradePool₂ : Option TradePool}
    {d₁ d₂ e₁ e₂ : MatchingEngine} {h₁ h₂ : List (Call × List BinaryResponse)}
    (hd₁ : ofCapacity cap₁ metrics₁ wal₁ tradePool₁ = some d₁)
    (hd₂ : ofCapacity cap₂ metrics₂ wal₂ tradePool₂ = some d₂)
    (t₁ : Trace exec Undisturbed d₁ h₁ e₁) (t₂ : Trace exec Undisturbed d₂ h₂ e₂)
    (hfull₁ : NeverFull h₁) (hfull₂ : NeverFull h₂) (locate : UInt64)
    (hcalls : (atBook locate h₁).map Prod.fst = (atBook locate h₂).map Prod.fst) :
    (atBook locate h₁).map Prod.snd = (atBook locate h₂).map Prod.snd ∧
      SameBook locate e₁ e₂ ∧
      ∀ d, e₁.abs.queues (locate, d) = e₂.abs.queues (locate, d) := by
  have hp₁ := projects hd₁ locate t₁ hfull₁
  have hp₂ := projects hd₂ locate t₂ hfull₂
  rw [hcalls, hp₂, Option.some.injEq, Prod.mk.injEq] at hp₁
  have hq : ∀ d, e₁.abs.queues (locate, d) = e₂.abs.queues (locate, d) :=
    fun d => (congrFun hp₁.1 d).symm
  exact ⟨hp₁.2.symm, SameBook.of_queues (complete_of_trace hd₁ t₁).1
    (complete_of_trace hd₂ t₂).1 hq, hq⟩

/-- The same bid in book 0, once alone and once behind a bid in book 1: the answer and the
book are the same. -/
theorem non_interference_bid : ∃ d₀ e₁ e₂ out₁ out₂,
    ofCapacity 4 none none none = some d₀ ∧
    run exec d₀ [.add 0 1 .buy 100 5 1 .day] = some (e₁, out₁) ∧
    run exec d₀ [.add 1 2 .buy 90 7 2 .day, .add 0 1 .buy 100 5 1 .day] = some (e₂, out₂) ∧
    SameBook 0 e₁ e₂ := by
  have hrun : ((ofCapacity 4 none none none).bind fun d₀ =>
      (d₀.exec (.add 0 1 .buy 100 5 1 .day)).bind fun r₁ =>
      (d₀.exec (.add 1 2 .buy 90 7 2 .day)).bind fun r₂ =>
      (r₂.1.exec (.add 0 1 .buy 100 5 1 .day)).map fun r₃ =>
        ([r₁.2, r₂.2, r₃.2], [d₀.drops (.add 0 1 .buy 100 5 1 .day),
          d₀.drops (.add 1 2 .buy 90 7 2 .day), r₂.1.drops (.add 0 1 .buy 100 5 1 .day)]))
      = some ([[.ok 1], [.ok 2], [.ok 1]], [false, false, false]) := by
    decide +kernel
  simp only [Option.bind_eq_some_iff, Option.map_eq_some_iff, Prod.mk.injEq, List.cons.injEq,
    and_true] at hrun
  obtain ⟨d₀, hd₀, ⟨e₁, out₁⟩, hstep₁, ⟨e, out⟩, hstep, ⟨e₂, out₂⟩, hstep₂, ⟨rfl, rfl, rfl⟩,
    hdrop₁, hdrop, hdrop₂⟩ := hrun
  have t := Trace.nil.snoc (P := Admissible) (admissible_start hd₀ _) hstep
  have t₁ := Trace.nil.snoc (P := Undisturbed) ⟨admissible_start hd₀ _, hdrop₁⟩ hstep₁
  have t₂ := (Trace.nil.snoc (P := Undisturbed) ⟨admissible_start hd₀ _, hdrop⟩ hstep).snoc
    ⟨admissible_add hd₀ t (by decide), hdrop₂⟩ hstep₂
  obtain ⟨-, hsame, -⟩ := non_interference hd₀ hd₀ t₁ t₂ (by simp [NeverFull])
    (by simp [NeverFull]) 0 (by simp [atBook, Call.locate])
  exact ⟨d₀, e₁, e₂, _, _, hd₀, t₁.run_eq, t₂.run_eq, hsame⟩

end MatchingEngine

end NebulaX
