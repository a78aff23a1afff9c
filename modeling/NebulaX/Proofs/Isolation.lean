import NebulaX.Proofs.Representation

/-!
# `NebulaX.Proofs.Isolation`: a call stays in the book it is addressed to

The index is shared by all books and an order does not say which book it rests in, so
`findOrder` answers a cancel that is addressed to the wrong book. The book then unlinks a
slot it does not hold.

* `Confined` is what a cancel or replace should do: the other books stay as they are, the
  answer is positive only for an order that rests in the book that was named, and there is
  no other effect without one.
* `book_isolation`: in every state of an admissible run, that is what the call does exactly
  when the order the index finds rests in that book (or is not of that user).
* `isolation_fails` is a cancel through another book that frees a slot which stays linked.
-/

set_option autoImplicit false

namespace NebulaX

open NebulaX.Lib

namespace MatchingEngine

/-! ### Confinement -/

/-- The book has an order of this reference and user. -/
def RestsIn (e : MatchingEngine) (locate ref userId : UInt64) : Prop :=
  ∃ d, ∃ i ∈ e.slots (locate, d), (e.pool.storage i).orderId = ref ∧
    (e.pool.storage i).userId = userId

/-- A book is the same in both states: its levels with their counts and totals, the slots
they link, and the orders in the slots. -/
structure Unchanged (e e' : MatchingEngine) (locate : UInt64) : Prop where
  levels : e'.levelsOf locate = e.levelsOf locate
  slots : ∀ d, e'.slots (locate, d) = e.slots (locate, d)
  orders : ∀ d, ∀ i ∈ e.slots (locate, d), e'.pool.info i = e.pool.info i

/-- What a call that names the order `ref` of `userId` should come to. -/
structure Confined (e : MatchingEngine) (locate ref userId : UInt64) (e' : MatchingEngine)
    (out : List BinaryResponse) : Prop where
  /-- All books are well formed afterwards. -/
  linked : e'.WellLinked
  /-- The other books are as they were. -/
  others : ∀ l, l ≠ locate → Unchanged e e' l
  /-- A positive answer means that the order rested in the book. -/
  found : ∀ r, .cancelled r ∈ out ∨ .ok r ∈ out ∨ .filled r ∈ out → e.RestsIn locate ref userId
  /-- Without such an order the answer is an error and nothing happens. -/
  missing : ¬ e.RestsIn locate ref userId →
    out = [.error .orderNotFound] ∧ ∀ l, Unchanged e e' l

theorem Same.unchanged {e e' : MatchingEngine} (h : Same e e') (locate : UInt64) :
    Unchanged e e' locate := by
  refine ⟨by rw [h.levelsOf], fun d => ?_, fun d i _ => by rw [h.pool]⟩
  unfold MatchingEngine.slots
  rw [h.levelsOf, h.pool]

/-! ### The levels of the other books -/

section
variable {e e' : MatchingEngine} {locate l : UInt64}

theorem levelsOf_putBook_of_ne (e : MatchingEngine) (hl : l ≠ locate) (b : OrderBook) :
    (e.putBook locate b).levelsOf l = e.levelsOf l := by
  rw [levelsOf_putBook, Function.update_of_ne hl]

theorem levelsOf_matchSide_of_ne (hl : l ≠ locate) {order order' : Order}
    {out : List BinaryResponse} (h : e.matchSide locate order = some (e', order', out)) :
    e'.levelsOf l = e.levelsOf l := by
  obtain ⟨d, st, -, -, heq⟩ := matchSide_inv h
  cases heq
  exact levelsOf_putBook_of_ne e hl st.book

end

/-! ### Answers -/

/-- A round answers with one trade. -/
theorem fill_out {d : BookSide} {locate seq : UInt64} {best : UInt32} {st st' : MatchState}
    (h : fill d locate seq best st = some st') : ∃ t, st'.out = st.out ++ [.trade t] := by
  simp only [fill, Option.bind_eq_bind, Option.bind_eq_some_iff, pure, Option.some.injEq] at h
  obtain ⟨b, -, rfl⟩ := h
  exact ⟨_, rfl⟩

/-- The matching loop answers with trades only. -/
theorem matchLoop_out {d : BookSide} {locate seq : UInt64} {fuel : Nat} {st st' : MatchState}
    (h : matchLoop d locate seq fuel st = some st') :
    ∃ ts : List Trade, st'.out = st.out ++ ts.map .trade := by
  induction fuel generalizing st with
  | zero => simp [matchLoop] at h
  | succ fuel ih =>
      rw [matchLoop] at h
      split at h
      · rw [Option.some.injEq] at h
        exact ⟨[], by simp [h]⟩
      · simp only [Option.bind_eq_bind, Option.bind_eq_some_iff] at h
        obtain ⟨best, -, h⟩ := h
        cases best with
        | none => exact ⟨[], by simp_all⟩
        | some best =>
            simp only at h
            split at h
            · exact ⟨[], by simp_all⟩
            · simp only [Option.bind_eq_some_iff] at h
              obtain ⟨st₁, hfill, h⟩ := h
              obtain ⟨ts, hts⟩ := ih h
              obtain ⟨t, ht⟩ := fill_out hfill
              exact ⟨t :: ts, by rw [hts, ht]; simp⟩

theorem matchSide_out {e e' : MatchingEngine} {locate : UInt64} {order order' : Order}
    {out : List BinaryResponse} (h : e.matchSide locate order = some (e', order', out)) :
    ∃ ts : List Trade, out = ts.map .trade := by
  obtain ⟨d, st, -, hloop, heq⟩ := matchSide_inv h
  cases heq
  exact matchLoop_out hloop

section
variable {e e' : MatchingEngine} {c : Call} {ref userId : UInt64} {out : List BinaryResponse}

/-- A call for which the index finds an order of the user never answers that there is no
such order, wherever the order rests. -/
theorem actOn_ne {idx : UInt32} (h : e.actOn idx c = some (e', out)) :
    out ≠ [.error .orderNotFound] := by
  have hne : ∀ {e₁ : MatchingEngine} {l : UInt64} (ts : List Trade),
      After e₁ l (ts.map .trade) (e', out) → out ≠ [.error .orderNotFound] := by
    rintro e₁ l ts ha rfl
    obtain ⟨tail, hout, -, herror⟩ := ha.out
    have hmem : .error .orderNotFound ∈ ts.map .trade ++ tail := hout ▸ List.mem_cons_self
    rcases List.mem_append.mp hmem with hmem | hmem
    · simp at hmem
    · exact herror hmem
  rcases actOn_cases h with ⟨-, ha⟩ | ⟨_, _, _, _, _, _, _, b, e₂, left, out₁, -, -, hm, ha⟩
  · exact hne [] ha
  · obtain ⟨ts, rfl⟩ := matchSide_out hm
    exact hne ts ha

/-- A call writes the levels of its own book only. -/
theorem levelsOf_actOn_of_ne {idx : UInt32} (h : e.actOn idx c = some (e', out)) {l : UInt64}
    (hl : l ≠ c.locate) : e'.levelsOf l = e.levelsOf l := by
  rcases actOn_cases h with ⟨-, ha⟩ | ⟨_, _, _, _, _, _, _, b, e₂, left, out₁, rfl, -, hm, ha⟩
  · exact ha.others l hl
  · rw [ha.others l hl, levelsOf_matchSide_of_ne hl hm]
    exact levelsOf_putBook_of_ne e hl b

/-! ### The result -/

/-- A call is routed when the order it names is at home in its book. -/
theorem routed_iff (hn : c.named? = some (ref, userId)) (x : Exchange) :
    x.Routed c ↔ x.Homed c.locate ref userId := by
  cases c with
  | add => exact absurd hn (by simp [Call.named?])
  | cancel l r u | cancelShares l r shares u | replace l r newRef side price quantity u =>
      obtain ⟨rfl, rfl⟩ := Prod.mk.inj (Option.some.inj hn)
      rfl

/-- A book the call is not addressed to keeps its slots if it keeps its queues. -/
theorem unchanged_of_advance {locate l : UInt64} (ha : Advance locate e e') (hl : l ≠ locate)
    (hlev : e'.levelsOf l = e.levelsOf l)
    (hq : ∀ d, e'.abs.queues (l, d) = e.abs.queues (l, d)) : Unchanged e e' l := by
  have hsub : ∀ d, (e'.slots (l, d)).Sublist (e.slots (l, d)) := by
    intro d
    cases ha with
    | leave hsh _ => exact hsh.sublist (l, d)
    | enter e₁ π order idx l' r hsh hent hbook _ _ =>
        have hne : (l, d) ≠ π := by
          rintro rfl
          exact hl hbook
        unfold slots
        rw [hent.after, Function.update_of_ne hne]
        exact hsh.sublist (l, d)
  have hslots : ∀ d, e'.slots (l, d) = e.slots (l, d) := by
    intro d
    refine (hsub d).eq_of_length ?_
    have := congrArg List.length (hq d)
    simpa only [abs, absOf, slots, List.length_map] using this
  refine ⟨hlev, hslots, fun d => ?_⟩
  have hmap : (e'.slots (l, d)).map e'.pool.info = (e.slots (l, d)).map e.pool.info := hq d
  rw [hslots, List.map_inj_left] at hmap
  exact hmap

/-- With the order at home in the book that is named, the call is confined to it. -/
theorem confined_of_homed (h : e.Inv) (hn : c.named? = some (ref, userId))
    (hf : e.abs.Fresh c) (hr : e.abs.Homed c.locate ref userId) :
    ∃ e' out, e.exec c = some (e', out) ∧ Confined e c.locate ref userId e' out := by
  rcases owned_eq h hr with ⟨hl, i, d, hfind, huser, hi, -⟩ | ⟨-, hmiss⟩
  · -- The order rests in the book, so only the other books are in question.
    have hrests : e.RestsIn c.locate ref userId := by
      have hlook := OrderMap.find_eq_lookup h.wf ref
      rw [hfind, Option.some.injEq] at hlook
      exact ⟨d, i, hi, (h.sound ref i hlook.symm).1, huser⟩
    obtain ⟨⟨e', out⟩, heq, hs⟩ := exec_spec h hf ((routed_iff hn _).mpr hr)
    obtain ⟨e₂, hsame, hact⟩ := exec_found hn hl hfind huser
    refine ⟨e', out, heq, hs.inv.wellLinked, fun l hne => ?_, fun _ _ => hrests,
      fun hno => absurd hrests hno⟩
    refine unchanged_of_advance hs.advance hne ?_ fun d => ?_
    · rw [heq] at hact
      rw [levelsOf_actOn_of_ne hact.symm hne, hsame.levelsOf]
    · rw [show e'.abs = _ from congrArg Prod.fst hs.abs]
      exact (Exchange.step_does _ _ c).queues_of_ne hne
  · obtain ⟨e', heq, hsame⟩ := exec_missing hn hmiss
    refine ⟨e', _, heq, (hsame.inv h).wellLinked, fun l _ => hsame.unchanged l, ?_,
      fun _ => ⟨rfl, hsame.unchanged⟩⟩
    intro r hr
    simp at hr

/-- An order of the user that the index finds and that rests in another book: the call
acts on it all the same. -/
theorem homed_of_confined (h : e.Inv) (hn : c.named? = some (ref, userId))
    (hl : ¬ kMaxLocate ≤ c.locate) (heq : e.exec c = some (e', out))
    (hc : Confined e c.locate ref userId e' out) : e.abs.Homed c.locate ref userId := by
  intro π o ho hid hu hx
  by_contra hne
  obtain ⟨i, hi, rfl⟩ := List.mem_map.mp ho
  obtain ⟨j, hj⟩ := Option.isSome_iff_exists.mp (show (e.index.lookup ref).isSome = true from hx)
  obtain ⟨hjid, π', hπ'⟩ := h.sound ref j hj
  obtain rfl := h.refs π' π j i hπ' hi (hjid.trans hid.symm)
  obtain ⟨e₂, -, hact⟩ := exec_found hn hl
    (by rw [OrderMap.find_eq_lookup h.wf, hj] : e.index.find ref = some (some j)) hu
  rw [heq] at hact
  have hno : ¬ e.RestsIn c.locate ref userId := by
    rintro ⟨d, k, hk, hkid, -⟩
    obtain rfl := h.refs _ _ k j hk hi (hkid.trans hid.symm)
    exact hne (congrArg Prod.fst (h.place_unique hi hk))
  exact actOn_ne hact.symm (hc.missing hno).1

end

/-- After an admissible run from an empty engine, a cancel, partial cancel or replace
addressed to a book is confined to it exactly when the order the index finds for the
reference, if it is of that user, rests in that book. -/
theorem book_isolation {cap : Nat} {metrics : Option IOCounters} {wal : Option WalWriter}
    {tradePool : Option TradePool} {e₀ e : MatchingEngine}
    {h : List (Call × List BinaryResponse)}
    (h₀ : ofCapacity cap metrics wal tradePool = some e₀) (t : Trace exec Admissible e₀ h e)
    {c : Call} {ref userId : UInt64} (hn : c.named? = some (ref, userId))
    (hl : c.locate < kMaxLocate) (hf : e.abs.Fresh c) :
    (∃ e' out, e.exec c = some (e', out) ∧ Confined e c.locate ref userId e' out) ↔
      e.abs.Homed c.locate ref userId := by
  have hinv := Inv.of_trace (Inv.start h₀) t
  constructor
  · rintro ⟨e', out, heq, hc⟩
    exact homed_of_confined hinv hn (UInt64.not_le.mpr hl) heq hc
  · exact confined_of_homed hinv hn hf

/-- Bids under reference 1 in book 0 and under reference 2 in book 1, at the same price, and
a cancel of reference 1 through book 1. The answer is `RSP_CANCELLED`, slot 0 is on the free
list and still linked in book 0, and book 1 has lost the order nobody cancelled. -/
theorem isolation_fails : ∃ e₀ e e' h, ofCapacity 2 none none none = some e₀ ∧
    Trace exec Admissible e₀ h e ∧ ¬ e.RestsIn 1 1 1 ∧
    e.exec (.cancel 1 1 1) = some (e', [.cancelled 1]) ∧
    (e.slots (0, .bid) = [0] ∧ e.slots (1, .bid) = [1] ∧ e.pool.freeHead.idx = uint32Max) ∧
    (e'.slots (0, .bid) = [0] ∧ e'.slots (1, .bid) = [] ∧ e'.pool.freeHead.idx = 0) := by
  have hrun : ((ofCapacity 2 none none none).bind fun e₀ =>
      (run exec e₀ [.add 0 1 .buy 100 5 1 .day, .add 1 2 .buy 100 7 2 .day]).bind fun r =>
      (r.1.exec (.cancel 1 1 1)).map fun r' =>
        (r'.2, (r.1.slots (0, .bid), r.1.slots (1, .bid), r.1.pool.freeHead.idx),
          (r'.1.slots (0, .bid), r'.1.slots (1, .bid), r'.1.pool.freeHead.idx)))
      = some ([.cancelled 1], ([0], [1], uint32Max), ([0], [], 0)) := by
    decide +kernel
  simp only [Option.bind_eq_some_iff, Option.map_eq_some_iff, Prod.mk.injEq] at hrun
  obtain ⟨e₀, h₀, ⟨e, outs⟩, hrun, ⟨e', out⟩, hcancel, rfl, hbefore, hafter⟩ := hrun
  have t := trace_of_adds h₀ (by decide) (by decide) hrun
  refine ⟨e₀, e, e', _, h₀, t, ?_, hcancel, hbefore, hafter⟩
  -- The only order of book 1 has reference 2.
  rintro ⟨d, i, hi, hid, -⟩
  obtain ⟨x, hx, hloc, href, -⟩ := mem_of_trace h₀ t (List.mem_map.mpr ⟨i, hi, rfl⟩)
  rw [show (e.pool.info i).orderId = 1 from hid] at href
  have hx' := (List.of_mem_zip hx).1
  simp only [List.mem_cons, List.not_mem_nil, or_false] at hx'
  rcases hx' with hx' | hx' <;> rw [hx'] at hloc href
  · exact absurd (show (1 : UInt64) = 0 from hloc) (by decide)
  · exact absurd href (by decide)

/-- Orders in two books, among them bids at one price, and a cancel of one of these through the
book it rests in. -/
theorem book_isolation_two : ∃ e₀ e e' h, ofCapacity 4 none none none = some e₀ ∧
    Trace exec Admissible e₀ h e ∧
    h.map Prod.snd = [[.ok 1], [.ok 2], [.ok 3], [.trade ⟨1, 2, .buy, 100, 3⟩, .filled 4]] ∧
    e.exec (.cancel 1 2 2) = some (e', [.cancelled 2]) ∧ Confined e 1 2 2 e' [.cancelled 2] := by
  let calls : List Call := [.add 0 1 .buy 100 5 1 .day, .add 1 2 .buy 100 7 2 .day,
    .add 1 3 .sell 101 4 3 .day, .add 1 4 .sell 100 3 4 .day]
  have hrun : ((ofCapacity 4 none none none).bind fun e₀ =>
      (checked (fun _ e c => AdmissibleIn [0, 1] e c) exec [] e₀ calls).bind fun r =>
      (r.1.exec (.cancel 1 2 2)).map fun r' =>
        (r.2.map Prod.snd, decide (AdmissibleIn [0, 1] r.1 (.cancel 1 2 2)), r'.2))
      = some ([[.ok 1], [.ok 2], [.ok 3], [.trade ⟨1, 2, .buy, 100, 3⟩, .filled 4]], true,
        [.cancelled 2]) := by
    decide +kernel
  simp only [Option.bind_eq_some_iff, Option.map_eq_some_iff, Prod.mk.injEq] at hrun
  obtain ⟨e₀, h₀, ⟨e, h⟩, hrun, ⟨e', out⟩, hcancel, houts, hin, rfl⟩ := hrun
  obtain ⟨t, honly⟩ := trace_of_checked h₀ hrun
  have hhome : e.abs.Homed 1 2 2 :=
    ((of_decide_eq_true hin).admissible (h := h) honly).2
  obtain ⟨e'', out, heq, hc⟩ := (book_isolation h₀ t (c := .cancel 1 2 2) rfl (by decide)
    trivial).mpr hhome
  obtain ⟨rfl, rfl⟩ := Prod.mk.inj (Option.some.inj (heq.symm.trans hcancel))
  exact ⟨e₀, e, e'', h, h₀, t, houts, hcancel, hc⟩

end MatchingEngine

end NebulaX
