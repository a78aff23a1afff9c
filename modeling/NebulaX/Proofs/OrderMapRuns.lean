import Mathlib.Data.Finset.Card
import NebulaX.Lib.Trace
import NebulaX.Proofs.OrderMap

/-!
# `NebulaX.Proofs.OrderMapRuns`: the index is a finite map

The calls of the index, one after the other. `lastInserted` reads off the history what a key
should be mapped to: the pointer of its last insert that answered `true`, unless an erase
followed. `finite_map` says that the table agrees with it after every run in which only absent
keys are inserted, whatever buckets were converted on the way, and that no call fails to return.
`inserts_kept` says which inserts answer `true`: all of them, if none meets a chain bucket while
the node pool is used up (`DropsInsert`). The test for a used-up pool in `insert` compares the
tagged head of the free list with the bare sentinel and misses every tag but 0.
-/

set_option autoImplicit false

namespace NebulaX

open NebulaX.Lib

namespace OrderMap

variable {m m' : OrderMap} {k : UInt64} {c : Nat}

/-- A call of the index. -/
inductive MapCall where
  | insert (orderId : UInt64) (order : UInt32)
  | find (orderId : UInt64)
  | contains (orderId : UInt64)
  | erase (orderId : UInt64)
  deriving DecidableEq, Repr

/-- The answer to a call. -/
inductive MapAnswer where
  | inserted (ok : Bool)
  | found (order : Option UInt32)
  | contained (b : Bool)
  | erased
  deriving DecidableEq, Repr

/-- One call. -/
def exec (m : OrderMap) : MapCall → Option (OrderMap × MapAnswer)
  | .insert k v => (m.insert k v).map fun r => (r.2, .inserted r.1)
  | .find k => (m.find k).map fun r => (m, .found r)
  | .contains k => (m.contains k).map fun r => (m, .contained r)
  | .erase k => (m.erase k).map fun m' => (m', .erased)

/-- What a call and its answer say about a key: the pointer it has now, or that it has none. -/
def writes (k : UInt64) : MapCall × MapAnswer → Option (Option UInt32)
  | (.insert k' v, .inserted true) => if k' = k then some (some v) else none
  | (.erase k', _) => if k' = k then some none else none
  | _ => none

/-- The pointer of the last successful insert of a key that no erase of the key followed. -/
def lastInserted (h : List (MapCall × MapAnswer)) (k : UInt64) : Option UInt32 :=
  (h.reverse.findSome? (writes k)).join

/-- Only absent keys are inserted. -/
def InsertsAbsent (h : List (MapCall × MapAnswer)) (_ : OrderMap) : MapCall → Prop
  | .insert k _ => lastInserted h k = none
  | _ => True

instance (h : List (MapCall × MapAnswer)) (m : OrderMap) : DecidablePred (InsertsAbsent h m)
  | .insert _ _ => inferInstanceAs (Decidable (_ = none))
  | .find _ | .contains _ | .erase _ => .isTrue trivial

/-- One more call. -/
theorem lastInserted_snoc (h : List (MapCall × MapAnswer)) (e : MapCall × MapAnswer)
    (k : UInt64) :
    lastInserted (h ++ [e]) k = match writes k e with
      | some x => x
      | none => lastInserted h k := by
  unfold lastInserted
  rw [List.reverse_append, List.reverse_singleton, List.singleton_append, List.findSome?_cons]
  cases writes k e <;> rfl

/-! ### What the calls do to `size` -/

/-- A conversion moves entries, it does not add any. -/
theorem size_of_treeify {b : UInt32} (h : m.treeify b = some m') :
    m'.size = m.size := by
  unfold treeify at h
  split at h
  · rw [Option.some.injEq] at h
    rw [h]
  · simp only [Option.bind_eq_bind, Option.bind_eq_some_iff, pure, Option.some.injEq] at h
    obtain ⟨_, -, rfl⟩ := h
    rfl

/-- An insert that answers `true` counts one entry. -/
theorem size_of_insert {v : UInt32} (h : m.insert k v = some (true, m')) :
    m'.size = m.size + 1 := by
  unfold insert at h
  simp only at h
  split at h
  · -- The bucket is converted already.
    simp only [Option.some.injEq, Prod.mk.injEq, true_and] at h
    rw [← h]
    rfl
  · split at h
    · simp only [Option.bind_eq_bind, Option.bind_eq_some_iff, pure, Option.some.injEq,
        Prod.mk.injEq, true_and] at h
      obtain ⟨m₁, hm₁, rfl⟩ := h
      show m₁.size + 1 = _
      rw [size_of_treeify hm₁]
    · unfold allocNode at h
      split at h
      · simp at h
      · next idx m₁ heq =>
          -- The node pool is not `size`.
          have hsize : m₁.size = m.size := by
            split at heq
            · simp at heq
            · rw [← (Prod.mk.inj heq).2]
          split at h
          · simp only [Option.bind_eq_bind, Option.bind_eq_some_iff, pure, Option.some.injEq,
              Prod.mk.injEq, true_and] at h
            obtain ⟨m₂, hm₂, rfl⟩ := h
            rw [size_of_treeify hm₂, ← hsize]
            rfl
          · simp only [Option.some.injEq, Prod.mk.injEq, true_and] at h
            rw [← h, ← hsize]
            rfl

/-- The search in `erase` unlinks a node and counts it, or does nothing. -/
theorem size_of_eraseLoop {b : UInt32} {fuel : Nat} {idx : UInt32}
    (h : m.eraseLoop b k fuel idx = some m') : m' = m ∨ m'.size = m.size - 1 := by
  induction fuel generalizing idx with
  | zero => simp [eraseLoop] at h
  | succ fuel ih =>
      simp only [eraseLoop] at h
      split at h
      · simp at h
      · split at h
        · exact Or.inl (Option.some.inj h).symm
        · split at h
          · exact Or.inr (Option.some.inj h ▸ rfl)
          · exact ih h

/-- An erase counts one entry less, or does nothing. -/
theorem size_of_erase (h : m.erase k = some m') :
    m' = m ∨ m'.size = m.size - 1 := by
  unfold erase at h
  simp only at h
  split at h
  · split at h
    · exact Or.inr (Option.some.inj h ▸ rfl)
    · exact Or.inl (Option.some.inj h).symm
  · split at h
    · exact Or.inl (Option.some.inj h).symm
    · split at h
      · exact Or.inr (Option.some.inj h ▸ rfl)
      · exact size_of_eraseLoop h

/-! ### Runs -/

/-- The table agrees with the history: every key is mapped to what was inserted last, and `size`
counts the keys that are mapped to something. -/
structure Agrees (h : List (MapCall × MapAnswer)) (m : OrderMap) : Prop where
  wf : m.Wf
  lookup : ∀ k, m.lookup k = lastInserted h k
  size : ∃ keys : Finset UInt64, (∀ k, k ∈ keys ↔ (lastInserted h k).isSome = true) ∧
    m.size = UInt64.ofNat keys.card

variable {h : List (MapCall × MapAnswer)}

/-- A call that says nothing about any key. -/
theorem Agrees.of_writes_none (ha : Agrees h m) {e : MapCall × MapAnswer}
    (he : ∀ k, writes k e = none) : Agrees (h ++ [e]) m := by
  have hlast : ∀ k, lastInserted (h ++ [e]) k = lastInserted h k := by
    intro k
    rw [lastInserted_snoc, he]
  refine ⟨ha.wf, fun k => by rw [hlast, ha.lookup], ?_⟩
  obtain ⟨keys, hkeys, hsize⟩ := ha.size
  exact ⟨keys, fun k => by rw [hlast, hkeys], hsize⟩

/-- An insert of an absent key. -/
theorem Agrees.insert (ha : Agrees h m) {v : UInt32} {ok : Bool} (hk : lastInserted h k = none)
    (hins : m.insert k v = some (ok, m')) :
    Agrees (h ++ [(.insert k v, .inserted ok)]) m' := by
  rcases insert_spec ha.wf ((ha.lookup k).trans hk) v with ⟨-, hins'⟩ | ⟨-, m₁, hins', hwf, hlook⟩
  · -- The entry was dropped.
    rw [hins, Option.some.injEq, Prod.mk.injEq] at hins'
    obtain ⟨rfl, rfl⟩ := hins'
    exact ha.of_writes_none fun j => rfl
  · rw [hins, Option.some.injEq, Prod.mk.injEq] at hins'
    obtain ⟨rfl, rfl⟩ := hins'
    have hlast : ∀ j, lastInserted (h ++ [(.insert k v, .inserted true)]) j
        = if j = k then some v else lastInserted h j := by
      intro j
      rw [lastInserted_snoc]
      by_cases hj : j = k
      · simp [writes, hj]
      · simp [writes, hj, Ne.symm hj]
    refine ⟨hwf, fun j => by rw [hlast, hlook, ha.lookup], ?_⟩
    obtain ⟨keys, hkeys, hsize⟩ := ha.size
    have hnot : k ∉ keys := by simp [hkeys, hk]
    refine ⟨keys.cons k hnot, fun j => ?_, ?_⟩
    · rw [hlast, Finset.mem_cons, hkeys]
      by_cases hj : j = k <;> simp [hj]
    · rw [size_of_insert hins, hsize, Finset.card_cons, UInt64.ofNat_add]
      rfl

/-- An erase. -/
theorem Agrees.erase (ha : Agrees h m) (her : m.erase k = some m') :
    Agrees (h ++ [(.erase k, .erased)]) m' := by
  obtain ⟨m₁, her', hwf, hlook⟩ := erase_spec ha.wf k
  obtain rfl : m' = m₁ := Option.some.inj (her.symm.trans her')
  have hlast : ∀ j, lastInserted (h ++ [(.erase k, .erased)]) j
      = if j = k then none else lastInserted h j := by
    intro j
    rw [lastInserted_snoc]
    by_cases hj : j = k
    · simp [writes, hj]
    · simp [writes, hj, Ne.symm hj]
  refine ⟨hwf, fun j => by rw [hlast, hlook, ha.lookup], ?_⟩
  obtain ⟨keys, hkeys, hsize⟩ := ha.size
  refine ⟨keys.erase k, fun j => ?_, ?_⟩
  · rw [hlast, Finset.mem_erase, hkeys]
    by_cases hj : j = k <;> simp [hj]
  · by_cases hk : k ∈ keys
    · -- A key that was there is gone, so the erase did something.
      have hpos : 1 ≤ keys.card := Finset.card_pos.mpr ⟨k, hk⟩
      rcases size_of_erase her with rfl | hs
      · have hsome := (hkeys k).mp hk
        rw [← ha.lookup, hlook] at hsome
        simp at hsome
      · rw [hs, hsize, Finset.card_erase_of_mem hk, UInt64.ofNat_sub hpos]
        rfl
    · have hnone : m.lookup k = none := by
        rw [ha.lookup]
        simpa [hkeys] using hk
      obtain ⟨chains, free, hrep, -⟩ := ha.wf
      rw [hrep.erase_of_absent hnone, Option.some.injEq] at her
      rw [Finset.erase_eq_of_notMem hk, ← her, hsize]

/-- The table agrees with the history of every run that inserts absent keys only. -/
theorem Agrees.of_trace {m₀ : OrderMap} (h₀ : ofCapacity c = some m₀)
    (t : Trace exec InsertsAbsent m₀ h m) : Agrees h m := by
  obtain ⟨hwf, hlook⟩ := ofCapacity_spec h₀
  have hsize : m₀.size = 0 := by
    unfold ofCapacity at h₀
    split at h₀
    · simp at h₀
    · rw [← Option.some.inj h₀]
  refine t.invariant (fun h m => Agrees h m) ⟨hwf, hlook, ∅, by simp [lastInserted], hsize⟩ ?_
  intro h m call m' out _ ha hp hstep
  cases call with
  | insert k v =>
      simp only [exec, Option.map_eq_some_iff, Prod.mk.injEq] at hstep
      obtain ⟨⟨ok, m₁⟩, hins, rfl, rfl⟩ := hstep
      exact ha.insert hp hins
  | find k | contains k =>
      simp only [exec, Option.map_eq_some_iff, Prod.mk.injEq] at hstep
      obtain ⟨r, -, rfl, rfl⟩ := hstep
      exact ha.of_writes_none fun _ => rfl
  | erase k =>
      simp only [exec, Option.map_eq_some_iff, Prod.mk.injEq] at hstep
      obtain ⟨m₁, her, rfl, rfl⟩ := hstep
      exact ha.erase her

/-- The index is a finite map. For every capacity from 2 to `2 ^ 31` there is a new table, and
after every run of calls that inserts absent keys only: `find` and `contains` answer what was
inserted last, `size` is the number of present keys, every further call returns, and an insert
that answers `false` and an erase of an absent key leave the table as it is. -/
theorem finite_map {c : Nat} (h2 : 2 ≤ c) (hc : c ≤ 2 ^ 31) :
    ∃ m₀, ofCapacity c = some m₀ ∧ ∀ h m, Trace exec InsertsAbsent m₀ h m →
      (∀ k, m.find k = some (lastInserted h k)) ∧
      (∀ k, m.contains k = some (lastInserted h k).isSome) ∧
      (∃ keys : Finset UInt64, (∀ k, k ∈ keys ↔ (lastInserted h k).isSome = true) ∧
        m.size = UInt64.ofNat keys.card) ∧
      (∀ call, InsertsAbsent h m call → ∃ r, m.exec call = some r) ∧
      (∀ k v m', lastInserted h k = none → m.insert k v = some (false, m') → m' = m) ∧
      ∀ k, lastInserted h k = none → m.erase k = some m := by
  obtain ⟨m₀, h₀⟩ := exists_ofCapacity h2 hc
  refine ⟨m₀, h₀, fun h m t => ?_⟩
  have ha := Agrees.of_trace h₀ t
  have hfind : ∀ k, m.find k = some (lastInserted h k) := by
    intro k
    rw [find_eq_lookup ha.wf, ha.lookup]
  have hcontains : ∀ k, m.contains k = some (lastInserted h k).isSome := by
    intro k
    rw [contains, hfind]
    rfl
  refine ⟨hfind, hcontains, ha.size, fun call hp => ?_, fun k v m' hk hins => ?_, fun k hk => ?_⟩
  · cases call with
    | insert k v =>
        obtain ⟨r, hr⟩ := exists_insert ha.wf k v
        exact ⟨_, by rw [exec, hr]; rfl⟩
    | find k => exact ⟨_, by rw [exec, hfind]; rfl⟩
    | contains k => exact ⟨_, by rw [exec, hcontains]; rfl⟩
    | erase k =>
        obtain ⟨m', hm', -, -⟩ := erase_spec ha.wf k
        exact ⟨_, by rw [exec, hm']; rfl⟩
  · rcases insert_spec ha.wf ((ha.lookup k).trans hk) v with ⟨-, hins'⟩ | ⟨-, m₁, hins', -, -⟩
    · rw [hins, Option.some.injEq, Prod.mk.injEq] at hins'
      exact hins'.2
    · rw [hins] at hins'
      simp at hins'
  · obtain ⟨chains, free, hrep, -⟩ := ha.wf
    exact hrep.erase_of_absent ((ha.lookup k).trans hk)

/-- Ten keys of one bucket. The chain loses an entry from its middle, grows to eight and is
converted by the next insert; the key that was lost comes back with another pointer. -/
theorem finite_map_converted : ∃ m₀ m h, ofCapacity 16 = some m₀ ∧
    Trace exec InsertsAbsent m₀ h m ∧
    h.map Prod.snd = List.flatten [List.replicate 3 (.inserted true),
      [.found (some 2), .erased, .found none, .contained true],
      List.replicate 7 (.inserted true),
      [.found (some 3), .erased, .inserted true, .found (some 9)]] ∧
    m.state (m.hash 5) = .treeified ∧ m.find 5 = some (some 1) ∧ m.find 18 = some (some 9) ∧
    m.find 39 = some none ∧ m.size = 9 := by
  obtain ⟨m₀, h₀, hruns⟩ := finite_map (c := 16) (by decide) (by decide)
  let calls : List MapCall := [.insert 5 1, .insert 18 2, .insert 26 3, .find 18, .erase 18,
    .find 18, .contains 26, .insert 39 4, .insert 60 5, .insert 73 6, .insert 94 7, .insert 115 8,
    .insert 128 10, .insert 149 11, .find 26, .erase 39, .insert 18 9, .find 18]
  have hrun : ((ofCapacity 16).bind fun m₀ => (checked InsertsAbsent exec [] m₀ calls).map fun r =>
      (r.2.map Prod.snd, r.1.state (r.1.hash 5), r.1.size,
        [5, 18, 39].map (lastInserted r.2)))
      = some (List.flatten [List.replicate 3 (.inserted true),
        [.found (some 2), .erased, .found none, .contained true],
        List.replicate 7 (.inserted true),
        [.found (some 3), .erased, .inserted true, .found (some 9)]], .treeified, 9,
        [some 1, some 9, none]) := by
    decide +kernel
  simp only [h₀, Option.bind_some, Option.map_eq_some_iff, Prod.mk.injEq, List.map_cons,
    List.cons.injEq] at hrun
  obtain ⟨⟨m, h⟩, hrun, hanswers, hstate, hsize, h5, h18, h39, -⟩ := hrun
  have t := Trace.of_checked .nil hrun
  have hfind := (hruns h m t).1
  exact ⟨m₀, m, h, h₀, t, hanswers, hstate, by rw [hfind, h5], by rw [hfind, h18],
    by rw [hfind, h39], hsize⟩

/-! ### No insert is dropped -/

/-- What a call asks for a key: the pointer it shall have, or that it shall have none. -/
def asks (k : UInt64) : MapCall → Option (Option UInt32)
  | .insert k' v => if k' = k then some (some v) else none
  | .erase k' => if k' = k then some none else none
  | _ => none

/-- The pointer of the last insert of a key that no erase of the key followed, whatever was
answered. -/
def lastAsked (h : List (MapCall × MapAnswer)) (k : UInt64) : Option UInt32 :=
  (h.reverse.findSome? fun x => asks k x.1).join

/-- The call is not an insert the table drops. -/
def Keeps (m : OrderMap) : MapCall → Prop
  | .insert k _ => ¬ m.DropsInsert k
  | _ => True

/-- A call with its answer: an insert was kept. -/
def Kept : MapCall × MapAnswer → Prop
  | (.insert _ _, a) => a = .inserted true
  | _ => True

theorem writes_eq_asks {x : MapCall × MapAnswer} (h : Kept x) (k : UInt64) :
    writes k x = asks k x.1 := by
  obtain ⟨call, a⟩ := x
  cases call with
  | insert k' v =>
      obtain rfl : a = .inserted true := h
      rfl
  | find k' => rfl
  | contains k' => rfl
  | erase k' => rfl

theorem lastInserted_eq_lastAsked (hkept : ∀ x ∈ h, Kept x) (k : UInt64) :
    lastInserted h k = lastAsked h k := by
  rw [lastInserted, lastAsked, ← List.head?_filterMap, ← List.head?_filterMap,
    List.filterMap_congr fun x hx => writes_eq_asks (hkept x (List.mem_reverse.mp hx)) k]

/-- What an insert of an absent key does in a table that agrees with a history. -/
theorem Agrees.insert_kept_iff (ha : Agrees h m) (hk : lastInserted h k = none) (v : UInt32) :
    (∃ m', m.insert k v = some (true, m') ∧ m'.find k = some (some v)) ↔ ¬ m.DropsInsert k := by
  rcases insert_spec ha.wf ((ha.lookup k).trans hk) v with ⟨hd, hins⟩ | ⟨hd, m', hins, hwf, hlook⟩
  · exact ⟨fun ⟨m', hins', _⟩ => by simp [hins] at hins', fun hno => absurd hd hno⟩
  · refine ⟨fun _ => hd, fun _ => ⟨m', hins, ?_⟩⟩
    rw [find_eq_lookup hwf, hlook, if_pos rfl]

/-- **Inserts are kept.** In every run on a new table that inserts absent keys only, an insert
answers `true` and the key is found, exactly when the table does not drop it; so in a run in
which it drops none, every insert has answered `true`, and every key that was inserted and not
erased since is found. -/
theorem inserts_kept {c : Nat} {m₀ : OrderMap} (h₀ : ofCapacity c = some m₀) :
    (∀ h m, Trace exec (fun h m call => InsertsAbsent h m call ∧ m.Keeps call) m₀ h m →
      (∀ x ∈ h, Kept x) ∧ ∀ k, m.find k = some (lastAsked h k)) ∧
    ∀ h m, Trace exec InsertsAbsent m₀ h m → ∀ k v, lastInserted h k = none →
      ((∃ m', m.insert k v = some (true, m') ∧ m'.find k = some (some v)) ↔
        ¬ m.DropsInsert k) := by
  refine ⟨fun h m t => ?_, fun h m t k v hk => (Agrees.of_trace h₀ t).insert_kept_iff hk v⟩
  have hkept : ∀ x ∈ h, Kept x := by
    refine t.invariant (fun h _ => ∀ x ∈ h, Kept x) (by simp) ?_
    intro h m call m' out t ih hp hstep x hx
    rcases List.mem_append.mp hx with hx | hx
    · exact ih x hx
    rw [List.mem_singleton.mp hx]
    cases call with
    | insert k v =>
        have ha := Agrees.of_trace h₀ (t.mono fun _ _ _ _ hp => hp.1)
        obtain ⟨m₁, hins, -⟩ := (ha.insert_kept_iff hp.1 v).mpr hp.2
        rw [exec, hins, Option.map_some, Option.some.injEq, Prod.mk.injEq] at hstep
        exact hstep.2.symm
    | find k => trivial
    | contains k => trivial
    | erase k => trivial
  have ha := Agrees.of_trace h₀ (t.mono fun _ _ _ _ hp => hp.1)
  refine ⟨hkept, fun k => ?_⟩
  rw [find_eq_lookup ha.wf, ha.lookup, lastInserted_eq_lastAsked hkept]

/-- Three keys, one after the other, in a table of two nodes. -/
theorem inserts_kept_churn : ∃ m₀ m, ofCapacity 2 = some m₀ ∧
    (run exec m₀ [.insert 7 1, .insert 8 2, .erase 7, .insert 9 3]).map Prod.fst = some m ∧
    m.find 8 = some (some 2) ∧ m.find 9 = some (some 3) := by
  have hrun : ((ofCapacity 2).bind fun m₀ => (m₀.exec (.insert 7 1)).bind fun r₁ =>
      (r₁.1.exec (.insert 8 2)).bind fun r₂ => (r₂.1.exec (.erase 7)).bind fun r₃ =>
      (r₃.1.exec (.insert 9 3)).map fun r₄ => ([r₁.2, r₂.2, r₃.2, r₄.2],
        [decide (m₀.DropsInsert 7), decide (r₁.1.DropsInsert 8), decide (r₃.1.DropsInsert 9)]))
      = some ([.inserted true, .inserted true, .erased, .inserted true],
        [false, false, false]) := by
    decide +kernel
  simp only [Option.bind_eq_some_iff, Option.map_eq_some_iff, Prod.mk.injEq, List.cons.injEq,
    and_true, decide_eq_false_iff_not] at hrun
  obtain ⟨m₀, h₀, ⟨m₁, a₁⟩, hs₁, ⟨m₂, a₂⟩, hs₂, ⟨m₃, a₃⟩, hs₃, ⟨m₄, a₄⟩, hs₄,
    ⟨rfl, rfl, rfl, rfl⟩, hk₁, hk₂, hk₃⟩ := hrun
  have t : Trace exec (fun h m call => InsertsAbsent h m call ∧ m.Keeps call) m₀
      [(.insert 7 1, .inserted true), (.insert 8 2, .inserted true), (.erase 7, .erased),
        (.insert 9 3, .inserted true)] m₄ :=
    (((Trace.nil.snoc ⟨show lastInserted [] 7 = none from rfl, hk₁⟩ hs₁).snoc
      ⟨show lastInserted _ 8 = none from rfl, hk₂⟩ hs₂).snoc ⟨trivial, trivial⟩ hs₃).snoc
      ⟨show lastInserted _ 9 = none from rfl, hk₃⟩ hs₄
  obtain ⟨-, hfind⟩ := (inserts_kept h₀).1 _ _ t
  exact ⟨m₀, m₄, h₀, congrArg (Option.map Prod.fst) t.run_eq, hfind 8, hfind 9⟩

/-- Twelve keys in a table of eight nodes: the last four are dropped and not found. -/
theorem twelve_in_eight : ∃ m₀ m outs, ofCapacity 8 = some m₀ ∧
    run exec m₀ ([1, 2, 3, 4, 5, 6, 7, 8, 9, 10, 11, 12].map fun k : Nat =>
      .insert (UInt64.ofNat k) (UInt32.ofNat k)) = some (m, outs) ∧
    outs = List.replicate 8 (.inserted true) ++ List.replicate 4 (.inserted false) ∧
    [9, 10, 11, 12].map m.find = List.replicate 4 (some none) := by
  have hrun : ((ofCapacity 8).bind fun m₀ =>
      (run exec m₀ ([1, 2, 3, 4, 5, 6, 7, 8, 9, 10, 11, 12].map fun k : Nat =>
        .insert (UInt64.ofNat k) (UInt32.ofNat k))).map fun r =>
          (r.2, [9, 10, 11, 12].map r.1.find))
      = some (List.replicate 8 (.inserted true) ++ List.replicate 4 (.inserted false),
        List.replicate 4 (some none)) := by
    decide +kernel
  simp only [Option.bind_eq_some_iff, Option.map_eq_some_iff] at hrun
  obtain ⟨m₀, h₀, ⟨m, outs⟩, hrun, hend⟩ := hrun
  obtain ⟨houts, hfind⟩ := Prod.mk.inj hend
  exact ⟨m₀, m, outs, h₀, hrun, houts, hfind⟩

end OrderMap

end NebulaX
