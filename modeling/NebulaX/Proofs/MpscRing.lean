import NebulaX.Lib.Trace
import NebulaX.Server.MpscRing

/-!
# `NebulaX.Proofs.MpscRing`: the ring delivers in claim order

Over every run of the producers and the consumer, cut at their accesses to shared memory.

The claims of one slot are `CAPACITY` apart. A claim is *unmarked* until its producer has stored
`UINT64_MAX`, and *open* until the consumer has gone past it. The invariant has four parts: `Claims`
(every producer has an open claim of its own), `Ordered` (of two claims of one slot, the earlier one
is marked when the later one is made, and consumed when the later one is marked), `Slots` (what
`seq` and `data` say about the one claim that is open and marked) and `Logs` (what was committed
and what was seen).

`Ordered` does not hold by itself. `alloc` claims, looks and marks in three steps, and two claims of
one slot that both look before one marks both find 0 (`two_hold_one_slot`). The condition is that a
slot is claimed only when no earlier claim of it is unmarked (`ClaimsFree`); the last two indices
are left out with it, where `idx + 1` is the mark of a busy slot or that of a free one.
-/

set_option autoImplicit false

namespace NebulaX

open NebulaX.Lib

namespace MpscProducer

variable {α : Type} {p : MpscProducer α} {idx : UInt64}

/-- The claim of a producer. -/
def idx? : MpscProducer α → Option UInt64
  | .idle => none
  | .waiting idx => some idx
  | .ready idx => some idx
  | .holding idx => some idx
  | .written idx _ => some idx

/-- The producer has not marked its slot yet. -/
def Unmarked (p : MpscProducer α) (idx : UInt64) : Prop := p = .waiting idx ∨ p = .ready idx

/-- The producer is between `alloc` and `commit`. -/
def Holds (p : MpscProducer α) (idx : UInt64) : Prop := p = .holding idx ∨ ∃ x, p = .written idx x

/-- The claim of a producer that has not marked its slot yet. -/
def unmarked? : MpscProducer α → Option UInt64
  | .waiting idx | .ready idx => some idx
  | _ => none

theorem unmarked?_eq_some :
    p.unmarked? = some idx ↔ p.Unmarked idx := by
  cases p <;> simp [unmarked?, Unmarked]

theorem idx?_of_unmarked (h : p.Unmarked idx) :
    p.idx? = some idx := by
  rcases h with rfl | rfl <;> rfl

theorem idx?_of_holds (h : p.Holds idx) :
    p.idx? = some idx := by
  rcases h with rfl | ⟨x, rfl⟩ <;> rfl

theorem unmarked_or_holds (h : p.idx? = some idx) :
    p.Unmarked idx ∨ p.Holds idx := by
  cases p <;> simp_all [idx?, Unmarked, Holds]

end MpscProducer

/-- The actions of the consumer. -/
def MpscAction.OfConsumer {τ α : Type} : MpscAction τ α → Prop
  | .tryPop | .read | .consume => True
  | _ => False

namespace MpscRing

variable {τ α : Type} {cap : Nat} {s s' : MpscRing τ α}

/-! ### Accesses -/

section
variable (s) (i k : Nat) (v : UInt64) (x : α)

@[simp] theorem storeSeq_producers : (s.storeSeq i v).producers = s.producers := rfl
@[simp] theorem storeSeq_claimIdx : (s.storeSeq i v).claimIdx = s.claimIdx := rfl
@[simp] theorem storeSeq_readCursor : (s.storeSeq i v).readCursor = s.readCursor := rfl
@[simp] theorem storeSeq_consumer : (s.storeSeq i v).consumer = s.consumer := rfl
@[simp] theorem storeData_producers : (s.storeData i x).producers = s.producers := rfl
@[simp] theorem storeData_claimIdx : (s.storeData i x).claimIdx = s.claimIdx := rfl
@[simp] theorem storeData_readCursor : (s.storeData i x).readCursor = s.readCursor := rfl
@[simp] theorem storeData_consumer : (s.storeData i x).consumer = s.consumer := rfl

@[simp] theorem storeSeq_seq :
    ((s.storeSeq i v).slots k).seq = if k = i then v else (s.slots k).seq := by
  by_cases h : k = i
  · subst h
    simp [storeSeq]
  · simp [storeSeq, h]

@[simp] theorem storeSeq_data : ((s.storeSeq i v).slots k).data = (s.slots k).data := by
  by_cases h : k = i
  · subst h
    simp [storeSeq]
  · simp [storeSeq, h]

@[simp] theorem storeData_seq : ((s.storeData i x).slots k).seq = (s.slots k).seq := by
  by_cases h : k = i
  · subst h
    simp [storeData]
  · simp [storeData, h]

@[simp] theorem storeData_data :
    ((s.storeData i x).slots k).data = if k = i then x else (s.slots k).data := by
  by_cases h : k = i
  · subst h
    simp [storeData]
  · simp [storeData, h]

variable [DecidableEq τ] (t t' : τ) (p : MpscProducer α)

@[simp] theorem goto_slots : (s.goto t p).slots = s.slots := rfl
@[simp] theorem goto_claimIdx : (s.goto t p).claimIdx = s.claimIdx := rfl
@[simp] theorem goto_readCursor : (s.goto t p).readCursor = s.readCursor := rfl
@[simp] theorem goto_consumer : (s.goto t p).consumer = s.consumer := rfl

@[simp] theorem goto_producers :
    (s.goto t p).producers t' = if t' = t then p else s.producers t' := by
  by_cases h : t' = t
  · subst h
    simp [goto]
  · simp [goto, h]

end

/-! ### What the outside sees -/

/-- The entries committed in a run, with what their producers wrote. -/
def commits (h : List (MpscAction τ α × MpscEvent α)) : List (UInt64 × α) :=
  h.filterMap fun x => match x.2 with
    | .committed idx y => some (idx, y)
    | _ => none

/-- The entries the consumer saw in a run. -/
def seen (h : List (MpscAction τ α × MpscEvent α)) : List (UInt64 × α) :=
  h.filterMap fun x => match x.2 with
    | .saw idx y => some (idx, y)
    | _ => none

/-- No claim of the slot the next claim gets is still unmarked, and the indices do not run out. -/
def ClaimsFree (cap : Nat) (s : MpscRing τ α) : MpscAction τ α → Prop
  | .claim _ => s.claimIdx.toNat + 2 < 2 ^ 64 ∧
      ∀ t idx, (s.producers t).Unmarked idx → place cap idx ≠ place cap s.claimIdx
  | _ => True

instance [Fintype τ] (cap : Nat) (s : MpscRing τ α) : DecidablePred (ClaimsFree cap s)
  | .claim _ =>
      -- The claim is looked for in the option: all indices are too many to try.
      letI (t : τ) : Decidable (∀ idx ∈ (s.producers t).unmarked?,
          place cap idx ≠ place cap s.claimIdx) := Option.decidableForallMem _
      decidable_of_iff (s.claimIdx.toNat + 2 < 2 ^ 64 ∧
        ∀ t, ∀ idx ∈ (s.producers t).unmarked?, place cap idx ≠ place cap s.claimIdx)
        (by simp [ClaimsFree, MpscProducer.unmarked?_eq_some])
  | .load _ | .mark _ | .write _ _ | .commit _ | .tryPop | .read | .consume => .isTrue trivial

/-! ### The invariant -/

/-- No producer with this claim still has to mark its slot. -/
def Marked (s : MpscRing τ α) (idx : UInt64) : Prop := ∀ t, ¬ (s.producers t).Unmarked idx

/-- A claim that has been made and not consumed. -/
def Open (s : MpscRing τ α) (idx : UInt64) : Prop :=
  s.readCursor.toNat ≤ idx.toNat + 1 ∧ idx.toNat < s.claimIdx.toNat

/-- The claims and their producers. -/
structure Claims (s : MpscRing τ α) : Prop where
  bound : s.claimIdx.toNat + 1 < 2 ^ 64
  cursor : s.readCursor.toNat ≠ 0
  behind : s.readCursor.toNat ≤ s.claimIdx.toNat + 1
  claimed : ∀ t idx, (s.producers t).idx? = some idx → s.Open idx
  single : ∀ t t' idx, (s.producers t).idx? = some idx → (s.producers t').idx? = some idx → t = t'

/-- The claims of one slot come one after the other: the earlier one is marked when the later one
is made, and consumed when the later one is marked. -/
def Ordered (cap : Nat) (s : MpscRing τ α) : Prop :=
  ∀ idx idx' : UInt64, idx.toNat < idx'.toNat → idx'.toNat < s.claimIdx.toNat →
    place cap idx = place cap idx' →
      s.Marked idx ∧ (s.Marked idx' → idx.toNat + 1 < s.readCursor.toNat)

/-- What the slots hold. -/
structure Slots (cap : Nat) (log : List (UInt64 × α)) (s : MpscRing τ α) : Prop where
  held : ∀ t idx, (s.producers t).Holds idx → (s.slots (place cap idx)).seq = slotBusy
  data : ∀ t idx x, s.producers t = .written idx x → (s.slots (place cap idx)).data = x
  ready : ∀ t idx, s.producers t = .ready idx → (s.slots (place cap idx)).seq = 0
  committed : ∀ idx, s.Open idx → (∀ t, (s.producers t).idx? ≠ some idx) →
    (s.slots (place cap idx)).seq = idx + 1 ∧ (idx, (s.slots (place cap idx)).data) ∈ log
  occupied : ∀ i, (s.slots i).seq ≠ 0 → ∃ idx, place cap idx = i ∧ s.Open idx ∧ s.Marked idx

/-- What was committed and seen so far. -/
structure Logs (log seen : List (UInt64 × α)) (s : MpscRing τ α) : Prop where
  popped : s.consumer ≠ .idle → s.readCursor.toNat ≤ s.claimIdx.toNat ∧
    ∀ t, (s.producers t).idx? ≠ some (s.readCursor - 1)
  finished : ∀ p ∈ log, p.1.toNat < s.claimIdx.toNat ∧ ∀ t, (s.producers t).idx? ≠ some p.1
  once : (log.map Prod.fst).Nodup
  seenOrder : seen.map (fun p => p.1.toNat)
    = List.range (s.readCursor.toNat - 1 + if s.consumer = .read then 1 else 0)
  seenCommitted : ∀ p ∈ seen, p ∈ log

/-- The ring after a run in which `log` was committed and `seen` was seen. -/
structure Inv (cap : Nat) (log seen : List (UInt64 × α)) (s : MpscRing τ α) : Prop where
  claims : s.Claims
  ordered : Ordered cap s
  slots : Slots cap log s
  logs : Logs log seen s

section
variable {log seen : List (UInt64 × α)} {t : τ} {idx : UInt64} {x : α}

theorem toNat_cursor (h : s.Claims) : (s.readCursor - 1).toNat = s.readCursor.toNat - 1 := by
  have := h.cursor
  exact UInt64.toNat_sub_of_le _ _ (UInt64.le_iff_toNat_le.mpr (by change 1 ≤ _; omega))

theorem toNat_succ (h : s.Claims) (hopen : s.Open idx) : (idx + 1).toNat = idx.toNat + 1 := by
  have := h.bound
  have := hopen.2
  rw [UInt64.toNat_add]
  exact Nat.mod_eq_of_lt (by change idx.toNat + 1 < 2 ^ 64; omega)

theorem Claims.marked (h : s.Claims) (hidx : (s.producers t).Holds idx) : s.Marked idx := by
  intro t' hu
  have ht := h.single t t' idx (MpscProducer.idx?_of_holds hidx) (MpscProducer.idx?_of_unmarked hu)
  subst ht
  rcases hidx with hp | ⟨x, hp⟩ <;> rcases hu with hu | hu <;> rw [hp] at hu <;> cases hu

/-- At most one open claim of a slot is marked. -/
theorem Ordered.unique (h : Ordered cap s) {idx' : UInt64} (hopen : s.Open idx)
    (hopen' : s.Open idx') (hm : s.Marked idx) (hm' : s.Marked idx')
    (hplace : place cap idx = place cap idx') : idx = idx' := by
  rcases Nat.lt_trichotomy idx.toNat idx'.toNat with hlt | heq | hgt
  · have := (h idx idx' hlt hopen'.2 hplace).2 hm'
    have := hopen.1
    omega
  · exact UInt64.toNat_inj.mp heq
  · have := (h idx' idx hgt hopen.2 hplace.symm).2 hm
    have := hopen'.1
    omega

/-- No two producers hold one slot. -/
theorem Inv.exclusive (hi : Inv cap log seen s) {t' : τ} {idx' : UInt64}
    (h : (s.producers t).Holds idx) (h' : (s.producers t').Holds idx')
    (hplace : place cap idx = place cap idx') : t = t' := by
  have hidx := MpscProducer.idx?_of_holds h
  have hidx' := MpscProducer.idx?_of_holds h'
  obtain rfl := hi.ordered.unique (hi.claims.claimed _ _ hidx) (hi.claims.claimed _ _ hidx')
    (hi.claims.marked h) (hi.claims.marked h') hplace
  exact hi.claims.single t t' idx hidx hidx'

/-! ### Producers -/

/-- The claims stand, with the same producers. -/
structure SameClaims (s s' : MpscRing τ α) : Prop where
  claimIdx : s'.claimIdx = s.claimIdx
  readCursor : s'.readCursor = s.readCursor
  consumer : s'.consumer = s.consumer
  idx? : ∀ t, (s'.producers t).idx? = (s.producers t).idx?

theorem SameClaims.open_iff (h : SameClaims s s') (idx : UInt64) : s'.Open idx ↔ s.Open idx := by
  rw [Open, Open, h.claimIdx, h.readCursor]

theorem SameClaims.claims (h : SameClaims s s') (hc : s.Claims) : s'.Claims where
  bound := by rw [h.claimIdx]; exact hc.bound
  cursor := by rw [h.readCursor]; exact hc.cursor
  behind := by rw [h.claimIdx, h.readCursor]; exact hc.behind
  claimed t idx hidx := (h.open_iff idx).mpr (hc.claimed t idx (by rwa [h.idx?] at hidx))
  single t t' idx ht ht' := hc.single t t' idx (by rwa [h.idx?] at ht) (by rwa [h.idx?] at ht')

theorem SameClaims.logs (h : SameClaims s s') (hl : Logs log seen s) : Logs log seen s' where
  popped := by
    simp only [h.consumer, h.readCursor, h.claimIdx, h.idx?]
    exact hl.popped
  finished := by
    simp only [h.claimIdx, h.idx?]
    exact hl.finished
  once := hl.once
  seenOrder := by
    rw [h.consumer, h.readCursor]
    exact hl.seenOrder
  seenCommitted := hl.seenCommitted

/-- The marks stand. -/
theorem Ordered.of_marked (h : Ordered cap s) (hn : s'.claimIdx = s.claimIdx)
    (hr : s'.readCursor = s.readCursor) (hm : ∀ idx, s'.Marked idx ↔ s.Marked idx) :
    Ordered cap s' := by
  intro idx idx' hlt hlt' hplace
  rw [hm, hm, hr]
  exact h idx idx' hlt (hn ▸ hlt') hplace

variable [DecidableEq τ]

/-- A producer that does not become or stop being unmarked leaves the marks as they are. -/
theorem marked_goto {p : MpscProducer α} (hp : p.Unmarked idx ↔ (s.producers t).Unmarked idx) :
    (s.goto t p).Marked idx ↔ s.Marked idx := by
  refine forall_congr' fun t' => not_congr ?_
  rw [goto_producers]
  by_cases ht : t' = t
  · rw [if_pos ht, hp, ht]
  · rw [if_neg ht]

theorem idx?_goto {p : MpscProducer α} (hp : p.idx? = (s.producers t).idx?) (t' : τ) :
    ((s.goto t p).producers t').idx? = (s.producers t').idx? := by
  rw [goto_producers]
  by_cases ht : t' = t
  · rw [if_pos ht, hp, ht]
  · rw [if_neg ht]

theorem Inv.claim (hi : Inv cap log seen s) (hidle : s.producers t = .idle)
    (hfree : ClaimsFree cap s (.claim t)) :
    Inv cap log seen ({ s with claimIdx := s.claimIdx + 1 }.goto t (.waiting s.claimIdx)) := by
  obtain ⟨hlt, hslot⟩ := hfree
  have hbehind := hi.claims.behind
  have hn : (s.claimIdx + 1).toNat = s.claimIdx.toNat + 1 := by
    rw [UInt64.toNat_add]
    exact Nat.mod_eq_of_lt (by change s.claimIdx.toNat + 1 < 2 ^ 64; omega)
  have hmarked : ∀ idx, idx ≠ s.claimIdx →
      (({ s with claimIdx := s.claimIdx + 1 }.goto t (.waiting s.claimIdx)).Marked idx
        ↔ s.Marked idx) := by
    intro idx hne
    exact marked_goto (s := { s with claimIdx := s.claimIdx + 1 })
      (by simp [MpscProducer.Unmarked, hidle, hne.symm])
  -- An older claim is not the new one.
  have hold : ∀ idx, s.Open idx → idx ≠ s.claimIdx := by
    rintro idx hopen rfl
    exact absurd hopen.2 (Nat.lt_irrefl _)
  have hclaimed := hi.claims.claimed
  refine ⟨⟨?bound, hi.claims.cursor, ?behind, ?claimed, ?single⟩, ?ordered,
    ⟨?held, ?data, ?ready, ?committed, ?occupied⟩, ⟨?popped, ?finished, hi.logs.once,
    hi.logs.seenOrder, hi.logs.seenCommitted⟩⟩
  case ordered =>
    intro idx idx' hidx hidx' hplace
    rw [goto_claimIdx, hn] at hidx'
    have hne : idx ≠ s.claimIdx := by
      rintro rfl
      omega
    rw [hmarked idx hne]
    by_cases hnew : idx' = s.claimIdx
    · -- The claims before the new one are marked, and the new one is not.
      subst hnew
      refine ⟨fun t' hu => hslot t' idx hu hplace, fun hm => ?_⟩
      exact absurd (Or.inl (by simp)) (hm t)
    · rw [hmarked idx' hnew]
      have hlt' : idx'.toNat ≠ s.claimIdx.toNat := fun heq => hnew (UInt64.toNat_inj.mp heq)
      exact hi.ordered idx idx' hidx (by omega) hplace
  all_goals simp only [goto_slots, goto_claimIdx, goto_readCursor, goto_consumer, goto_producers,
    Open, hn]
  case bound => omega
  case behind => omega
  case claimed => grind [MpscProducer.idx?, Open]
  case single =>
    have := hi.claims.single
    grind [MpscProducer.idx?, Open]
  case held =>
    have := hi.slots.held
    grind [MpscProducer.Holds]
  case data =>
    have := hi.slots.data
    grind
  case ready =>
    have := hi.slots.ready
    grind
  case committed =>
    intro idx hopen hno
    have hne : idx ≠ s.claimIdx := by
      rintro rfl
      exact hno t (by simp [MpscProducer.idx?])
    have hlt' : idx.toNat ≠ s.claimIdx.toNat := fun heq => hne (UInt64.toNat_inj.mp heq)
    refine hi.slots.committed idx ⟨hopen.1, by omega⟩ fun t' ht' => hno t' ?_
    grind [MpscProducer.idx?]
  case occupied =>
    intro i hseq
    obtain ⟨idx, hplace, hopen, hm⟩ := hi.slots.occupied i hseq
    exact ⟨idx, hplace, ⟨hopen.1, by have := hopen.2; omega⟩, (hmarked idx (hold idx hopen)).mpr hm⟩
  case popped =>
    have := hi.logs.popped
    grind [MpscProducer.idx?]
  case finished =>
    have := hi.logs.finished
    grind [MpscProducer.idx?]

/-- The load that sees the slot free. -/
theorem Inv.load (hi : Inv cap log seen s) (hp : s.producers t = .waiting idx)
    (hfree : (s.slots (place cap idx)).seq = 0) : Inv cap log seen (s.goto t (.ready idx)) := by
  have hidx : ∀ t', ((s.goto t (.ready idx)).producers t').idx? = (s.producers t').idx? :=
    idx?_goto (by rw [hp]; rfl)
  have hsame : SameClaims s (s.goto t (.ready idx)) := ⟨rfl, rfl, rfl, hidx⟩
  have hmarked : ∀ j, (s.goto t (.ready idx)).Marked j ↔ s.Marked j :=
    fun j => marked_goto (by simp [MpscProducer.Unmarked, hp])
  refine ⟨hsame.claims hi.claims, hi.ordered.of_marked rfl rfl hmarked, ⟨?_, ?_, ?_, ?_, ?_⟩,
    hsame.logs hi.logs⟩
  · have := hi.slots.held
    grind [MpscProducer.Holds, goto_producers, goto_slots]
  · have := hi.slots.data
    grind [goto_producers, goto_slots]
  · have := hi.slots.ready
    grind [goto_producers, goto_slots]
  · intro j hopen hno
    refine hi.slots.committed j hopen fun t' => ?_
    rw [← hidx]
    exact hno t'
  · intro i hseq
    obtain ⟨j, hplace, hopen, hm⟩ := hi.slots.occupied i hseq
    exact ⟨j, hplace, hopen, (hmarked j).mpr hm⟩

/-- The store of the mark. -/
theorem Inv.mark (hi : Inv cap log seen s) (hp : s.producers t = .ready idx) :
    Inv cap log seen ((s.storeSeq (place cap idx) slotBusy).goto t (.holding idx)) := by
  obtain ⟨s', hs'⟩ : ∃ s', s' = (s.storeSeq (place cap idx) slotBusy).goto t (.holding idx) :=
    ⟨_, rfl⟩
  have hclaim : (s.producers t).idx? = some idx := by rw [hp]; rfl
  have hopen := hi.claims.claimed t idx hclaim
  have hzero := hi.slots.ready t idx hp
  have hunmarked : ¬ s.Marked idx := fun hm => hm t (Or.inr hp)
  have hidx : ∀ t', (s'.producers t').idx? = (s.producers t').idx? := by
    subst hs'
    exact idx?_goto (s := s.storeSeq _ _) (by rw [storeSeq_producers, hp]; rfl)
  have hsame : SameClaims s s' := by
    subst hs'
    exact ⟨rfl, rfl, rfl, hidx⟩
  have hmarked : ∀ j, j ≠ idx → (s'.Marked j ↔ s.Marked j) := by
    intro j hj
    subst hs'
    exact marked_goto (s := s.storeSeq _ _)
      (by simp [MpscProducer.Unmarked, hp, hj.symm])
  -- The slot is free, so its other claims are consumed.
  have hconsumed : ∀ j, j ≠ idx → place cap j = place cap idx → ¬ s.Open j := by
    intro j hj hplace hjopen
    rcases Nat.lt_trichotomy j.toNat idx.toNat with hlt | heq | hgt
    · have hm := (hi.ordered j idx hlt hopen.2 hplace).1
      by_cases hthread : ∃ t', (s.producers t').idx? = some j
      · obtain ⟨t', ht'⟩ := hthread
        rcases MpscProducer.unmarked_or_holds ht' with hu | hh
        · exact hm t' hu
        · have := hi.slots.held t' j hh
          rw [hplace, hzero] at this
          exact absurd this (by decide)
      · have hseq := (hi.slots.committed j hjopen fun t' ht' => hthread ⟨t', ht'⟩).1
        rw [hplace, hzero] at hseq
        have := congrArg UInt64.toNat hseq
        rw [toNat_succ hi.claims hjopen] at this
        simp at this
    · exact hj (UInt64.toNat_inj.mp heq)
    · exact hunmarked (hi.ordered idx j hgt hjopen.2 hplace.symm).1
  have hseq : ∀ i, (s'.slots i).seq
      = if i = place cap idx then slotBusy else (s.slots i).seq := by
    subst hs'
    exact fun i => storeSeq_seq s _ i _
  have hprod : ∀ t', s'.producers t' = if t' = t then .holding idx else s.producers t' := by
    subst hs'
    exact fun t' => goto_producers _ t t' _
  have hdata : ∀ i, (s'.slots i).data = (s.slots i).data := by
    subst hs'
    exact fun i => storeSeq_data s _ i _
  rw [← hs']
  refine ⟨hsame.claims hi.claims, ?ordered, ⟨?held, ?data, ?ready, ?committed, ?occupied⟩,
    hsame.logs hi.logs⟩
  case ordered =>
    intro j j' hlt hlt' hplace
    rw [hsame.claimIdx] at hlt'
    rw [hsame.readCursor]
    have hj : j ≠ idx := by
      rintro rfl
      exact hunmarked (hi.ordered j j' hlt hlt' hplace).1
    rw [hmarked j hj]
    refine ⟨(hi.ordered j j' hlt hlt' hplace).1, fun hm => ?_⟩
    by_cases hj' : j' = idx
    · subst hj'
      by_contra hge
      exact hconsumed j hj hplace ⟨by omega, by omega⟩
    · exact (hi.ordered j j' hlt hlt' hplace).2 ((hmarked j' hj').mp hm)
  case held =>
    intro t' j hh
    rw [hseq]
    rw [hprod] at hh
    split
    · rfl
    · rename_i hne
      split at hh
      · rcases hh with hh | ⟨x, hh⟩ <;> cases hh
        exact absurd rfl hne
      · exact hi.slots.held t' j hh
  case data =>
    intro t' j x hw
    rw [hprod] at hw
    split at hw
    · cases hw
    · rw [hdata]
      exact hi.slots.data t' j x hw
  case ready =>
    intro t' j hr
    rw [hprod] at hr
    split at hr
    · cases hr
    · rename_i ht
      have hjclaim : (s.producers t').idx? = some j := by rw [hr]; rfl
      have hne : place cap j ≠ place cap idx := by
        intro hplace
        refine hconsumed j ?_ hplace (hi.claims.claimed t' j hjclaim)
        rintro rfl
        exact ht (hi.claims.single t' t j hjclaim hclaim)
      rw [hseq, if_neg hne]
      exact hi.slots.ready t' j hr
  case committed =>
    intro j hjopen hno
    rw [hsame.open_iff] at hjopen
    have hj : j ≠ idx := by
      rintro rfl
      exact hno t (by rw [hidx, hclaim])
    have hne : place cap j ≠ place cap idx := fun hplace => hconsumed j hj hplace hjopen
    rw [hseq, if_neg hne, hdata]
    exact hi.slots.committed j hjopen fun t' => by rw [← hidx]; exact hno t'
  case occupied =>
    intro i hne
    by_cases hplace : i = place cap idx
    · refine ⟨idx, hplace.symm, (hsame.open_iff idx).mpr hopen, fun t' hu => ?_⟩
      have ht : t' = t := hi.claims.single t' t idx
        (by rw [← hidx]; exact MpscProducer.idx?_of_unmarked hu) hclaim
      rw [hprod, if_pos ht] at hu
      rcases hu with hu | hu <;> cases hu
    · rw [hseq, if_neg hplace] at hne
      obtain ⟨j, hj, hjopen, hm⟩ := hi.slots.occupied i hne
      refine ⟨j, hj, (hsame.open_iff j).mpr hjopen, (hmarked j ?_).mpr hm⟩
      rintro rfl
      exact hplace hj.symm

/-- The store of an entry. -/
theorem Inv.write (hi : Inv cap log seen s) (hh : (s.producers t).Holds idx) (x : α) :
    Inv cap log seen ((s.storeData (place cap idx) x).goto t (.written idx x)) := by
  have hclaim := MpscProducer.idx?_of_holds hh
  have hidx : ∀ t', (((s.storeData (place cap idx) x).goto t (.written idx x)).producers t').idx?
      = (s.producers t').idx? :=
    idx?_goto (s := s.storeData _ _) (by rw [storeData_producers, hclaim]; rfl)
  have hsame : SameClaims s ((s.storeData (place cap idx) x).goto t (.written idx x)) :=
    ⟨rfl, rfl, rfl, hidx⟩
  have hmarked : ∀ j, ((s.storeData (place cap idx) x).goto t (.written idx x)).Marked j
      ↔ s.Marked j := by
    intro j
    refine marked_goto (s := s.storeData _ _) ?_
    rw [storeData_producers]
    rcases hh with hp | ⟨y, hp⟩ <;> simp [MpscProducer.Unmarked, hp]
  refine ⟨hsame.claims hi.claims, hi.ordered.of_marked rfl rfl hmarked,
    ⟨?held, ?data, ?ready, ?committed, ?occupied⟩, hsame.logs hi.logs⟩
  all_goals simp only [goto_slots, goto_producers, storeData_seq, storeData_data,
    storeData_producers, hsame.open_iff]
  case held =>
    intro t' j hj
    split at hj
    · rcases hj with hj | ⟨y, hj⟩ <;> cases hj
      exact hi.slots.held t idx hh
    · exact hi.slots.held t' j hj
  case data =>
    intro t' j y hw
    split at hw
    · cases hw
      rw [if_pos rfl]
    · rename_i ht
      rw [if_neg fun hplace => ht (hi.exclusive (Or.inr ⟨y, hw⟩) hh hplace)]
      exact hi.slots.data t' j y hw
  case ready =>
    intro t' j hr
    split at hr
    · cases hr
    · exact hi.slots.ready t' j hr
  case committed =>
    intro j hopen hno
    have hno' : ∀ t', (s.producers t').idx? ≠ some j := by
      intro t' ht'
      refine hno t' ?_
      rw [← ht', ← hidx t', goto_producers, storeData_producers]
    have hne : place cap j ≠ place cap idx := by
      intro hplace
      have hm : s.Marked j := fun t' hu => hno' t' (MpscProducer.idx?_of_unmarked hu)
      have := hi.ordered.unique hopen (hi.claims.claimed t idx hclaim) hm (hi.claims.marked hh)
        hplace
      exact hno' t (this ▸ hclaim)
    rw [if_neg hne]
    exact hi.slots.committed j hopen hno'
  case occupied =>
    intro i hne
    obtain ⟨j, hj, hopen, hm⟩ := hi.slots.occupied i hne
    exact ⟨j, hj, hopen, (hmarked j).mpr hm⟩

/-- The store of `commit`. -/
theorem Inv.commit (hi : Inv cap log seen s) (hp : s.producers t = .written idx x) :
    Inv cap (log ++ [(idx, x)]) seen
      ((s.storeSeq (place cap idx) (idx + 1)).goto t .idle) := by
  have hh : (s.producers t).Holds idx := Or.inr ⟨x, hp⟩
  have hclaim := MpscProducer.idx?_of_holds hh
  have hopen := hi.claims.claimed t idx hclaim
  have hmarked : ∀ j, ((s.storeSeq (place cap idx) (idx + 1)).goto t .idle).Marked j
      ↔ s.Marked j := fun j =>
    marked_goto (s := s.storeSeq _ _) (by simp [MpscProducer.Unmarked, hp])
  -- A producer that still has a claim had it before, and is not `t`.
  have hidx : ∀ t' j,
      (((s.storeSeq (place cap idx) (idx + 1)).goto t .idle).producers t').idx? = some j →
        t' ≠ t ∧ (s.producers t').idx? = some j := by
    intro t' j ht'
    rw [goto_producers] at ht'
    split at ht'
    · cases ht'
    · exact ⟨‹_›, ht'⟩
  refine ⟨⟨hi.claims.bound, hi.claims.cursor, hi.claims.behind,
      fun t' j ht' => hi.claims.claimed t' j (hidx t' j ht').2,
      fun t₁ t₂ j h₁ h₂ => hi.claims.single t₁ t₂ j (hidx t₁ j h₁).2 (hidx t₂ j h₂).2⟩,
    hi.ordered.of_marked rfl rfl hmarked, ⟨?held, ?data, ?ready, ?committed, ?occupied⟩,
    ⟨?popped, ?finished, ?once, hi.logs.seenOrder,
      fun p hp => List.mem_append_left _ (hi.logs.seenCommitted p hp)⟩⟩
  case held =>
    intro t' j hj
    obtain ⟨ht, hj'⟩ : t' ≠ t ∧ (s.producers t').Holds j := by
      rw [goto_producers] at hj
      split at hj
      · rcases hj with hj | ⟨y, hj⟩ <;> cases hj
      · exact ⟨‹_›, hj⟩
    rw [goto_slots, storeSeq_seq, if_neg fun hplace => ht (hi.exclusive hj' hh hplace)]
    exact hi.slots.held t' j hj'
  case data =>
    intro t' j y hw
    rw [goto_producers] at hw
    split at hw
    · cases hw
    · rw [goto_slots, storeSeq_data]
      exact hi.slots.data t' j y hw
  case ready =>
    intro t' j hr
    rw [goto_producers] at hr
    split at hr
    · cases hr
    · have hzero := hi.slots.ready t' j hr
      rw [goto_slots, storeSeq_seq, if_neg, hzero]
      intro hplace
      rw [hplace, hi.slots.held t idx hh] at hzero
      exact absurd hzero (by decide)
  case committed =>
    intro j hjopen hno
    rw [goto_slots, storeSeq_seq, storeSeq_data]
    by_cases hj : j = idx
    · subst hj
      rw [if_pos rfl, hi.slots.data t j x hp]
      exact ⟨rfl, by simp⟩
    · have hno' : ∀ t', (s.producers t').idx? ≠ some j := by
        intro t' ht'
        refine hno t' ?_
        rw [goto_producers, if_neg]
        · exact ht'
        · rintro rfl
          exact hj (Option.some.inj (ht'.symm.trans hclaim))
      have hne : place cap j ≠ place cap idx := by
        intro hplace
        have hm : s.Marked j := fun t' hu => hno' t' (MpscProducer.idx?_of_unmarked hu)
        exact hj (hi.ordered.unique hjopen hopen hm (hi.claims.marked hh) hplace)
      rw [if_neg hne]
      obtain ⟨hseq, hmem⟩ := hi.slots.committed j hjopen hno'
      exact ⟨hseq, List.mem_append_left _ hmem⟩
  case occupied =>
    intro i hne
    by_cases hplace : i = place cap idx
    · exact ⟨idx, hplace.symm, hopen, (hmarked idx).mpr (hi.claims.marked hh)⟩
    · rw [goto_slots, storeSeq_seq, if_neg hplace] at hne
      obtain ⟨j, hj, hjopen, hm⟩ := hi.slots.occupied i hne
      exact ⟨j, hj, hjopen, (hmarked j).mpr hm⟩
  case popped =>
    intro hc
    obtain ⟨hle, hno⟩ := hi.logs.popped hc
    exact ⟨hle, fun t' ht' => hno t' (hidx t' _ ht').2⟩
  case finished =>
    intro p hmem
    rcases List.mem_append.mp hmem with hmem | hmem
    · obtain ⟨hlt, hno⟩ := hi.logs.finished p hmem
      exact ⟨hlt, fun t' ht' => hno t' (hidx t' _ ht').2⟩
    · rw [List.mem_singleton] at hmem
      subst hmem
      refine ⟨hopen.2, fun t' ht' => ?_⟩
      obtain ⟨hne, ht'⟩ := hidx t' _ ht'
      exact hne (hi.claims.single t' t idx ht' hclaim)
  case once =>
    rw [List.map_append, List.nodup_append]
    refine ⟨hi.logs.once, by simp, ?_⟩
    intro a ha b hb
    simp only [List.map_cons, List.map_nil, List.mem_singleton] at hb
    subst hb
    rintro rfl
    obtain ⟨p, hmem, hfst⟩ := List.mem_map.mp ha
    exact (hi.logs.finished p hmem).2 t (hfst ▸ hclaim)

/-! ### The consumer -/

omit [DecidableEq τ] in
/-- A claim that is open and has no producer is the one the consumer sees at its slot. -/
theorem Inv.seq_eq (hi : Inv cap log seen s) (hle : s.readCursor.toNat ≤ s.claimIdx.toNat)
    (hno : ∀ t, (s.producers t).idx? ≠ some (s.readCursor - 1)) :
    (s.slots (readPlace cap s)).seq = s.readCursor ∧
      (s.readCursor - 1, (s.slots (readPlace cap s)).data) ∈ log := by
  have hcursor := hi.claims.cursor
  have hnat := toNat_cursor hi.claims
  have h := hi.slots.committed (s.readCursor - 1) ⟨by omega, by omega⟩ hno
  rw [UInt64.sub_add_cancel] at h
  exact h

omit [DecidableEq τ] in
/-- What the consumer sees at its slot is a committed claim. -/
theorem Inv.of_seq (hi : Inv cap log seen s)
    (hseq : (s.slots (readPlace cap s)).seq = s.readCursor) :
    s.readCursor.toNat ≤ s.claimIdx.toNat ∧
      ∀ t, (s.producers t).idx? ≠ some (s.readCursor - 1) := by
  have hcursor := hi.claims.cursor
  have hbound := hi.claims.bound
  obtain ⟨idx, hplace, hopen, hm⟩ := hi.slots.occupied (readPlace cap s) (by
    rw [hseq]
    rintro h0
    rw [h0] at hcursor
    exact hcursor rfl)
  -- Nobody holds the claim: the mark is no number the consumer waits for.
  have hno : ∀ t, (s.producers t).idx? ≠ some idx := by
    intro t ht
    rcases MpscProducer.unmarked_or_holds ht with hu | hh
    · exact hm t hu
    · have hmax := hi.slots.held t idx hh
      rw [hplace, hseq] at hmax
      have h1 := hopen.1
      have h2 := hopen.2
      rw [hmax] at h1
      change 2 ^ 64 - 1 ≤ idx.toNat + 1 at h1
      omega
  have hidx : s.readCursor = idx + 1 := by
    rw [← hseq, ← hplace]
    exact (hi.slots.committed idx hopen hno).1
  have hpred : s.readCursor - 1 = idx := by
    rw [hidx, UInt64.add_sub_cancel]
  have hsucc := toNat_succ hi.claims hopen
  have hlt := hopen.2
  rw [hpred, hidx]
  exact ⟨by omega, hno⟩

omit [DecidableEq τ] in
theorem Inv.tryPop (hi : Inv cap log seen s) (hc : s.consumer = .idle)
    (hseq : (s.slots (readPlace cap s)).seq = s.readCursor) :
    Inv cap log seen { s with consumer := .popped } := by
  have hpopped := hi.of_seq hseq
  obtain ⟨hclaims, hord, hslots, hlogs⟩ := hi
  refine ⟨⟨hclaims.bound, hclaims.cursor, hclaims.behind, hclaims.claimed, hclaims.single⟩, hord,
    ⟨hslots.held, hslots.data, hslots.ready, hslots.committed, hslots.occupied⟩,
    ⟨fun _ => hpopped, hlogs.finished, hlogs.once, ?_, hlogs.seenCommitted⟩⟩
  have hseen := hlogs.seenOrder
  rw [hc] at hseen
  exact hseen

omit [DecidableEq τ] in
theorem Inv.read (hi : Inv cap log seen s) (hc : s.consumer = .popped) :
    Inv cap log (seen ++ [(s.readCursor - 1, (s.slots (readPlace cap s)).data)])
      { s with consumer := .read } := by
  obtain ⟨hle, hno⟩ := hi.logs.popped (by rw [hc]; decide)
  have hmem := (hi.seq_eq hle hno).2
  have hnat := toNat_cursor hi.claims
  obtain ⟨hclaims, hord, hslots, hlogs⟩ := hi
  refine ⟨⟨hclaims.bound, hclaims.cursor, hclaims.behind, hclaims.claimed, hclaims.single⟩, hord,
    ⟨hslots.held, hslots.data, hslots.ready, hslots.committed, hslots.occupied⟩,
    ⟨fun _ => ⟨hle, hno⟩, hlogs.finished, hlogs.once, ?_, ?_⟩⟩
  · have hseen := hlogs.seenOrder
    rw [hc, if_neg (by decide), Nat.add_zero] at hseen
    rw [List.map_append, hseen, if_pos rfl, List.range_succ, List.map_cons, List.map_nil, hnat]
  · intro p hp
    rcases List.mem_append.mp hp with hp | hp
    · exact hlogs.seenCommitted p hp
    · rw [List.mem_singleton.mp hp]
      exact hmem

omit [DecidableEq τ] in
/-- The store of `consume` frees the slot for the claim that waits for it. -/
theorem Inv.consume (hi : Inv cap log seen s) (hc : s.consumer = .read) :
    Inv cap log seen { s.storeSeq (readPlace cap s) 0 with
      readCursor := s.readCursor + 1, consumer := .idle } := by
  obtain ⟨hle, hno⟩ := hi.logs.popped (by rw [hc]; decide)
  have hcursor := hi.claims.cursor
  have hbound := hi.claims.bound
  have hnat := toNat_cursor hi.claims
  have hnext : (s.readCursor + 1).toNat = s.readCursor.toNat + 1 := by
    rw [UInt64.toNat_add]
    exact Nat.mod_eq_of_lt (by change s.readCursor.toNat + 1 < 2 ^ 64; omega)
  have hopen : s.Open (s.readCursor - 1) := ⟨by omega, by omega⟩
  have hmarked : s.Marked (s.readCursor - 1) :=
    fun t hu => hno t (MpscProducer.idx?_of_unmarked hu)
  -- Another open claim stays open.
  have hstays : ∀ idx, s.Open idx → idx ≠ s.readCursor - 1 →
      s.readCursor.toNat + 1 ≤ idx.toNat + 1 ∧ idx.toNat < s.claimIdx.toNat := by
    intro idx hidx hne
    have hne' : idx.toNat ≠ (s.readCursor - 1).toNat := fun heq => hne (UInt64.toNat_inj.mp heq)
    have := hidx.1
    exact ⟨by omega, hidx.2⟩
  have hclaimed : ∀ t idx, (s.producers t).idx? = some idx → idx ≠ s.readCursor - 1 := by
    rintro t idx ht rfl
    exact hno t ht
  refine ⟨⟨hbound, ?_, ?_, fun t idx ht => ?_, hi.claims.single⟩, ?ordered,
    ⟨?held, ?data, ?ready, ?committed, ?occupied⟩,
    ⟨fun h => absurd rfl h, hi.logs.finished, hi.logs.once, ?seenOrder, hi.logs.seenCommitted⟩⟩
  · rw [hnext]
    omega
  · rw [hnext]
    exact Nat.succ_le_succ hle
  · rw [Open, hnext]
    exact hstays idx (hi.claims.claimed t idx ht) (hclaimed t idx ht)
  case ordered =>
    intro idx idx' hlt hlt' hplace
    obtain ⟨hm, hconsumed⟩ := hi.ordered idx idx' hlt hlt' hplace
    refine ⟨hm, fun hm' => ?_⟩
    rw [hnext]
    exact Nat.lt_succ_of_lt (hconsumed hm')
  case held =>
    intro t idx hh
    have hidx := MpscProducer.idx?_of_holds hh
    show ((s.storeSeq (readPlace cap s) 0).slots (place cap idx)).seq = _
    rw [storeSeq_seq, if_neg]
    · exact hi.slots.held t idx hh
    · intro hplace
      exact hclaimed t idx hidx (hi.ordered.unique (hi.claims.claimed t idx hidx) hopen
        (hi.claims.marked hh) hmarked hplace)
  case data =>
    intro t idx x hw
    show ((s.storeSeq (readPlace cap s) 0).slots (place cap idx)).data = _
    rw [storeSeq_data]
    exact hi.slots.data t idx x hw
  case ready =>
    intro t idx hr
    show ((s.storeSeq (readPlace cap s) 0).slots (place cap idx)).seq = _
    rw [storeSeq_seq]
    split
    · rfl
    · exact hi.slots.ready t idx hr
  case committed =>
    intro idx hidx hnone
    rw [Open, hnext] at hidx
    have hidx' : s.Open idx := ⟨Nat.le_of_succ_le hidx.1, hidx.2⟩
    show ((s.storeSeq (readPlace cap s) 0).slots (place cap idx)).seq = _ ∧
      (idx, ((s.storeSeq (readPlace cap s) 0).slots (place cap idx)).data) ∈ log
    rw [storeSeq_seq, storeSeq_data, if_neg]
    · exact hi.slots.committed idx hidx' hnone
    · intro hplace
      have heq := hi.ordered.unique hidx' hopen
        (fun t hu => hnone t (MpscProducer.idx?_of_unmarked hu)) hmarked hplace
      have h1 := hidx.1
      rw [heq] at h1
      omega
  case occupied =>
    intro i hne
    replace hne : ((s.storeSeq (readPlace cap s) 0).slots i).seq ≠ 0 := hne
    rw [storeSeq_seq] at hne
    split at hne
    · exact absurd rfl hne
    · rename_i hi'
      obtain ⟨idx, hplace, hidx, hm⟩ := hi.slots.occupied i hne
      refine ⟨idx, hplace, ?_, hm⟩
      rw [Open, hnext]
      refine hstays idx hidx ?_
      rintro rfl
      exact hi' hplace.symm
  case seenOrder =>
    have hseen := hi.logs.seenOrder
    rw [hc, if_pos rfl] at hseen
    change seen.map _ = List.range ((s.readCursor + 1).toNat - 1 + 0)
    rw [hseen, hnext]
    congr 1
    omega

end

/-! ### Runs -/

section
variable {h : List (MpscAction τ α × MpscEvent α)}

/-- The consumed claims were seen. -/
theorem Inv.seen_of_lt (hi : Inv cap (commits h) (seen h) s) {idx : UInt64}
    (hlt : idx.toNat + 1 < s.readCursor.toNat) : ∃ x, (idx, x) ∈ seen h := by
  have hmem : idx.toNat ∈ (seen h).map fun p => p.1.toNat := by
    rw [hi.logs.seenOrder, List.mem_range]
    omega
  obtain ⟨⟨j, x⟩, hp, hj⟩ := List.mem_map.mp hmem
  obtain rfl : j = idx := UInt64.toNat_inj.mp hj
  exact ⟨x, hp⟩

theorem Inv.init [Inhabited α] : Inv cap [] [] (MpscRing.init : MpscRing τ α) := by
  refine ⟨⟨show 0 + 1 < 2 ^ 64 by decide, show 1 ≠ 0 by decide, show 1 ≤ 0 + 1 by decide, ?_, ?_⟩,
    ?_, ⟨?_, ?_, ?_, ?_, ?_⟩,
    ⟨fun h => absurd rfl h, by simp, by simp, rfl, by simp⟩⟩
  · rintro t idx h
    cases h
  · rintro t t' idx h
    cases h
  · intro idx idx' _ hlt
    exact absurd hlt (Nat.not_lt_zero _)
  · rintro t idx (h | ⟨x, h⟩) <;> cases h
  · rintro t idx x h
    cases h
  · rintro t idx h
    cases h
  · intro idx hopen
    exact absurd hopen.2 (Nat.not_lt_zero _)
  · intro i h
    exact absurd rfl h

variable [DecidableEq τ]

/-- One step. -/
theorem Inv.step {a : MpscAction τ α} {o : MpscEvent α} (hi : Inv cap (commits h) (seen h) s)
    (hfree : ClaimsFree cap s a) (hstep : s.step cap a = some (s', o)) :
    Inv cap (commits (h ++ [(a, o)])) (seen (h ++ [(a, o)])) s' := by
  have hlog : commits (h ++ [(a, o)]) = commits h ++ (match o with
      | .committed idx y => [(idx, y)]
      | _ => []) := by
    cases o <;> simp [commits]
  have hseen : seen (h ++ [(a, o)]) = seen h ++ (match o with
      | .saw idx y => [(idx, y)]
      | _ => []) := by
    cases o <;> simp [seen]
  rw [hlog, hseen]
  cases a with
  | claim t =>
      simp only [MpscRing.step] at hstep
      split at hstep
      · rename_i hp
        obtain ⟨rfl, rfl⟩ := Prod.mk.inj (Option.some.inj hstep)
        rw [List.append_nil, List.append_nil]
        exact hi.claim hp hfree
      · cases hstep
  | load t =>
      simp only [MpscRing.step] at hstep
      split at hstep
      · rename_i idx hp
        split at hstep
        · obtain ⟨rfl, rfl⟩ := Prod.mk.inj (Option.some.inj hstep)
          rw [List.append_nil, List.append_nil]
          exact hi
        · rename_i hzero
          obtain ⟨rfl, rfl⟩ := Prod.mk.inj (Option.some.inj hstep)
          rw [List.append_nil, List.append_nil]
          exact hi.load hp (not_not.mp hzero)
      · cases hstep
  | mark t =>
      simp only [MpscRing.step] at hstep
      split at hstep
      · rename_i idx hp
        obtain ⟨rfl, rfl⟩ := Prod.mk.inj (Option.some.inj hstep)
        rw [List.append_nil, List.append_nil]
        exact hi.mark hp
      · cases hstep
  | write t x =>
      simp only [MpscRing.step] at hstep
      split at hstep
      · rename_i idx hp
        obtain ⟨rfl, rfl⟩ := Prod.mk.inj (Option.some.inj hstep)
        rw [List.append_nil, List.append_nil]
        exact hi.write (Or.inl hp) x
      · rename_i idx y hp
        obtain ⟨rfl, rfl⟩ := Prod.mk.inj (Option.some.inj hstep)
        rw [List.append_nil, List.append_nil]
        exact hi.write (Or.inr ⟨y, hp⟩) x
      · cases hstep
  | commit t =>
      simp only [MpscRing.step] at hstep
      split at hstep
      · rename_i idx x hp
        obtain ⟨rfl, rfl⟩ := Prod.mk.inj (Option.some.inj hstep)
        rw [List.append_nil]
        exact hi.commit hp
      · cases hstep
  | tryPop =>
      simp only [MpscRing.step] at hstep
      split at hstep
      · rename_i hc
        split at hstep
        · obtain ⟨rfl, rfl⟩ := Prod.mk.inj (Option.some.inj hstep)
          rw [List.append_nil, List.append_nil]
          exact hi
        · rename_i hseq
          obtain ⟨rfl, rfl⟩ := Prod.mk.inj (Option.some.inj hstep)
          rw [List.append_nil, List.append_nil]
          exact hi.tryPop hc (not_not.mp hseq)
      · cases hstep
  | read =>
      simp only [MpscRing.step] at hstep
      split at hstep
      · rename_i hc
        obtain ⟨rfl, rfl⟩ := Prod.mk.inj (Option.some.inj hstep)
        rw [List.append_nil]
        exact hi.read hc
      · cases hstep
  | consume =>
      simp only [MpscRing.step] at hstep
      split at hstep
      · rename_i hc
        obtain ⟨rfl, rfl⟩ := Prod.mk.inj (Option.some.inj hstep)
        rw [List.append_nil, List.append_nil]
        exact hi.consume hc
      · cases hstep

/-- The consumer's own steps: its round from where it is to the next `tryPop`. -/
def Round (cap : Nat) (h : List (MpscAction τ α × MpscEvent α)) (s : MpscRing τ α) : Prop :=
  ∃ acts os s', (∀ a ∈ acts, a.OfConsumer) ∧ run (step cap) s acts = some (s', os) ∧
    s'.readCursor = s.readCursor + 1 ∧
    Inv cap (commits (h ++ acts.zip os)) (seen (h ++ acts.zip os)) s'

/-- A step of the consumer and the round after it. -/
theorem Round.cons {a : MpscAction τ α} {o : MpscEvent α} (ha : a.OfConsumer)
    (hstep : s.step cap a = some (s', o)) (hr : s'.readCursor = s.readCursor)
    (hround : Round cap (h ++ [(a, o)]) s') : Round cap h s := by
  obtain ⟨acts, os, s₂, hacts, hrun, hcursor, hi⟩ := hround
  refine ⟨a :: acts, o :: os, s₂, ?_, ?_, hcursor.trans (by rw [hr]), ?_⟩
  · intro b hb
    rcases List.mem_cons.mp hb with rfl | hb
    · exact ha
    · exact hacts b hb
  · rw [run_cons, hstep, Option.bind_some, runNext_mk, hrun]
    rfl
  · rw [List.append_assoc] at hi
    exact hi

/-- The last step of the round. -/
theorem Inv.round_read (hi : Inv cap (commits h) (seen h) s) (hc : s.consumer = .read) :
    Round cap h s := by
  have hstep : s.step cap .consume = some ({ s.storeSeq (readPlace cap s) 0 with
      readCursor := s.readCursor + 1, consumer := .idle }, .silent) := by
    simp only [MpscRing.step, hc]
  exact ⟨[.consume], [.silent], _, by simp [MpscAction.OfConsumer], by simp [run, hstep], rfl,
    hi.step trivial hstep⟩

/-- The last two steps. -/
theorem Inv.round_popped (hi : Inv cap (commits h) (seen h) s) (hc : s.consumer = .popped) :
    Round cap h s := by
  have hstep : s.step cap .read = some ({ s with consumer := .read },
      .saw (s.readCursor - 1) (s.slots (readPlace cap s)).data) := by
    simp only [MpscRing.step, hc]
  exact Round.cons (show MpscAction.OfConsumer .read from trivial) hstep rfl
    (Inv.round_read (hi.step trivial hstep) rfl)

/-- The consumer comes to the end of its round, if the claim it waits for is committed. -/
theorem Inv.round (hi : Inv cap (commits h) (seen h) s) {x : α}
    (hmem : (s.readCursor - 1, x) ∈ commits h) : Round cap h s := by
  cases hc : s.consumer with
  | idle =>
      obtain ⟨hlt, hno⟩ := hi.logs.finished _ hmem
      have hcursor := hi.claims.cursor
      rw [toNat_cursor hi.claims] at hlt
      have hseq := (hi.seq_eq (by omega) hno).1
      have hstep : s.step cap .tryPop = some ({ s with consumer := .popped }, .silent) := by
        simp only [MpscRing.step, hc, hseq, ne_eq, not_true_eq_false, if_false]
      exact Round.cons (show MpscAction.OfConsumer .tryPop from trivial) hstep rfl
        (Inv.round_popped (hi.step trivial hstep) rfl)
  | popped => exact hi.round_popped hc
  | read => exact hi.round_read hc

/-- The consumer alone takes claim `i`, once the claims up to it are committed. -/
theorem Inv.takes (hi : Inv cap (commits h) (seen h) s) {i : UInt64}
    (hall : ∀ k : UInt64, k.toNat ≤ i.toNat → ∃ x, (k, x) ∈ commits h) :
    ∃ acts os s', (∀ a ∈ acts, a.OfConsumer) ∧ run (MpscRing.step cap) s acts = some (s', os) ∧
      ∃ x, (i, x) ∈ seen (h ++ acts.zip os) := by
  obtain ⟨n, hn⟩ : ∃ n, i.toNat + 2 ≤ s.readCursor.toNat + n := ⟨i.toNat + 2, by omega⟩
  induction n generalizing h s with
  | zero => exact ⟨[], [], s, by simp, rfl, by simpa using hi.seen_of_lt (by omega)⟩
  | succ n ih =>
      by_cases hdone : i.toNat + 1 < s.readCursor.toNat
      · exact ⟨[], [], s, by simp, rfl, by simpa using hi.seen_of_lt hdone⟩
      · have hcursor := hi.claims.cursor
        have hnat := toNat_cursor hi.claims
        obtain ⟨x, hmem⟩ := hall (s.readCursor - 1) (by omega)
        have hlt : (s.readCursor - 1).toNat < s.claimIdx.toNat := (hi.logs.finished _ hmem).1
        have hbound := hi.claims.bound
        obtain ⟨acts, os, s₁, hacts, hrun, hnext, hi₁⟩ := hi.round hmem
        have hnext' : s₁.readCursor.toNat = s.readCursor.toNat + 1 := by
          rw [hnext, UInt64.toNat_add]
          exact Nat.mod_eq_of_lt (by change s.readCursor.toNat + 1 < 2 ^ 64; omega)
        obtain ⟨acts', os', s₂, hacts', hrun', y, hy⟩ := ih hi₁ (fun k hk => by
          obtain ⟨z, hz⟩ := hall k hk
          exact ⟨z, by rw [commits, List.filterMap_append]; exact List.mem_append_left _ hz⟩)
          (by omega)
        have hlen : acts.length = os.length :=
          (Trace.of_run (Q := fun _ => True) (fun _ _ => trivial) hrun).1.symm
        refine ⟨acts ++ acts', os ++ os', s₂, ?_, ?_, y, ?_⟩
        · intro a ha
          rcases List.mem_append.mp ha with ha | ha
          · exact hacts a ha
          · exact hacts' a ha
        · rw [run_append, hrun, Option.bind_some, hrun']
          rfl
        · rw [List.zip_append hlen, ← List.append_assoc]
          exact hy

/-- **The ring delivers the committed entries in claim order.** In every run in which a slot is
claimed only when its earlier claims are marked, no two producers hold a slot at once, the consumer
sees the claims 0, 1, 2, … with what their producers wrote, no claim is committed twice, and the
consumer can take a claim as soon as it and the ones before it are committed. -/
theorem delivers_in_claim_order [Inhabited α]
    (t : Trace (step cap) (fun _ s a => ClaimsFree cap s a) (init : MpscRing τ α) h s) :
    (∀ t t' idx idx', (s.producers t).Holds idx → (s.producers t').Holds idx' →
      place cap idx = place cap idx' → t = t') ∧
    (seen h).map (fun p => p.1.toNat) = List.range (seen h).length ∧
    (∀ p ∈ seen h, p ∈ commits h) ∧ ((commits h).map Prod.fst).Nodup ∧
    ∀ i : UInt64, (∀ k : UInt64, k.toNat ≤ i.toNat → ∃ x, (k, x) ∈ commits h) →
      ∃ acts os s', (∀ a ∈ acts, a.OfConsumer) ∧ run (step cap) s acts = some (s', os) ∧
        ∃ x, (i, x) ∈ seen (h ++ acts.zip os) := by
  have hi : Inv cap (commits h) (seen h) s := by
    refine t.invariant (fun h s => Inv cap (commits h) (seen h) s) Inv.init ?_
    intro h s a s' o _ hi hfree hstep
    exact hi.step hfree hstep
  refine ⟨fun t t' idx idx' h h' hplace => hi.exclusive h h' hplace, ?_, hi.logs.seenCommitted,
    hi.logs.once, fun i hall => hi.takes hall⟩
  have hlen := congrArg List.length hi.logs.seenOrder
  rw [List.length_map, List.length_range] at hlen
  rw [hi.logs.seenOrder, hlen]

end

/-- Two producers and two slots. The second claim is committed first, and the consumer finds
nothing; then it sees both, in the order of the claims, and a third entry in the slot of the
first. -/
theorem delivers_in_claim_order_two :
    ∃ h s, Trace (step 2) (fun _ s a => ClaimsFree 2 s a) (init : MpscRing Bool Nat) h s ∧
      commits h = [(1, 43), (0, 42), (2, 44)] ∧ seen h = [(0, 42), (1, 43), (2, 44)] ∧
      (seen h).map (fun p => p.1.toNat) = List.range (seen h).length ∧
      (∀ p ∈ seen h, p ∈ commits h) ∧ ((commits h).map Prod.fst).Nodup := by
  let acts : List (MpscAction Bool Nat) := [.claim false, .claim true, .load true, .mark true,
    .write true 43, .load false, .commit true, .tryPop, .mark false, .write false 42,
    .commit false, .tryPop, .read, .consume, .claim false, .tryPop, .load false, .read,
    .mark false, .consume, .write false 44, .commit false, .tryPop, .read]
  have hrun : (checked (fun _ s a => ClaimsFree 2 s a) (step 2) [] (init : MpscRing Bool Nat)
      acts).map (fun r => (commits r.2, seen r.2)) =
      some ([(1, 43), (0, 42), (2, 44)], [(0, 42), (1, 43), (2, 44)]) := by decide +kernel
  obtain ⟨⟨s, h⟩, hrun, hlogs⟩ := Option.map_eq_some_iff.mp hrun
  obtain ⟨hcommits, hseen⟩ := Prod.mk.inj hlogs
  have t := Trace.of_checked .nil hrun
  obtain ⟨-, horder, hmem, honce, -⟩ := delivers_in_claim_order t
  exact ⟨h, s, t, hcommits, hseen, horder, hmem, honce⟩

/-- With one slot, two producers that both look before either marks hold it at the same time. -/
theorem two_hold_one_slot :
    ∃ s os, run (step 1) (init : MpscRing Bool Nat) [.claim false, .claim true, .load false,
        .load true, .mark false, .mark true] = some (s, os) ∧
      (s.producers false).Holds 0 ∧ (s.producers true).Holds 1 ∧ place 1 0 = place 1 1 :=
  ⟨_, _, rfl, Or.inl rfl, Or.inl rfl, rfl⟩

end MpscRing

end NebulaX
