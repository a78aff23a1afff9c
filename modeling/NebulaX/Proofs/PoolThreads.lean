import NebulaX.Engine.PoolThreads
import NebulaX.Lib.Places
import NebulaX.Lib.Trace
import NebulaX.Proofs.FreeStack
import Mathlib.Algebra.BigOperators.Group.Finset.Basic
import Mathlib.Data.Fintype.Basic

/-!
# `NebulaX.Proofs.PoolThreads`: a slot has one owner

Over every run of the threads, each slot of the pool is at one place: on the free list, held by the
program, or in the hands of one thread that takes it or gives it back. The invariant gives the
places by a function, so a slot cannot be at two of them, and the free list by the slots it visits.
`FreeStack` says what each thread knows of the list, and `Places` what it is to be at one place.

A slot is counted in `size_` some steps after it was taken, and until some steps after it was given
back. `total` are the slots that are counted and not held.

`run_allocate` and `run_deallocate` are the calls that nobody disturbs: they are those of
`OrderPool`.
-/

set_option autoImplicit false

namespace NebulaX

open NebulaX.Lib

/-- Where a slot can be. -/
inductive PoolPlace (τ : Type) where
  | free
  | held
  | thread (t : τ)

namespace PoolThread

/-- The slot that is in the hands of a thread. -/
def owns : PoolThread → Option UInt32
  | .stack pc => pc.owns
  | .counting idx => some idx
  | _ => none

@[simp] theorem owns_idle : owns .idle = none := rfl
@[simp] theorem owns_stack (pc : StackPc) : owns (.stack pc) = pc.owns := rfl
@[simp] theorem owns_counting (idx : UInt32) : owns (.counting idx) = some idx := rfl
@[simp] theorem owns_uncounting : owns .uncounting = none := rfl

/-- What a thread adds to `size_` and does not hold. -/
def weight : PoolThread → Nat
  | .stack pc => if pc.owns.isSome then 1 else 0
  | .uncounting => 1
  | _ => 0

end PoolThread

namespace PoolThreads

variable {τ : Type} {s s' : PoolThreads τ}

/-- The exchanges that succeeded since `t` loaded the head. -/
def since [DecidableEq τ] (t : τ) (h : List (PoolAction τ × PoolEvent τ)) : Nat :=
  swingsSince (fun x => x.2 = .loaded t || x.2 = .returnedNull t)
    (fun x => x.2 matches .swung _) h

/-- No thread is between its load of the head and its exchange while `2 ^ 32` exchanges succeed. -/
def InTime [DecidableEq τ] (h : List (PoolAction τ × PoolEvent τ)) (s : PoolThreads τ) :
    PoolAction τ → Prop
  | .next t _ => ∀ pc, s.threads t = .stack pc → since t h < 2 ^ 32
  | _ => True

/-- A slot is owned: it is held, or a thread has it. -/
def Owned (s : PoolThreads τ) (x : UInt32) : Prop :=
  x ∈ s.held ∨ ∃ t, (s.threads t).owns = some x

/-! ### Places -/

/-- The slot `x` is at a place. -/
def At (free : List UInt32) (s : PoolThreads τ) : PoolPlace τ → UInt32 → Prop
  | .free, x => x ∈ free
  | .held, x => x ∈ s.held
  | .thread t, x => (s.threads t).owns = some x

section
variable [DecidableEq τ]

@[simp] theorem goto_threads (t t' : τ) (p : PoolThread) :
    (s.goto t p).threads t' = if t' = t then p else s.threads t' := by
  by_cases h : t' = t
  · subst h
    simp [goto]
  · simp [goto, h]

@[simp] theorem goto_pool (t : τ) (p : PoolThread) : (s.goto t p).pool = s.pool := rfl

@[simp] theorem goto_held (t : τ) (p : PoolThread) : (s.goto t p).held = s.held := rfl

end

/-- Every slot below the capacity is at the place `place` says, and no other. -/
abbrev Placed (place : UInt32 → PoolPlace τ) (free : List UInt32) (s : PoolThreads τ) : Prop :=
  Lib.Placed (fun x => x.toNat < s.pool.capacity) (At free s) place

section
variable {place : UInt32 → PoolPlace τ} {free free' : List UInt32} {t : τ} {p : PoolThread}

/-- A slot goes to another place by a step of `t`. -/
theorem Placed.moveBy (hp : Placed place free s) {x : UInt32} {k₀ : PoolPlace τ}
    (hx : x.toNat < s.pool.capacity) (hcap : s'.pool.capacity = s.pool.capacity)
    (hfree : ∀ y, y ∈ free' ↔ if y = x then .free = k₀ else y ∈ free)
    (hheld : ∀ y, y ∈ s'.held ↔ if y = x then .held = k₀ else y ∈ s.held)
    (hown : ∀ y, (s'.threads t).owns = some y ↔
      if y = x then .thread t = k₀ else (s.threads t).owns = some y)
    (hthreads : ∀ t', t' ≠ t → s'.threads t' = s.threads t')
    (hnot : ∀ t', t' ≠ t → place x ≠ .thread t' ∧ k₀ ≠ .thread t') :
    Placed (Function.update place x k₀) free' s' := by
  rw [Placed, hcap]
  refine hp.move hx fun k y => ?_
  cases k with
  | free => exact hfree y
  | held => exact hheld y
  | thread t' =>
      by_cases ht : t' = t
      · subst ht
        exact hown y
      · simp only [At, hthreads t' ht]
        split
        · rename_i hy
          subst hy
          refine ⟨fun h => absurd ((hp (.thread t') y).mp h).2 (hnot t' ht).1, fun h => ?_⟩
          exact absurd h.symm (hnot t' ht).2
        · rfl

/-- A thread goes on with the slot it has. -/
theorem Placed.goto [DecidableEq τ] (hp : Placed place free s)
    (hown : p.owns = (s.threads t).owns) : Placed place free (s.goto t p) := by
  intro k x
  refine Iff.trans ?_ (hp k x)
  cases k with
  | free => rfl
  | held => rfl
  | thread t' =>
      by_cases ht : t' = t
      · subst ht
        simp [At, hown]
      · simp [At, ht]

theorem Placed.mem_free_iff (hp : Placed place free s) (x : UInt32) :
    x ∈ free ↔ x.toNat < s.pool.capacity ∧ ¬ s.Owned x := by
  constructor
  · intro hx
    refine ⟨((hp .free x).mp hx).1, ?_⟩
    rintro (hh | ⟨t, ht⟩)
    · cases hp.unique .free .held hx hh
    · cases hp.unique .free (.thread t) hx ht
  · rintro ⟨hlt, hno⟩
    cases hk : place x with
    | free => exact (hp .free x).mpr ⟨hlt, hk⟩
    | held => exact absurd (Or.inl ((hp .held x).mpr ⟨hlt, hk⟩)) hno
    | thread t => exact absurd (Or.inr ⟨t, (hp (.thread t) x).mpr ⟨hlt, hk⟩⟩) hno

end

/-! ### The invariant -/

/-- The slots that are counted in `size_` and not held. -/
def total [Fintype τ] (s : PoolThreads τ) : Nat := ∑ t, (s.threads t).weight

/-- The pool after the run `h`, with the slots at their places. -/
structure Inv [DecidableEq τ] [Fintype τ] (place : UInt32 → PoolPlace τ) (free : List UInt32)
    (h : List (PoolAction τ × PoolEvent τ)) (s : PoolThreads τ) : Prop where
  chain : Chain s.pool.link uint32Max s.pool.freeHead.idx free
  placed : Placed place free s
  nodup : s.held.Nodup
  tracks : ∀ t pc, s.threads t = .stack pc →
    pc.Tracks s.pool.freeHead s.pool.link (since t h)
  size : s.pool.size = UInt64.ofNat (s.held.length + s.total)
  capacity : s.pool.capacity < 2 ^ 32

variable {place : UInt32 → PoolPlace τ} {free : List UInt32}
variable {h : List (PoolAction τ × PoolEvent τ)} {a : PoolAction τ} {o : PoolEvent τ}
variable {t t' : τ} {p : PoolThread} {pc pc' : StackPc} {idx next : UInt32} {head : TaggedIdx}

section
variable [DecidableEq τ]

/-- A thread and the others. -/
theorem forall_goto {P : τ → StackPc → Prop} (hown : ∀ pc, p = .stack pc → P t pc)
    (hother : ∀ t' pc, t' ≠ t → s.threads t' = .stack pc → P t' pc) :
    ∀ t' pc, (s.goto t p).threads t' = .stack pc → P t' pc := by
  intro t' pc hpc
  rw [goto_threads] at hpc
  split at hpc
  · rename_i ht
    subst ht
    exact hown pc hpc
  · rename_i ht
    exact hother t' pc ht hpc

theorem since_loaded : since t (h ++ [(a, .loaded t)]) = 0 := by
  simp [since, swingsSince_snoc]

theorem since_swung : since t' (h ++ [(a, .swung t)]) = since t' h + 1 := by
  simp [since, swingsSince_snoc]

/-- A step of `t` that is not an exchange. -/
def Quiet (t : τ) (o : PoolEvent τ) : Prop :=
  o = .silent ∨ o = .loaded t ∨ o = .returnedNull t ∨ (∃ idx, o = .returned t idx) ∨ o = .done t

theorem Quiet.since (ho : Quiet t o) (ht : t' ≠ t) : since t' (h ++ [(a, o)]) = since t' h := by
  rcases ho with rfl | rfl | rfl | ⟨idx, rfl⟩ | rfl <;>
    simp [PoolThreads.since, swingsSince_snoc, Ne.symm ht]

theorem since_silent : since t (h ++ [(a, .silent)]) = since t h := by
  simp [since, swingsSince_snoc]

/-- A call of `allocate` that nobody disturbs is the `allocate` of `OrderPool`. -/
theorem run_allocate (hidle : s.threads t = .idle) (hne : s.pool.freeHead.idx ≠ uint32Max) :
    (run step s [.allocate t, .next t false, .next t false, .next t false]).map Prod.fst
      = some { s with pool := s.pool.allocate.2, held := s.pool.freeHead.idx :: s.held } := by
  have hback : Function.update s.threads t .idle = s.threads := by
    rw [← hidle, Function.update_eq_self]
  simp [run, step, hidle, StackPc.pop?, hne, goto, StackPc.move, perform, OrderPool.allocate,
    OrderPool.link, hback]

/-- A call of `deallocate` that nobody disturbs is the `deallocate` of `OrderPool`. -/
theorem run_deallocate (hidle : s.threads t = .idle) (hidx : idx ∈ s.held) :
    (run step s [.deallocate t idx, .next t false, .next t false, .next t false]).map Prod.fst
      = some { s with pool := s.pool.deallocate idx, held := s.held.erase idx } := by
  have hback : Function.update s.threads t .idle = s.threads := by
    rw [← hidle, Function.update_eq_self]
  simp [run, step, hidle, hidx, StackPc.push, goto, StackPc.move, perform, OrderPool.deallocate,
    OrderPool.setLink, OrderPool.modify, hback]

theorem capacity_step (hstep : s.step a = some (s', o)) :
    s'.pool.capacity = s.pool.capacity := by
  cases a with
  | allocate t =>
      simp only [PoolThreads.step] at hstep
      split at hstep
      · split at hstep <;> cases hstep <;> rfl
      · cases hstep
  | deallocate t idx =>
      simp only [PoolThreads.step] at hstep
      split at hstep
      · split at hstep <;> cases hstep
        rfl
      · cases hstep
  | next t spurious =>
      simp only [PoolThreads.step] at hstep
      split at hstep
      · cases hstep
      · rename_i pc _
        cases hm : pc.move s.pool.freeHead s.pool.link spurious <;> rw [hm] at hstep <;>
          cases hstep <;> rfl
      · cases hstep
        rfl
      · cases hstep
        rfl
  | write idx o =>
      simp only [PoolThreads.step] at hstep
      split at hstep <;> cases hstep
      rfl

/-- `nullptr` is returned in the step that finds the stack empty. -/
theorem head_of_returnedNull (hstep : s.step a = some (s', .returnedNull t)) :
    s.pool.freeHead.idx = uint32Max := by
  cases a with
  | allocate t =>
      simp only [PoolThreads.step] at hstep
      split at hstep
      · split at hstep
        · rename_i hpop
          exact StackPc.pop?_eq_none hpop
        · cases hstep
      · cases hstep
  | deallocate t idx =>
      simp only [PoolThreads.step] at hstep
      split at hstep
      · split at hstep <;> cases hstep
      · cases hstep
  | next t spurious =>
      simp only [PoolThreads.step] at hstep
      split at hstep
      · cases hstep
      · rename_i pc _
        have hmoves := StackPc.moves_move s.pool.freeHead s.pool.link pc spurious
        cases hm : pc.move s.pool.freeHead s.pool.link spurious <;> rw [hm] at hstep hmoves <;>
          cases hstep
        exact (StackPc.Moves.findsNone hmoves).1
      · cases hstep
      · cases hstep
  | write idx o =>
      simp only [PoolThreads.step] at hstep
      split at hstep <;> cases hstep

end

section
variable [Fintype τ] [DecidableEq τ]

theorem total_goto (s : PoolThreads τ) (t : τ) (p : PoolThread) :
    (s.goto t p).total + (s.threads t).weight = s.total + p.weight := by
  have hnew := Finset.add_sum_erase Finset.univ (fun t' => ((s.goto t p).threads t').weight)
    (Finset.mem_univ t)
  have hold := Finset.add_sum_erase Finset.univ (fun t' => (s.threads t').weight)
    (Finset.mem_univ t)
  have hrest : ∑ t' ∈ Finset.univ.erase t, ((s.goto t p).threads t').weight
      = ∑ t' ∈ Finset.univ.erase t, (s.threads t').weight := by
    refine Finset.sum_congr rfl fun t' ht' => ?_
    rw [goto_threads, if_neg (Finset.ne_of_mem_erase ht')]
  simp only [goto_threads, if_pos] at hnew
  simp only [goto_threads] at hrest
  rw [total, total]
  simp only [goto_threads]
  omega

/-- A slot is not `UINT32_MAX`. -/
theorem Inv.ne_nil (hi : Inv place free h s) {x : UInt32} (hx : x.toNat < s.pool.capacity) :
    x ≠ uint32Max := by
  rintro rfl
  have hcap := hi.capacity
  have hmax : uint32Max.toNat = 2 ^ 32 - 1 := rfl
  omega

/-- A slot in the hands of a thread is a slot, and not on the free list. -/
theorem Inv.owned (hi : Inv place free h s) (ht : (s.threads t).owns = some idx) :
    idx.toNat < s.pool.capacity ∧ idx ∉ free := by
  refine ⟨((hi.placed (.thread t) idx).mp ht).1, fun hf => ?_⟩
  cases hi.placed.unique (.thread t) .free ht hf

/-- A step of `t` in a pool that may have been written: what is left to show is about the slots,
about what the threads know, and about the count. -/
theorem Inv.moves (hi : Inv place free h s) (s₁ : PoolThreads τ) (hsame : s₁.threads = s.threads)
    {place' : UInt32 → PoolPlace τ} {free' : List UInt32}
    (hchain : Chain s₁.pool.link uint32Max s₁.pool.freeHead.idx free')
    (hplaced : Placed place' free' (s₁.goto t p)) (hnodup : s₁.held.Nodup)
    (hcap : s₁.pool.capacity = s.pool.capacity)
    (hown : ∀ pc, p = .stack pc →
      pc.Tracks s₁.pool.freeHead s₁.pool.link (since t (h ++ [(a, o)])))
    (hothers : ∀ t' pc, t' ≠ t → s.threads t' = .stack pc →
      pc.Tracks s₁.pool.freeHead s₁.pool.link (since t' (h ++ [(a, o)])))
    (hsize : ∀ n, n + (s.threads t).weight = s.total + p.weight →
      s₁.pool.size = UInt64.ofNat (s₁.held.length + n)) :
    Inv place' free' (h ++ [(a, o)]) (s₁.goto t p) where
  chain := hchain
  placed := hplaced
  nodup := hnodup
  tracks := forall_goto hown fun t' pc ht hpc => hothers t' pc ht (hsame ▸ hpc)
  size := by
    have htotal := total_goto s₁ t p
    rw [hsame, show s₁.total = s.total by rw [total, total, hsame]] at htotal
    exact hsize _ htotal
  capacity := hcap ▸ hi.capacity

/-! ### Steps that move no slot -/

/-- A thread goes on with the slot it has. -/
theorem Inv.goto (hi : Inv place free h s) (ho : Quiet t o) (hown : p.owns = (s.threads t).owns)
    (hweight : p.weight = (s.threads t).weight)
    (hp : ∀ pc, p = .stack pc →
      pc.Tracks s.pool.freeHead s.pool.link (since t (h ++ [(a, o)]))) :
    Inv place free (h ++ [(a, o)]) (s.goto t p) := by
  refine hi.moves s rfl hi.chain (hi.placed.goto hown) hi.nodup rfl hp ?_ ?_
  · intro t' pc ht hpc
    rw [ho.since ht]
    exact hi.tracks t' pc hpc
  · intro n hn
    rw [hweight] at hn
    rw [Nat.add_right_cancel hn, hi.size]

/-- A write to a slot that is not on the free list keeps the list. -/
theorem Inv.chain_modify (hi : Inv place free h s) {f : Order → Order} (hidx : idx ∉ free) :
    Chain (s.pool.modify idx f).link uint32Max s.pool.freeHead.idx free := by
  refine hi.chain.congr fun x hx => ?_
  have hne : x ≠ idx := fun heq => hidx (heq ▸ hx)
  simp [OrderPool.link, OrderPool.modify, hne]

/-- What a thread that does not have the slot knows stays true. -/
theorem Inv.tracks_modify (hi : Inv place free h s) {f : Order → Order} (hidx : idx ∉ free)
    (hpc : s.threads t = .stack pc) (hown : pc.owns ≠ some idx) :
    pc.Tracks s.pool.freeHead (s.pool.modify idx f).link (since t h) := by
  refine (hi.tracks t pc hpc).write hi.chain hidx hown fun j hj => ?_
  simp [OrderPool.link, OrderPool.modify, hj]

/-- A held slot is written. -/
theorem Inv.writeHeld (hi : Inv place free h s) (hidx : idx ∈ s.held) (f : Order → Order) :
    Inv place free (h ++ [(a, .silent)]) { s with pool := s.pool.modify idx f } where
  chain := hi.chain_modify fun hf => by
    cases hi.placed.unique .held .free hidx hf
  placed := fun k x => by
    refine Iff.trans ?_ (hi.placed k x)
    cases k <;> rfl
  nodup := hi.nodup
  tracks := by
    intro t pc hpc
    rw [since_silent]
    refine hi.tracks_modify (fun hf => ?_) hpc fun hown => ?_
    · cases hi.placed.unique .held .free hidx hf
    · have hthread : (s.threads t).owns = some idx := by rw [hpc]; exact hown
      cases hi.placed.unique .held (.thread t) hidx hthread
  size := hi.size
  capacity := hi.capacity

/-- A thread stores the link of the slot it brings back. -/
theorem Inv.links (hi : Inv place free h s) (hpc : s.threads t = .stack pc)
    (hm : StackPc.Moves s.pool.freeHead s.pool.link pc (.links idx next pc')) :
    Inv place free (h ++ [(a, .silent)])
      ({ s with pool := s.pool.setLink idx next }.goto t (.stack pc')) := by
  have hlink : (s.pool.setLink idx next).link idx = next := by
    simp [OrderPool.setLink, OrderPool.link, OrderPool.modify]
  obtain ⟨htracks, hpcOwns, hown⟩ := (hi.tracks t pc hpc).links hm hlink
  have hthread : (s.threads t).owns = some idx := by rw [hpc]; exact hpcOwns
  have hidx := (hi.owned hthread).2
  refine hi.moves { s with pool := s.pool.setLink idx next } rfl
    (hi.chain_modify (f := fun o => { o with poolNextFree := next }) hidx) ?_ hi.nodup rfl ?_ ?_ ?_
  · intro k x
    refine Iff.trans ?_ (hi.placed k x)
    refine Iff.trans (b := At free (s.goto t (.stack pc')) k x) ?_ ?_
    · cases k <;> rfl
    · refine (hi.placed.goto ?_ k x).trans (hi.placed k x).symm
      rw [hthread]
      exact hown
  · rintro _ ⟨⟩
    rw [since_silent]
    exact htracks
  · intro t' pc₁ ht hpc₁
    rw [since_silent]
    refine hi.tracks_modify (f := fun o => { o with poolNextFree := next }) hidx hpc₁
      fun hown₁ => ?_
    have hthread₁ : (s.threads t').owns = some idx := by
      rw [hpc₁]
      exact hown₁
    cases hi.placed.unique (.thread t) (.thread t') hthread hthread₁
    exact ht rfl
  · intro n hn
    rw [hpc] at hn
    simp only [PoolThread.weight, hown, hpcOwns] at hn
    rw [Nat.add_right_cancel hn]
    exact hi.size

/-! ### Steps that move a slot -/

/-- A thread takes a slot. -/
theorem Inv.pops (hi : Inv place free h s) (hpc : s.threads t = .stack pc)
    (htime : since t h < 2 ^ 32)
    (hm : StackPc.Moves s.pool.freeHead s.pool.link pc (.pops idx head)) :
    ∃ place' free', Inv place' free' (h ++ [(a, .swung t)])
      ({ s with pool := { s.pool with freeHead := head } }.goto t (.counting idx)) := by
  obtain ⟨hown, next, rest, rfl, rfl, hrest⟩ := (hi.tracks t pc hpc).pops htime hi.chain hm
  have hidle : (s.threads t).owns = none := by rw [hpc]; exact hown
  have hlt : idx.toNat < s.pool.capacity :=
    ((hi.placed .free idx).mp List.mem_cons_self).1
  have hnotin : idx ∉ rest := (List.nodup_cons.mp hi.chain.nodup).1
  have hplace : place idx = .free := ((hi.placed .free idx).mp List.mem_cons_self).2
  have hno : idx ∉ s.held := fun hh => by
    cases hi.placed.unique .held .free hh List.mem_cons_self
  refine ⟨Function.update place idx (.thread t), rest,
    hi.moves { s with pool := { s.pool with freeHead := s.pool.freeHead.swing next } } rfl hrest ?_
      hi.nodup rfl nofun ?_ ?_⟩
  · refine hi.placed.moveBy (t := t) hlt rfl ?_ ?_ ?_ ?_ ?_
    · intro y
      by_cases hy : y = idx <;> simp [hy, hnotin]
    · intro y
      by_cases hy : y = idx <;> simp [hy, hno]
    · intro y
      by_cases hy : y = idx
      · simp [hy]
      · simp [hy, Ne.symm hy, hidle]
    · exact fun t' ht => by simp [ht]
    · exact fun t' ht => ⟨by simp [hplace], fun heq => ht (by cases heq; rfl)⟩
  · intro t' pc₁ _ hpc₁
    rw [since_swung]
    exact (hi.tracks t' pc₁ hpc₁).swing next
  · intro n hn
    rw [hpc] at hn
    simp only [PoolThread.weight, hown] at hn
    rw [show n = s.total from hn]
    exact hi.size

/-- A thread gives a slot back. -/
theorem Inv.pushes (hi : Inv place free h s) (hpc : s.threads t = .stack pc)
    (hm : StackPc.Moves s.pool.freeHead s.pool.link pc (.pushes idx head)) :
    ∃ place' free', Inv place' free' (h ++ [(a, .swung t)])
      ({ s with pool := { s.pool with freeHead := head } }.goto t .uncounting) := by
  have hpcOwns : pc.owns = some idx := by
    obtain ⟨rfl, -⟩ := hm
    rfl
  have hthread : (s.threads t).owns = some idx := by rw [hpc]; exact hpcOwns
  obtain ⟨hlt, hnotin⟩ := hi.owned hthread
  obtain ⟨-, rfl, hchain⟩ := (hi.tracks t pc hpc).pushes hi.chain hm (hi.ne_nil hlt)
  have hplace : place idx = .thread t := ((hi.placed (.thread t) idx).mp hthread).2
  have hno : idx ∉ s.held := fun hh => by
    cases hi.placed.unique .held (.thread t) hh hthread
  refine ⟨Function.update place idx .free, idx :: free,
    hi.moves { s with pool := { s.pool with freeHead := s.pool.freeHead.swing idx } } rfl hchain ?_
      hi.nodup rfl nofun ?_ ?_⟩
  · refine hi.placed.moveBy (t := t) hlt rfl ?_ ?_ ?_ ?_ ?_
    · intro y
      by_cases hy : y = idx <;> simp [hy]
    · intro y
      by_cases hy : y = idx <;> simp [hy, hno]
    · intro y
      by_cases hy : y = idx
      · simp [hy]
      · simp [hy, Ne.symm hy, hthread]
    · exact fun t' ht => by simp [ht]
    · exact fun t' ht => ⟨by simp [hplace, Ne.symm ht], nofun⟩
  · intro t' pc₁ _ hpc₁
    rw [since_swung]
    exact (hi.tracks t' pc₁ hpc₁).swing idx
  · intro n hn
    rw [hpc] at hn
    simp only [PoolThread.weight, hpcOwns] at hn
    rw [Nat.add_right_cancel (show n + 1 = s.total + 1 from hn)]
    exact hi.size

/-- `allocate` returns a slot. -/
theorem Inv.returns (hi : Inv place free h s) (hpc : s.threads t = .counting idx) :
    ∃ place', Inv place' free (h ++ [(a, .returned t idx)])
      ({ s with
        pool := { s.pool with size := s.pool.size + 1 }
        held := idx :: s.held }.goto t .idle) := by
  have hthread : (s.threads t).owns = some idx := by rw [hpc]; rfl
  obtain ⟨hlt, hnotin⟩ := hi.owned hthread
  have hno : idx ∉ s.held := fun hh => by
    cases hi.placed.unique .held (.thread t) hh hthread
  have hplace : place idx = .thread t := ((hi.placed (.thread t) idx).mp hthread).2
  refine ⟨Function.update place idx .held, hi.moves { s with
    pool := { s.pool with size := s.pool.size + 1 }
    held := idx :: s.held } rfl hi.chain ?_ (List.nodup_cons.mpr ⟨hno, hi.nodup⟩) rfl nofun ?_ ?_⟩
  · refine hi.placed.moveBy (t := t) hlt rfl ?_ ?_ ?_ ?_ ?_
    · intro y
      by_cases hy : y = idx <;> simp [hy, hnotin]
    · intro y
      by_cases hy : y = idx <;> simp [hy]
    · intro y
      by_cases hy : y = idx
      · simp [hy]
      · simp [hy, Ne.symm hy, hthread]
    · exact fun t' ht => by simp [ht]
    · exact fun t' ht => ⟨by simp [hplace, Ne.symm ht], nofun⟩
  · intro t' pc₁ ht hpc₁
    rw [Quiet.since (Or.inr (Or.inr (Or.inr (Or.inl ⟨idx, rfl⟩)))) ht]
    exact hi.tracks t' pc₁ hpc₁
  · intro n hn
    rw [hpc] at hn
    change s.pool.size + 1 = UInt64.ofNat (s.held.length + 1 + n)
    rw [show n = s.total from hn, hi.size, Nat.add_right_comm, UInt64.ofNat_add _ 1]
    rfl

/-- `deallocate` returns. -/
theorem Inv.done (hi : Inv place free h s) (hpc : s.threads t = .uncounting) :
    Inv place free (h ++ [(a, .done t)])
      ({ s with pool := { s.pool with size := s.pool.size - 1 } }.goto t .idle) := by
  have hidle : (s.threads t).owns = none := by rw [hpc]; rfl
  refine hi.moves { s with pool := { s.pool with size := s.pool.size - 1 } } rfl hi.chain ?_
    hi.nodup rfl nofun ?_ ?_
  · intro k x
    refine Iff.trans ?_ (hi.placed.goto (p := .idle) hidle.symm k x)
    cases k <;> rfl
  · intro t' pc₁ ht hpc₁
    rw [Quiet.since (Or.inr (Or.inr (Or.inr (Or.inr rfl)))) ht]
    exact hi.tracks t' pc₁ hpc₁
  · intro n hn
    rw [hpc] at hn
    change s.pool.size - 1 = UInt64.ofNat (s.held.length + n)
    rw [hi.size, ← show n + 1 = s.total from hn, ← Nat.add_assoc, UInt64.ofNat_add _ 1]
    exact UInt64.add_sub_cancel _ _

/-- `deallocate` is called. -/
theorem Inv.deallocate (hi : Inv place free h s) (hpc : s.threads t = .idle)
    (hidx : idx ∈ s.held) :
    ∃ place', Inv place' free (h ++ [(a, .loaded t)])
      ({ s with held := s.held.erase idx }.goto t (.stack (StackPc.push idx s.pool.freeHead))) := by
  have hidle : (s.threads t).owns = none := by rw [hpc]; rfl
  obtain ⟨hlt, hplace⟩ := (hi.placed .held idx).mp hidx
  have hnotin : idx ∉ free := fun hf => by
    cases hi.placed.unique .held .free hidx hf
  obtain ⟨htracks, hown⟩ := StackPc.tracks_push idx s.pool.freeHead s.pool.link
  refine ⟨Function.update place idx (.thread t), hi.moves { s with held := s.held.erase idx } rfl
    hi.chain ?_ (hi.nodup.erase idx) rfl ?_ ?_ ?_⟩
  · refine hi.placed.moveBy (t := t) hlt rfl ?_ ?_ ?_ ?_ ?_
    · intro y
      by_cases hy : y = idx <;> simp [hy, hnotin]
    · intro y
      by_cases hy : y = idx <;> simp [hy, hi.nodup.mem_erase_iff]
    · intro y
      by_cases hy : y = idx
      · simp [hy, hown]
      · simp [hy, Ne.symm hy, hidle, hown]
    · exact fun t' ht => by simp [ht]
    · exact fun t' ht => ⟨by simp [hplace], fun heq => ht (by cases heq; rfl)⟩
  · rintro _ ⟨⟩
    rw [since_loaded]
    exact htracks
  · intro t' pc₁ ht hpc₁
    rw [Quiet.since (Or.inr (Or.inl rfl)) ht]
    exact hi.tracks t' pc₁ hpc₁
  · intro n hn
    have hlen := List.length_erase_of_mem hidx
    have hpos := List.length_pos_of_mem hidx
    rw [hpc] at hn
    change n = s.total + 1 at hn
    change s.pool.size = UInt64.ofNat ((s.held.erase idx).length + n)
    rw [hi.size]
    congr 1
    omega

/-! ### Runs -/

/-- A move on the stack. -/
theorem Inv.perform {m : StackMove} (hi : Inv place free h s) (hpc : s.threads t = .stack pc)
    (htime : since t h < 2 ^ 32) (hm : StackPc.Moves s.pool.freeHead s.pool.link pc m)
    (hstep : s.perform t m = (s', o)) : ∃ place' free', Inv place' free' (h ++ [(a, o)]) s' := by
  cases m with
  | reads pc' =>
      cases hstep
      obtain ⟨htracks, hown⟩ := (hi.tracks t pc hpc).reads hm
      refine ⟨place, free, hi.goto (Or.inl rfl) ?_ ?_ ?_⟩
      · rw [hpc]
        exact hown
      · rw [hpc]
        simp [PoolThread.weight, hown]
      · rintro _ ⟨⟩
        rw [since_silent]
        exact htracks
  | links idx next pc' =>
      cases hstep
      exact ⟨place, free, hi.links hpc hm⟩
  | retries pc' =>
      cases hstep
      obtain ⟨htracks, hown⟩ := StackPc.Moves.retries hm
      refine ⟨place, free, hi.goto (Or.inr (Or.inl rfl)) ?_ ?_ ?_⟩
      · rw [hpc]
        exact hown
      · rw [hpc]
        simp [PoolThread.weight, hown]
      · rintro _ ⟨⟩
        rw [since_loaded]
        exact htracks
  | findsNone =>
      cases hstep
      obtain ⟨-, hown⟩ := StackPc.Moves.findsNone hm
      refine ⟨place, free, hi.goto (Or.inr (Or.inr (Or.inl rfl))) ?_ ?_ nofun⟩
      · rw [hpc]
        exact hown.symm
      · rw [hpc]
        simp [PoolThread.weight, hown]
  | pops idx head =>
      cases hstep
      exact hi.pops hpc htime hm
  | pushes idx head =>
      cases hstep
      exact hi.pushes hpc hm

theorem Inv.step (hi : Inv place free h s) (htime : InTime h s a)
    (hstep : s.step a = some (s', o)) : ∃ place' free', Inv place' free' (h ++ [(a, o)]) s' := by
  cases a with
  | allocate t =>
      simp only [PoolThreads.step] at hstep
      split at hstep
      · rename_i hpc
        split at hstep
        · cases hstep
          have hself : s.goto t .idle = s := by
            rw [← hpc, PoolThreads.goto, Function.update_eq_self]
          refine ⟨place, free, hself ▸ hi.goto (Or.inr (Or.inr (Or.inl rfl))) ?_ ?_ nofun⟩
          · rw [hpc]
          · rw [hpc]
        · rename_i pc hpop
          cases hstep
          obtain ⟨htracks, hown⟩ := StackPc.tracks_pop? s.pool.link hpop
          refine ⟨place, free, hi.goto (Or.inr (Or.inl rfl)) ?_ ?_ ?_⟩
          · rw [hpc]
            exact hown
          · rw [hpc]
            simp [PoolThread.weight, hown]
          · rintro _ ⟨⟩
            rw [since_loaded]
            exact htracks
      · cases hstep
  | deallocate t idx =>
      simp only [PoolThreads.step] at hstep
      split at hstep
      · rename_i hpc
        split at hstep
        · rename_i hidx
          cases hstep
          obtain ⟨place', hi'⟩ := hi.deallocate hpc hidx
          exact ⟨place', free, hi'⟩
        · cases hstep
      · cases hstep
  | next t spurious =>
      simp only [PoolThreads.step] at hstep
      split at hstep
      · cases hstep
      · rename_i pc hpc
        exact hi.perform hpc (htime pc hpc) (StackPc.moves_move _ _ pc spurious)
          (Option.some.inj hstep)
      · rename_i idx hpc
        cases hstep
        obtain ⟨place', hi'⟩ := hi.returns hpc
        exact ⟨place', free, hi'⟩
      · rename_i hpc
        cases hstep
        exact ⟨place, free, hi.done hpc⟩
  | write idx o =>
      simp only [PoolThreads.step] at hstep
      split at hstep
      · rename_i hidx
        cases hstep
        exact ⟨place, free, hi.writeHeld hidx _⟩
      · cases hstep

/-- The free list that `initFreeList` makes. -/
theorem Inv.start {p : OrderPool} (hpos : 0 < p.capacity) (hcap : p.capacity < 2 ^ 32) :
    Inv (fun _ => .free) ((List.range' 0 p.capacity).map UInt32.ofNat) []
      (start p.initFreeList : PoolThreads τ) := by
  have htoNat : ∀ i, i < p.capacity → (UInt32.ofNat i).toNat = i := fun i hlt =>
    UInt32.toNat_ofNat_of_lt' (hlt.trans hcap)
  constructor
  case chain =>
    refine Chain.of_range' UInt32.ofNat p.capacity 0 ?_ ?_ ?_ hpos
    · intro i _ hlt
      have hi : i < p.capacity := by omega
      have hnext : i + 1 < p.capacity := by omega
      change (if (UInt32.ofNat i).toNat < p.capacity then _ else _ : Order).poolNextFree = _
      rw [htoNat i hi, if_pos hi]
      simp only [hnext, if_true]
      exact (UInt32.ofNat_add i 1).symm
    · intro _
      have hlast : 0 + p.capacity - 1 < p.capacity := by omega
      have hnone : ¬ 0 + p.capacity - 1 + 1 < p.capacity := by omega
      change (if (UInt32.ofNat _).toNat < p.capacity then _ else _ : Order).poolNextFree = _
      rw [htoNat _ hlast, if_pos hlast]
      simp only [hnone, if_false]
    · intro i hlt heq
      have hnat := congrArg UInt32.toNat heq
      rw [htoNat i (by omega)] at hnat
      have hmax : uint32Max.toNat = 2 ^ 32 - 1 := rfl
      omega
  case placed =>
    intro k x
    cases k with
    | free =>
        simp only [At, List.mem_map, List.mem_range'_1, and_true]
        constructor
        · rintro ⟨i, hi, rfl⟩
          rw [htoNat i (by omega)]
          change i < p.capacity
          omega
        · intro hx
          change x.toNat < p.capacity at hx
          exact ⟨x.toNat, ⟨Nat.zero_le _, by omega⟩, UInt32.ofNat_toNat⟩
    | held | thread t => simp [At, PoolThreads.start]
  case nodup => exact List.nodup_nil
  case tracks => nofun
  case size => simp [total, PoolThreads.start, PoolThread.weight, OrderPool.initFreeList,
      OrderPool.chainFree]
  case capacity => exact hcap

/-- The program holds no more slots than there are. -/
theorem Inv.length_held_le (hi : Inv place free h s) : s.held.length ≤ s.pool.capacity := by
  have hnodup : (s.held.map UInt32.toNat).Nodup :=
    hi.nodup.map fun a b h => UInt32.toNat_inj.mp h
  have hsub : s.held.map UInt32.toNat ⊆ List.range s.pool.capacity := by
    intro n hn
    obtain ⟨x, hx, rfl⟩ := List.mem_map.mp hn
    exact List.mem_range.mpr ((hi.placed .held x).mp hx).1
  have hlen := (hnodup.subperm hsub).length_le
  rwa [List.length_map, List.length_range] at hlen

/-- **A slot has one owner.** In every run in which no thread is between its load of the head and
its exchange while `2 ^ 32` exchanges succeed, the free list is a chain of exactly the slots that
nobody owns, no slot is owned twice, `allocate` returns `nullptr` only when all slots are owned, and
when no call is under way `size_` is the number of owned slots. -/
theorem slot_has_one_owner {p : OrderPool} (hpos : 0 < p.capacity) (hcap : p.capacity < 2 ^ 32)
    (t : Trace PoolThreads.step InTime (PoolThreads.start p.initFreeList : PoolThreads τ) h s) :
    (∃ free, Chain s.pool.link uint32Max s.pool.freeHead.idx free ∧ free.Nodup ∧
      ∀ x, x ∈ free ↔ x.toNat < p.capacity ∧ ¬ s.Owned x) ∧
    (∀ x, s.Owned x → x.toNat < p.capacity) ∧
    (s.held.Nodup ∧ (∀ t x, (s.threads t).owns = some x → x ∉ s.held) ∧
      ∀ t t' x, (s.threads t).owns = some x → (s.threads t').owns = some x → t = t') ∧
    (∀ a s' t, s.step a = some (s', .returnedNull t) →
      ∀ x : UInt32, x.toNat < p.capacity → s.Owned x) ∧
    ((∀ t, s.threads t = .idle) →
      s.pool.size.toNat = s.held.length ∧ ∀ x, s.Owned x ↔ x ∈ s.held) := by
  obtain ⟨hcapacity, place, free, hi⟩ :
      s.pool.capacity = p.capacity ∧ ∃ place free, Inv place free h s := by
    refine Trace.invariant (fun h (s : PoolThreads τ) =>
      s.pool.capacity = p.capacity ∧ ∃ place free, Inv place free h s) ?_ ?_ t
    · exact ⟨rfl, _, _, Inv.start hpos hcap⟩
    · rintro h s a s' o - ⟨hcapacity, place, free, hi⟩ htime hstep
      exact ⟨(capacity_step hstep).trans hcapacity, hi.step htime hstep⟩
  rw [← hcapacity]
  have hfree := hi.placed.mem_free_iff
  refine ⟨⟨free, hi.chain, hi.chain.nodup, hfree⟩, ?_, ⟨hi.nodup, ?_, ?_⟩, ?_, ?_⟩
  · rintro x (hx | ⟨t, ht⟩)
    · exact ((hi.placed .held x).mp hx).1
    · exact (hi.owned ht).1
  · intro t x ht hx
    cases hi.placed.unique (.thread t) .held ht hx
  · intro t t' x ht ht'
    cases hi.placed.unique (.thread t) (.thread t') ht ht'
    rfl
  · intro a s' t hstep x hx
    -- the list is empty, so no slot is without an owner
    have hchain := hi.chain
    rw [head_of_returnedNull hstep] at hchain
    have hempty := hchain.eq_nil_of_head
    by_contra hno
    have hmem := (hfree x).mpr ⟨hx, hno⟩
    rw [hempty] at hmem
    cases hmem
  · intro hidle
    have htotal : s.total = 0 := by
      simp [total, hidle, PoolThread.weight]
    constructor
    · have hle := hi.length_held_le
      have hcap' := hi.capacity
      rw [hi.size, htotal, Nat.add_zero, UInt64.toNat_ofNat_of_lt' (by change _ < 2 ^ 64; omega)]
    · intro x
      refine ⟨?_, Or.inl⟩
      rintro (hx | ⟨t, ht⟩)
      · exact hx
      · rw [hidle t] at ht
        cases ht

end

/-- Two threads and two slots: one thread has taken a slot, and the other one is about to. -/
theorem slot_has_one_owner_two :
    ∃ (h : List (PoolAction Bool × PoolEvent Bool)) (s : PoolThreads Bool),
      Trace step InTime (start (OrderPool.initFreeList
        { storage := fun _ => {}, capacity := 2, freeHead := ⟨0, 0⟩, size := 0 })) h s ∧
      s.held = [0] ∧ s.threads true = .stack (.popSwap ⟨1, 1⟩ uint32Max) ∧
      (∃ free, Chain s.pool.link uint32Max s.pool.freeHead.idx free ∧ free.Nodup ∧
        ∀ x, x ∈ free ↔ x.toNat < 2 ∧ ¬ s.Owned x) ∧
      (∀ x, s.Owned x → x.toNat < 2) ∧
      (s.held.Nodup ∧ (∀ t x, (s.threads t).owns = some x → x ∉ s.held) ∧
        ∀ t t' x, (s.threads t).owns = some x → (s.threads t').owns = some x → t = t') ∧
      (∀ a s' t, s.step a = some (s', .returnedNull t) →
        ∀ x : UInt32, x.toNat < 2 → s.Owned x) ∧
      ((∀ t, s.threads t = .idle) →
        s.pool.size.toNat = s.held.length ∧ ∀ x, s.Owned x ↔ x ∈ s.held) := by
  have t₁ : Trace step InTime (start (OrderPool.initFreeList
      { storage := fun _ => {}, capacity := 2, freeHead := ⟨0, 0⟩, size := 0 }) :
      PoolThreads Bool) _ _ := Trace.nil.snoc (show InTime _ _ (.allocate false) from trivial) rfl
  have t₂ := t₁.snoc (show InTime _ _ (.next false false) from fun _ _ => by decide) rfl
  have t₃ := t₂.snoc (show InTime _ _ (.next false false) from fun _ _ => by decide) rfl
  have t₄ := t₃.snoc (show InTime _ _ (.next false false) from fun _ _ => by decide) rfl
  have t₅ := t₄.snoc (show InTime _ _ (.allocate true) from trivial) rfl
  have t₆ := t₅.snoc (show InTime _ _ (.next true false) from fun _ _ => by decide) rfl
  exact ⟨_, _, t₆, rfl, rfl, slot_has_one_owner (by decide) (by decide) t₆⟩

end PoolThreads

end NebulaX
