import NebulaX.Engine.BookThreads
import NebulaX.Lib.Places
import NebulaX.Lib.Trace

/-!
# `NebulaX.Proofs.BookThreads`: one book for each locate

Every address is at one place: in the table, with a thread between `new` and the compare-exchange or
`delete`, or nothing lives there. A step of a thread takes one address to another place at most
(`Moves`), and none is taken out of the table. So a pointer that was given out stays good.
-/

set_option autoImplicit false

namespace NebulaX

open NebulaX.Lib

namespace BookCall

/-- The book a thread has made and not published. -/
def made? : BookCall → Option Nat
  | .exchange _ nb => some nb
  | .discard _ nb => some nb
  | _ => none

/-- The locate of a call that goes on, and whether it has seen that there is a book. -/
def asks? : BookCall → Option (UInt64 × Bool)
  | .idle => none
  | .load locate => some (locate, false)
  | .make locate => some (locate, false)
  | .exchange locate _ => some (locate, false)
  | .discard locate _ => some (locate, true)
  | .reload locate => some (locate, true)

end BookCall

/-- Where an address is. -/
inductive BookPlace (τ : Type) where
  /-- Nothing lives there. -/
  | nowhere
  /-- It stands in `books_`. -/
  | table (locate : UInt64)
  /-- A thread has made the book and not published it. -/
  | thread (t : τ)

namespace BookThreads

variable {τ : Type} {s s' : BookThreads τ} {t : τ} {place : Nat → BookPlace τ}
variable {h : List (BookAction τ × BookEvent τ)} {a : BookAction τ} {o : BookEvent τ}

/-- What was written to a book last. -/
def written (h : List (BookAction τ × BookEvent τ)) (book : Nat) : BookLevels :=
  h.foldl (fun levels x => match x.1 with
    | .write b levels' => if b = book then levels' else levels
    | _ => levels) {}

/-- A book was given out. -/
def Given (h : List (BookAction τ × BookEvent τ)) (locate : UInt64) (book : Option Nat) : Prop :=
  ∃ a t, (a, BookEvent.returned t locate book) ∈ h

/-- Only books that were given out are written. -/
def Owning (h : List (BookAction τ × BookEvent τ)) (_ : BookThreads τ) : BookAction τ → Prop
  | .write book _ => ∃ locate, Given h locate (some book)
  | _ => True

/-- The address is at the place. -/
def At (s : BookThreads τ) : BookPlace τ → Nat → Prop
  | .nowhere, b => s.heap b = none
  | .table l, b => s.books l = some b
  | .thread t, b => (s.calls t).made? = some b

/-- What `book_for(l)` may return. -/
def Answers (s : BookThreads τ) (l : UInt64) (b : Option Nat) : Prop :=
  if MatchingEngine.kMaxLocate ≤ l then b = none else b ≠ none ∧ s.books l = b

/-- What a call that goes on may have seen. -/
def Asks (s : BookThreads τ) (c : BookCall) : Prop :=
  ∀ l seen, c.asks? = some (l, seen) → l < MatchingEngine.kMaxLocate ∧
    (seen = true → s.books l ≠ none)

/-- The books after the run `h`. -/
structure Inv (place : Nat → BookPlace τ) (h : List (BookAction τ × BookEvent τ))
    (s : BookThreads τ) : Prop where
  placed : Placed (fun _ => True) s.At place
  live : ∀ b levels, s.heap b = some levels → levels = written h b
  /-- Only what was given out is written. -/
  fresh : ∀ b, (∀ l, place b ≠ .table l) → written h b = {}
  range : ∀ l b, s.books l = some b → l < MatchingEngine.kMaxLocate
  asks : ∀ t, Asks s (s.calls t)
  given : ∀ l b, Given h l b → Answers s l b

theorem Inv.start : Inv (fun _ => .nowhere) [] (BookThreads.start : BookThreads τ) where
  placed k b := by cases k <;> simp [At, BookThreads.start, BookCall.made?]
  live := nofun
  fresh _ _ := rfl
  range := nofun
  asks := nofun
  given := by
    rintro l b ⟨a, t, hmem⟩
    cases hmem

section
variable {book : Nat} {locate : UInt64}

theorem written_snoc (ha : ∀ levels, a ≠ .write book levels) :
    written (h ++ [(a, o)]) book = written h book := by
  rw [written, List.foldl_append, ← written]
  cases a with
  | write b levels =>
      have hne : b ≠ book := by
        rintro rfl
        exact ha levels rfl
      simp [hne]
  | _ => rfl

theorem given_silent {b : Option Nat} :
    Given (h ++ [(a, .silent)]) locate b ↔ Given h locate b := by
  simp [Given]

theorem given_returned {l : UInt64} {b b' : Option Nat} :
    Given (h ++ [(a, .returned t l b')]) locate b → Given h locate b ∨ (locate = l ∧ b = b') := by
  simp only [Given, List.mem_append, List.mem_singleton, Prod.mk.injEq, BookEvent.returned.injEq]
  rintro ⟨a', t', hmem | ⟨-, -, rfl, rfl⟩⟩
  · exact Or.inl ⟨a', t', hmem⟩
  · exact Or.inr ⟨rfl, rfl⟩

/-- A book that lives is at another place than an address where nothing does. -/
theorem Inv.book_live (hi : Inv place h s) {b : Nat} (hb : s.books locate = some b) :
    s.heap b = some (written h b) := by
  cases hheap : s.heap b with
  | none => cases hi.placed.unique .nowhere (.table locate) hheap hb
  | some levels => rw [hi.live b levels hheap]

/-- A thread's own book is empty, and it is not in the table. -/
theorem Inv.made_fresh (hi : Inv place h s) {b : Nat} (hb : (s.calls t).made? = some b) :
    s.heap b = some {} ∧ ∀ l, place b ≠ .table l := by
  have hplace : place b = .thread t := ((hi.placed (.thread t) b).mp hb).2
  have hnot : ∀ l, place b ≠ .table l := by
    intro l hl
    rw [hplace] at hl
    cases hl
  refine ⟨?_, hnot⟩
  cases hheap : s.heap b with
  | none => cases hi.placed.unique .nowhere (.thread t) hheap hb
  | some levels => rw [hi.live b levels hheap, hi.fresh b hnot]

end

/-! ### Steps -/

section
variable {locate : UInt64} {nb addr : Nat}

@[simp] theorem alloc_heap (s : BookThreads τ) (addr b : Nat) :
    (s.alloc addr).heap b = if b = addr then some {} else s.heap b := Function.update_apply ..

@[simp] theorem free_heap (s : BookThreads τ) (addr b : Nat) :
    (s.free addr).heap b = if b = addr then none else s.heap b := Function.update_apply ..

@[simp] theorem publish_books (s : BookThreads τ) (locate l : UInt64) (b : Nat) :
    (s.publish locate b).books l = if l = locate then some b else s.books l :=
  Function.update_apply ..

/-- The action writes no book. -/
def NoWrite : BookAction τ → Prop
  | .write .. => False
  | _ => True

theorem written_of_noWrite (ha : NoWrite a) (book : Nat) :
    written (h ++ [(a, o)]) book = written h book := by
  refine written_snoc fun levels heq => ?_
  subst heq
  exact ha

/-- One address that is not in the table goes to the place `k`. -/
theorem Inv.move (hi : Inv place h s) {b : Nat} {k : BookPlace τ} (ha : NoWrite a)
    (hold : ∀ l, place b ≠ .table l)
    (hplaced : Placed (fun _ => True) s'.At (Function.update place b k))
    (hheap : ∀ b', b' ≠ b → s'.heap b' = s.heap b')
    (hempty : ∀ levels, s'.heap b = some levels → levels = {})
    (hrange : ∀ l b', s'.books l = some b' → l < MatchingEngine.kMaxLocate)
    (hasks : ∀ t, Asks s' (s'.calls t))
    (hgiven : ∀ l b, Given (h ++ [(a, o)]) l b → Answers s' l b) :
    Inv (Function.update place b k) (h ++ [(a, o)]) s' where
  placed := hplaced
  live b' levels hlevels := by
    rw [written_of_noWrite ha]
    by_cases hb : b' = b
    · rw [hb] at hlevels ⊢
      rw [hempty levels hlevels, hi.fresh b hold]
    · exact hi.live b' levels ((hheap b' hb).symm.trans hlevels)
  fresh b' hb' := by
    rw [written_of_noWrite ha]
    by_cases hb : b' = b
    · rw [hb]
      exact hi.fresh b hold
    · refine hi.fresh b' fun l hl => hb' l ?_
      rw [Function.update_of_ne hb, hl]
  range := hrange
  asks := hasks
  given := hgiven

variable [DecidableEq τ]

@[simp] theorem goto_calls (s : BookThreads τ) (t t' : τ) (c : BookCall) :
    (s.goto t c).calls t' = if t' = t then c else s.calls t' := Function.update_apply ..

/-- What a step of a thread can do. -/
inductive Moves (s : BookThreads τ) (t : τ) : BookThreads τ → BookEvent τ → Prop
  /-- It goes on and leaves the books alone. -/
  | passes {c : BookCall} (hmade : c.made? = (s.calls t).made?) (hasks : Asks s c) :
      Moves s t (s.goto t c) .silent
  | returns {l : UInt64} {b : Option Nat} (hmade : (s.calls t).made? = none)
      (hanswers : Answers s l b) : Moves s t (s.goto t .idle) (.returned t l b)
  | makes {l : UInt64} {addr : Nat} (hmade : (s.calls t).made? = none)
      (hl : l < MatchingEngine.kMaxLocate) (hfree : s.heap addr = none) :
      Moves s t ((s.alloc addr).goto t (.exchange l addr)) .silent
  | publishes {l : UInt64} {nb : Nat} (hmade : (s.calls t).made? = some nb)
      (hl : l < MatchingEngine.kMaxLocate) (hnone : s.books l = none) :
      Moves s t ((s.publish l nb).goto t .idle) (.returned t l (some nb))
  | discards {l : UInt64} {nb : Nat} (hmade : (s.calls t).made? = some nb)
      (hasks : Asks s (.reload l)) : Moves s t ((s.free nb).goto t (.reload l)) .silent

/-- The next access of a call. -/
theorem Inv.callStep (hi : Inv place h s) (hstep : s.callStep t addr = some (s', o)) :
    Moves s t s' o := by
  have hasks := hi.asks t
  have hanswers : ∀ {l b}, l < MatchingEngine.kMaxLocate → s.books l = some b →
      Answers s l (some b) := by
    intro l b hl hb
    rw [Answers, if_neg (UInt64.not_le.mpr hl)]
    exact ⟨nofun, hb⟩
  simp only [BookThreads.callStep] at hstep
  cases hc : s.calls t with
  | idle => rw [hc] at hstep; cases hstep
  | load l =>
      rw [hc] at hstep hasks
      cases hb : s.books l with
      | some b =>
          simp only [hb, finish, Option.some.injEq, Prod.mk.injEq] at hstep
          obtain ⟨rfl, rfl⟩ := hstep
          exact .returns (by rw [hc]; rfl) (hanswers (hasks l false rfl).1 hb)
      | none =>
          simp only [hb, Option.some.injEq, Prod.mk.injEq] at hstep
          obtain ⟨rfl, rfl⟩ := hstep
          exact .passes (by rw [hc]; rfl) hasks
  | make l =>
      rw [hc] at hstep hasks
      cases hb : s.heap addr with
      | some levels => simp only [hb, reduceCtorEq] at hstep
      | none =>
          simp only [hb, Option.some.injEq, Prod.mk.injEq] at hstep
          obtain ⟨rfl, rfl⟩ := hstep
          exact .makes (by rw [hc]; rfl) (hasks l false rfl).1 hb
  | exchange l nb =>
      rw [hc] at hstep hasks
      cases hb : s.books l with
      | some b =>
          simp only [hb, Option.some.injEq, Prod.mk.injEq] at hstep
          obtain ⟨rfl, rfl⟩ := hstep
          refine .passes (by rw [hc]; rfl) ?_
          -- the exchange failed, so there is a book
          intro l' seen hl'
          cases hl'
          exact ⟨(hasks l false rfl).1, fun _ => by rw [hb]; nofun⟩
      | none =>
          simp only [hb, finish, Option.some.injEq, Prod.mk.injEq] at hstep
          obtain ⟨rfl, rfl⟩ := hstep
          exact .publishes (by rw [hc]; rfl) (hasks l false rfl).1 hb
  | discard l nb =>
      rw [hc] at hstep hasks
      simp only [Option.some.injEq, Prod.mk.injEq] at hstep
      obtain ⟨rfl, rfl⟩ := hstep
      exact .discards (by rw [hc]; rfl) hasks
  | reload l =>
      rw [hc] at hstep hasks
      simp only [finish, Option.some.injEq, Prod.mk.injEq] at hstep
      obtain ⟨rfl, rfl⟩ := hstep
      obtain ⟨hl, hseen⟩ := hasks l true rfl
      obtain ⟨b, hb⟩ := Option.ne_none_iff_exists'.mp (hseen rfl)
      refine .returns (by rw [hc]; rfl) ?_
      rw [hb]
      exact hanswers hl hb

/-- Every step but a write is one of a thread in `book_for`. -/
theorem Inv.moves (hi : Inv place h s) (ha : NoWrite a) (hstep : s.step a = some (s', o)) :
    ∃ t, Moves s t s' o := by
  cases a with
  | bookFor t l =>
      refine ⟨t, ?_⟩
      simp only [BookThreads.step] at hstep
      cases hc : s.calls t with
      | idle =>
          rw [hc] at hstep
          simp only at hstep
          split at hstep
          · rename_i hle
            cases hstep
            exact .returns (by rw [hc]; rfl) (by rw [Answers, if_pos hle])
          · rename_i hlt
            cases hstep
            refine .passes (by rw [hc]; rfl) ?_
            intro l' seen hl'
            cases hl'
            exact ⟨UInt64.not_le.mp hlt, nofun⟩
      | _ => rw [hc] at hstep; cases hstep
  | next t addr => exact ⟨t, hi.callStep hstep⟩
  | write => exact ha.elim

theorem at_goto_self {c : BookCall} {b : Nat} :
    (s.goto t c).At (.thread t) b ↔ c.made? = some b := by
  simp [At]

/-- What the other threads have made stays theirs. -/
theorem at_goto_other {c : BookCall} {t' : τ} {b : Nat}
    (ht : BookPlace.thread t' ≠ .thread t) :
    (s.goto t c).At (.thread t') b ↔ s.At (.thread t') b := by
  have hne : t' ≠ t := fun heq => ht (heq ▸ rfl)
  simp [At, hne]

/-- What the calls have seen stays true. -/
theorem Inv.asks_goto (hi : Inv place h s) {c : BookCall} (hcalls : s'.calls = s.calls)
    (hbooks : ∀ l, s.books l ≠ none → s'.books l ≠ none) (hc : Asks s' c) (t' : τ) :
    Asks (s'.goto t c) ((s'.goto t c).calls t') := by
  rw [goto_calls]
  split
  · exact hc
  · intro l seen hl
    rw [hcalls] at hl
    obtain ⟨hlt, hseen⟩ := hi.asks t' l seen hl
    exact ⟨hlt, fun hs => hbooks l (hseen hs)⟩

/-- A step of a thread that takes no address to another place. -/
theorem Inv.goto (hi : Inv place h s) {c : BookCall} (ha : NoWrite a)
    (hmade : c.made? = (s.calls t).made?) (hasks : Asks s c)
    (hgiven : ∀ l b, Given (h ++ [(a, o)]) l b → Answers s l b) :
    Inv place (h ++ [(a, o)]) (s.goto t c) where
  placed k b := by
    refine Iff.trans ?_ (hi.placed k b)
    cases k with
    | nowhere => rfl
    | table l => rfl
    | thread t' =>
        show ((s.goto t c).calls t').made? = some b ↔ _
        rw [goto_calls]
        split
        · rename_i ht
          rw [hmade, ht]
          rfl
        · rfl
  live b levels hb := by
    rw [written_of_noWrite ha]
    exact hi.live b levels hb
  fresh b hb := by
    rw [written_of_noWrite ha]
    exact hi.fresh b hb
  range := hi.range
  asks := hi.asks_goto rfl (fun _ => id) hasks
  given := hgiven

/-- Every step of a thread keeps the invariant. -/
theorem Inv.keeps (hi : Inv place h s) (ha : NoWrite a) (hm : Moves s t s' o) :
    ∃ place', Inv place' (h ++ [(a, o)]) s' := by
  have hgiven {l b} (hg : Given (h ++ [(a, .silent)]) l b) : Answers s l b :=
    hi.given l b (given_silent.mp hg)
  cases hm with
  | passes hmade hasks => exact ⟨place, hi.goto ha hmade hasks fun l b hg => hgiven hg⟩
  | returns hmade hanswers =>
      refine ⟨place, hi.goto ha hmade.symm nofun fun l b hg => ?_⟩
      rcases given_returned hg with hold | ⟨rfl, rfl⟩
      · exact hi.given l b hold
      · exact hanswers
  | @makes l addr hmade hl hfree =>
      have hplace : place addr = .nowhere := ((hi.placed .nowhere addr).mp hfree).2
      refine ⟨_, hi.move (b := addr) (k := .thread t) ha (by rw [hplace]; nofun) ?_ ?_ ?_ hi.range
        (hi.asks_goto rfl (fun _ => id) ?_) fun l b hg => hgiven hg⟩
      · refine hi.placed.pass (k := .nowhere) hfree nofun (fun b' => ?_) (fun b' => ?_) ?_
        · show (s.alloc addr).heap b' = none ↔ b' ≠ addr ∧ s.heap b' = none
          rw [alloc_heap]
          split <;> simp [*]
        · rw [at_goto_self]
          show some addr = some b' ↔ b' = addr ∨ (s.calls t).made? = some b'
          simp [hmade, eq_comm]
        · rintro (_ | l' | t') b' hk₀ hk₁
          · exact absurd rfl hk₀
          · rfl
          · exact at_goto_other (s := s.alloc addr) hk₁
      · intro b' hb'
        exact (alloc_heap ..).trans (if_neg hb')
      · intro levels hlevels
        exact (Option.some.inj (((alloc_heap ..).trans (if_pos rfl)).symm.trans hlevels)).symm
      · rintro l' seen ⟨⟩
        exact ⟨hl, nofun⟩
  | @publishes l nb hmade hl hnone =>
      obtain ⟨hheap, hplace⟩ := hi.made_fresh hmade
      have hbooks : ∀ l', s.books l' ≠ none → (s.publish l nb).books l' = s.books l' := by
        intro l' hl'
        rw [publish_books, if_neg]
        rintro rfl
        exact hl' hnone
      refine ⟨_, hi.move (b := nb) (k := .table l) ha hplace ?_ (fun _ _ => rfl) ?_ ?_
        (hi.asks_goto rfl (fun l' hl' => by rwa [hbooks l' hl']) nofun) ?_⟩
      · refine hi.placed.pass (k := .thread t) hmade nofun (fun b' => ?_) (fun b' => ?_) ?_
        · rw [at_goto_self]
          show none = some b' ↔ b' ≠ nb ∧ (s.calls t).made? = some b'
          simp [hmade, eq_comm]
        · show (s.publish l nb).books l = some b' ↔ b' = nb ∨ s.books l = some b'
          simp [hnone, eq_comm]
        · rintro (_ | l' | t') b' hk₀ hk₁
          · rfl
          · have hl' : l' ≠ l := fun heq => hk₁ (heq ▸ rfl)
            show (s.publish l nb).books l' = some b' ↔ _
            rw [publish_books, if_neg hl']
            rfl
          · exact at_goto_other (s := s.publish l nb) hk₀
      · intro levels hlevels
        exact (Option.some.inj (hheap.symm.trans hlevels)).symm
      · intro l' b' hb'
        have hb' : (s.publish l nb).books l' = some b' := hb'
        rw [publish_books] at hb'
        split at hb'
        · rename_i heq
          rwa [heq]
        · exact hi.range l' b' hb'
      · intro l' b hg
        rcases given_returned hg with hold | ⟨rfl, rfl⟩
        · have hanswers := hi.given l' b hold
          unfold Answers at hanswers ⊢
          split
          · rwa [if_pos ‹_›] at hanswers
          · rw [if_neg ‹_›] at hanswers
            exact ⟨hanswers.1, (hbooks l' (hanswers.2 ▸ hanswers.1)).trans hanswers.2⟩
        · rw [Answers, if_neg (UInt64.not_le.mpr hl)]
          exact ⟨nofun, (publish_books ..).trans (if_pos rfl)⟩
  | @discards l nb hmade hasks =>
      obtain ⟨hheap, hplace⟩ := hi.made_fresh hmade
      refine ⟨_, hi.move (b := nb) (k := .nowhere) ha hplace ?_ ?_ ?_ hi.range
        (hi.asks_goto rfl (fun _ => id) hasks) fun l b hg => hgiven hg⟩
      · refine hi.placed.pass (k := .thread t) hmade nofun (fun b' => ?_) (fun b' => ?_) ?_
        · rw [at_goto_self]
          show none = some b' ↔ b' ≠ nb ∧ (s.calls t).made? = some b'
          simp [hmade, eq_comm]
        · show (s.free nb).heap b' = none ↔ b' = nb ∨ s.heap b' = none
          rw [free_heap]
          split <;> simp [*]
        · rintro (_ | l' | t') b' hk₀ hk₁
          · exact absurd rfl hk₁
          · rfl
          · exact at_goto_other (s := s.free nb) hk₀
      · intro b' hb'
        exact (free_heap ..).trans (if_neg hb')
      · intro levels hlevels
        cases ((free_heap ..).trans (if_pos rfl)).symm.trans hlevels

omit [DecidableEq τ] in
/-- A book that was given out is written. -/
theorem Inv.write (hi : Inv place h s) {levels : BookLevels} (hgiven : Given h locate (some nb)) :
    Inv place (h ++ [(.write nb levels, .silent)])
      { s with heap := Function.update s.heap nb (some levels) } := by
  have htable : s.books locate = some nb := by
    have hanswers := hi.given locate (some nb) hgiven
    unfold Answers at hanswers
    split at hanswers
    · cases hanswers
    · exact hanswers.2
  have hplace : place nb = .table locate := ((hi.placed (.table locate) nb).mp htable).2
  have hwritten : ∀ {b}, b ≠ nb →
      written (h ++ [(.write nb levels, .silent)]) b = written h b := by
    intro b hb
    exact written_snoc fun levels' heq => hb (BookAction.write.inj heq).1.symm
  refine ⟨fun k b => ?_, ?_, ?_, hi.range, hi.asks, fun l b hg => hi.given l b (given_silent.mp hg)⟩
  · refine Iff.trans ?_ (hi.placed k b)
    cases k with
    | nowhere =>
        show Function.update s.heap nb (some levels) b = none ↔ s.heap b = none
        by_cases hne : b = nb
        · rw [hne, Function.update_self, hi.book_live htable]
          exact iff_of_false nofun nofun
        · rw [Function.update_of_ne hne]
    | _ => rfl
  · intro b levels' hb
    by_cases hne : b = nb
    · subst hne
      obtain rfl : levels = levels' := by simpa using hb
      simp [written]
    · rw [hwritten hne]
      exact hi.live b levels' ((Function.update_of_ne hne _ _).symm.trans hb)
  · intro b hb
    have hne : b ≠ nb := by
      rintro rfl
      exact hb locate hplace
    rw [hwritten hne]
    exact hi.fresh b hb

/-- Every step keeps the invariant. -/
theorem Inv.step (hi : Inv place h s) (hown : Owning h s a) (hstep : s.step a = some (s', o)) :
    ∃ place', Inv place' (h ++ [(a, o)]) s' := by
  have hthread (ha : NoWrite a) : ∃ place', Inv place' (h ++ [(a, o)]) s' := by
    obtain ⟨t, hm⟩ := hi.moves ha hstep
    exact hi.keeps ha hm
  cases a with
  | bookFor t l => exact hthread trivial
  | next t addr => exact hthread trivial
  | write b levels =>
      obtain ⟨l, hgiven⟩ := hown
      simp only [BookThreads.step, Option.map_eq_some_iff, Prod.mk.injEq] at hstep
      obtain ⟨_, -, rfl, rfl⟩ := hstep
      exact ⟨place, hi.write hgiven⟩

/-! ### The call as a whole -/

/-- What stands in the books of the table. -/
def levels (s : BookThreads τ) (l : UInt64) : Option BookLevels := (s.books l).bind s.heap

/-- The step of a thread is a call of `bookFor` if it returns, and nothing if it does not. -/
def ActsAs (s s' : BookThreads τ) : BookEvent τ → Prop
  | .silent => s'.levels = s.levels
  | .returned _ l b => ∀ e : MatchingEngine, e.books = s.levels →
      (e.bookFor l).map MatchingEngine.books = b.map fun _ => s'.levels

omit [DecidableEq τ] in
/-- The books of the table do not see what happens to the others. -/
theorem levels_congr (hbooks : s'.books = s.books)
    (hheap : ∀ l b, s.books l = some b → s'.heap b = s.heap b) : s'.levels = s.levels := by
  funext l
  rw [levels, levels, hbooks]
  cases hb : s.books l with
  | none => rfl
  | some b => exact hheap l b hb

/-- Every step but a write is a call of `bookFor` or nothing. -/
theorem Inv.acts (hi : Inv place h s) (hm : Moves s t s' o) : ActsAs s s' o := by
  cases hm with
  | passes hmade hasks => rfl
  | @returns l b hmade hanswers =>
      intro e he
      unfold Answers at hanswers
      split at hanswers
      · rename_i hle
        rw [MatchingEngine.bookFor, if_pos hle, hanswers]
        rfl
      · rename_i hlt
        obtain ⟨b, rfl⟩ := Option.ne_none_iff_exists'.mp hanswers.1
        have hlevels : e.books l = some (written h b) := by
          rw [he, levels, hanswers.2, Option.bind_some, hi.book_live hanswers.2]
        rw [MatchingEngine.bookFor, if_neg hlt, hlevels]
        simp only [Option.map_some, he]
        rfl
  | @makes l addr hmade hl hfree =>
      refine levels_congr rfl fun l' b' hb' => (alloc_heap ..).trans (if_neg ?_)
      rintro rfl
      cases (hi.book_live hb').symm.trans hfree
  | @publishes l nb hmade hl hnone =>
      -- the book that comes in is empty, as `bookFor` makes it
      intro e he
      have hbook : e.books l = none := by rw [he, levels, hnone]; rfl
      rw [MatchingEngine.bookFor, if_neg (UInt64.not_le.mpr hl), hbook]
      simp only [Option.map_some, Option.some.injEq]
      funext l'
      rw [Function.update_apply, levels]
      show _ = ((s.publish l nb).books l').bind s.heap
      rw [publish_books]
      split
      · exact (hi.made_fresh hmade).1.symm
      · rw [he]
        rfl
  | @discards l nb hmade hasks =>
      refine levels_congr rfl fun l' b' hb' => (free_heap ..).trans (if_neg ?_)
      rintro rfl
      exact (hi.made_fresh hmade).2 l' ((hi.placed (.table l') b').mp hb').2

end

/-- **One book for each locate.** Whatever the threads do at the same time, all calls of
`book_for(locate)` give the same book, now and later, and calls for different locates different
ones; there is none exactly if the locate is out of range. A book that was given out holds what was
written to it last. With no call under way the books of the table are all there are: what a thread
made in vain is gone. And the step with which a call returns is the call of the serial engine, while
its other steps do nothing. -/
theorem one_book_per_locate [DecidableEq τ] (t : Trace step Owning (start : BookThreads τ) h s) :
    (∀ l b, Given h l b → if MatchingEngine.kMaxLocate ≤ l then b = none
      else ∃ book, b = some book ∧ s.books l = some book ∧ s.heap book = some (written h book)) ∧
    (∀ l l' b, s.books l = some b → s.books l' = some b → l = l') ∧
    ((∀ t, s.calls t = .idle) → ∀ b, s.heap b ≠ none ↔ ∃ l, s.books l = some b) ∧
    ∀ a s' o, NoWrite a → s.step a = some (s', o) → ActsAs s s' o := by
  obtain ⟨place, hi⟩ : ∃ place, Inv place h s := by
    refine t.invariant (fun h s => ∃ place, Inv place h s) ⟨_, Inv.start⟩ ?_
    rintro h s a s' o - ⟨place, hi⟩ hown hstep
    exact hi.step hown hstep
  refine ⟨fun l b hg => ?_, fun l l' b hl hl' => ?_, fun hidle b => ⟨fun hb => ?_, ?_⟩,
    fun a s' o ha hstep => ?_⟩
  · have hanswers := hi.given l b hg
    unfold Answers at hanswers
    split
    · rwa [if_pos ‹_›] at hanswers
    · rw [if_neg ‹_›] at hanswers
      obtain ⟨book, rfl⟩ := Option.ne_none_iff_exists'.mp hanswers.1
      exact ⟨book, rfl, hanswers.2, hi.book_live hanswers.2⟩
  · exact BookPlace.table.inj (hi.placed.unique (.table l) (.table l') hl hl')
  · -- what lives and is with no thread is in the table
    cases hplace : place b with
    | nowhere => exact absurd ((hi.placed .nowhere b).mpr ⟨trivial, hplace⟩) hb
    | table l => exact ⟨l, (hi.placed (.table l) b).mpr ⟨trivial, hplace⟩⟩
    | thread t' =>
        have hmade : (s.calls t').made? = some b :=
          (hi.placed (.thread t') b).mpr ⟨trivial, hplace⟩
        rw [hidle t'] at hmade
        cases hmade
  · rintro ⟨l, hl⟩ hnone
    cases (hi.book_live hl).symm.trans hnone
  · obtain ⟨t', hm⟩ := hi.moves ha hstep
    exact hi.acts hm

/-- Two threads find no book at the same time. -/
theorem one_book_per_locate_race :
    ∃ (h : List (BookAction Bool × BookEvent Bool)) (s : BookThreads Bool),
      Trace step Owning start h s ∧ Given h 5 (some 10) ∧ s.heap 11 = none ∧
      ∀ b, Given h 5 b → ∃ book, b = some book ∧ s.books 5 = some book := by
  have t₁ : Trace step Owning (start : BookThreads Bool) _ _ :=
    Trace.nil.snoc (show Owning _ _ (.bookFor false 5) from trivial) rfl
  have t₂ := t₁.snoc (show Owning _ _ (.bookFor true 5) from trivial) rfl
  have t₃ := t₂.snoc (show Owning _ _ (.next false 0) from trivial) rfl
  have t₄ := t₃.snoc (show Owning _ _ (.next true 0) from trivial) rfl
  have t₅ := t₄.snoc (show Owning _ _ (.next false 10) from trivial) rfl
  have t₆ := t₅.snoc (show Owning _ _ (.next true 11) from trivial) rfl
  have t₇ := t₆.snoc (show Owning _ _ (.next false 0) from trivial) rfl
  have t₈ := t₇.snoc (show Owning _ _ (.next true 0) from trivial) rfl
  have t₉ := t₈.snoc (show Owning _ _ (.next true 0) from trivial) rfl
  have t₁₀ := t₉.snoc (show Owning _ _ (.next true 0) from trivial) rfl
  refine ⟨_, _, t₁₀, ⟨.next true 0, true, ?_⟩, rfl, fun b hb => ?_⟩
  · exact List.mem_append_right _ List.mem_cons_self
  · have hgiven := (one_book_per_locate t₁₀).1 5 b hb
    rw [if_neg (by decide)] at hgiven
    obtain ⟨book, hbook, hplace, -⟩ := hgiven
    exact ⟨book, hbook, hplace⟩

end BookThreads

end NebulaX
