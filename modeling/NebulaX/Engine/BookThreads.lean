import NebulaX.Engine.MatchingEngine

/-!
# `NebulaX.Engine.BookThreads`: the books under several threads

`MatchingEngine::book_for` as steps of threads. A call loads `books_[locate]`. If there is no book
it makes one, tries to put it there with a compare-exchange, and if another thread was faster
deletes it and loads again.

A book is an address and what is stored there. `new` may give any address at which nothing lives,
one that was deleted before among them. A thread that was given a book writes to it as a whole.
-/

set_option autoImplicit false

namespace NebulaX

/-- Where a thread is in `book_for`. -/
inductive BookCall where
  | idle
  /-- Before the first load. -/
  | load (locate : UInt64)
  /-- Before `new OrderBook`. -/
  | make (locate : UInt64)
  /-- Before the compare-exchange, with the new book `nb`. -/
  | exchange (locate : UInt64) (nb : Nat)
  /-- Before `delete nb`. -/
  | discard (locate : UInt64) (nb : Nat)
  /-- Before the second load. -/
  | reload (locate : UInt64)
  deriving DecidableEq

/-- `books_` and the books, with the threads. -/
structure BookThreads (τ : Type) where
  books : UInt64 → Option Nat
  heap : Nat → Option BookLevels
  calls : τ → BookCall

/-- What happens next. -/
inductive BookAction (τ : Type) where
  /-- A thread calls `book_for`. -/
  | bookFor (t : τ) (locate : UInt64)
  /-- The next access of a thread that is in a call. `addr` is what `new` gives. -/
  | next (t : τ) (addr : Nat)
  /-- A book is written. -/
  | write (book : Nat) (levels : BookLevels)

/-- What a step comes to. -/
inductive BookEvent (τ : Type) where
  | silent
  /-- `book_for(locate)` returns. -/
  | returned (t : τ) (locate : UInt64) (book : Option Nat)

namespace BookThreads

variable {τ : Type}

/-- `books_` as the constructor leaves it. -/
def start : BookThreads τ where
  books _ := none
  heap _ := none
  calls _ := .idle

/-- `new OrderBook`. -/
def alloc (s : BookThreads τ) (addr : Nat) : BookThreads τ :=
  { s with heap := Function.update s.heap addr (some {}) }

/-- `delete`. -/
def free (s : BookThreads τ) (addr : Nat) : BookThreads τ :=
  { s with heap := Function.update s.heap addr none }

/-- Store to `books_[locate]`. -/
def publish (s : BookThreads τ) (locate : UInt64) (book : Nat) : BookThreads τ :=
  { s with books := Function.update s.books locate (some book) }

variable [DecidableEq τ]

/-- A thread goes on. -/
def goto (s : BookThreads τ) (t : τ) (c : BookCall) : BookThreads τ :=
  { s with calls := Function.update s.calls t c }

/-- A call returns. -/
def finish (s : BookThreads τ) (t : τ) (locate : UInt64) (book : Option Nat) :
    BookThreads τ × BookEvent τ :=
  (s.goto t .idle, .returned t locate book)

/-- The next access of a thread in `book_for`. -/
def callStep (s : BookThreads τ) (t : τ) (addr : Nat) : Option (BookThreads τ × BookEvent τ) :=
  match s.calls t with
  | .idle => none
  | .load locate =>
      match s.books locate with
      | some b => some (s.finish t locate (some b))
      | none => some (s.goto t (.make locate), .silent)
  | .make locate =>
      match s.heap addr with
      | some _ => none
      | none => some ((s.alloc addr).goto t (.exchange locate addr), .silent)
  | .exchange locate nb =>
      match s.books locate with
      | none => some ((s.publish locate nb).finish t locate (some nb))
      | some _ => some (s.goto t (.discard locate nb), .silent)
  | .discard locate nb => some ((s.free nb).goto t (.reload locate), .silent)
  | .reload locate => some (s.finish t locate (s.books locate))

/-- One step. -/
def step (s : BookThreads τ) : BookAction τ → Option (BookThreads τ × BookEvent τ)
  | .bookFor t locate =>
      match s.calls t with
      | .idle =>
          if MatchingEngine.kMaxLocate ≤ locate then some (s.finish t locate none)
          else some (s.goto t (.load locate), .silent)
      | _ => none
  | .next t addr => s.callStep t addr
  | .write book levels =>
      (s.heap book).map fun _ =>
        ({ s with heap := Function.update s.heap book (some levels) }, .silent)

end BookThreads

end NebulaX
