import NebulaX.Engine.FreeStack
import NebulaX.Lib.Chain

/-!
# `NebulaX.Proofs.FreeStack`: a tagged free stack under several threads

`Tracks head link n pc` relates the place of a thread in one of the loops to the stack, when `n`
exchanges succeeded since it loaded the head. The tag has gone up by `n`, modulo `2 ^ 32`. So an
exchange that succeeds with `n < 2 ^ 32` found the word it had loaded with `n = 0`, and what the
thread knows of the stack is still true: the head is the one it loaded, and the link it loaded is
that of the first slot.

Nobody writes to a slot on the stack. A write to another slot (`Tracks.write`) and an exchange of
another thread (`Tracks.swing`) keep the relation. `Moves` inverts a move of the thread itself.
-/

set_option autoImplicit false

namespace NebulaX

open NebulaX.Lib

/-- The exchanges that succeeded since a thread loaded the head. -/
def swingsSince {α : Type} (loads swings : α → Bool) (h : List α) : Nat :=
  h.foldl (fun n x => if loads x then 0 else if swings x then n + 1 else n) 0

theorem swingsSince_snoc {α : Type} {loads swings : α → Bool} (h : List α) (x : α) :
    swingsSince loads swings (h ++ [x]) =
      if loads x then 0 else if swings x then swingsSince loads swings h + 1
      else swingsSince loads swings h := by
  simp [swingsSince]

/-- `fh` was the head `n` exchanges ago. -/
structure TaggedIdx.Was (fh : TaggedIdx) (n : Nat) (head : TaggedIdx) : Prop where
  tag : head.tag = fh.tag + UInt32.ofNat n
  now : n = 0 → head = fh

namespace TaggedIdx.Was

variable {fh head : TaggedIdx} {n : Nat}

theorem rfl' : head.Was 0 head := ⟨by simp, fun _ => rfl⟩

/-- One more exchange. -/
theorem swing (h : fh.Was n head) (idx : UInt32) : fh.Was (n + 1) (head.swing idx) where
  tag := by
    change head.tag + 1 = _
    rw [h.tag, UInt32.ofNat_add, UInt32.add_assoc]
    rfl
  now := nofun

/-- The word comes back only after `2 ^ 32` exchanges. -/
theorem eq_zero (h : fh.Was n fh) (hn : n < 2 ^ 32) : n = 0 := by
  have htag : fh.tag + UInt32.ofNat n = fh.tag + 0 := by rw [← h.tag, UInt32.add_zero]
  have hzero : UInt32.ofNat n = 0 := UInt32.add_right_inj _ |>.mp htag
  have hnat := congrArg UInt32.toNat hzero
  rwa [UInt32.toNat_ofNat_of_lt' hn] at hnat

end TaggedIdx.Was

namespace StackPc

variable {head head' : TaggedIdx} {link link' : UInt32 → UInt32} {n : Nat} {pc pc' : StackPc}
variable {free : List UInt32} {idx next : UInt32}

/-- The slot a thread brings back. -/
def owns : StackPc → Option UInt32
  | .pushStore idx _ => some idx
  | .pushSwap idx _ => some idx
  | _ => none

/-- What a thread knows of the stack, `n` exchanges after it loaded the head. -/
def Tracks (head : TaggedIdx) (link : UInt32 → UInt32) (n : Nat) : StackPc → Prop
  | .popLoad fh => fh.idx ≠ uint32Max ∧ fh.Was n head
  | .popSwap fh next => fh.idx ≠ uint32Max ∧ fh.Was n head ∧ (n = 0 → next = link fh.idx)
  | .pushStore _ fh => fh.Was n head
  | .pushSwap idx fh => fh.Was n head ∧ link idx = fh.idx

/-- A write to a slot that is not on the stack and not the thread's own. -/
theorem Tracks.write (h : pc.Tracks head link n) (hchain : Chain link uint32Max head.idx free)
    {i : UInt32} (hi : i ∉ free) (hown : pc.owns ≠ some i) (hlink : ∀ j, j ≠ i → link' j = link j) :
    pc.Tracks head link' n := by
  cases pc with
  | popLoad fh => exact h
  | popSwap fh next =>
      obtain ⟨hne, hwas, hnext⟩ := h
      refine ⟨hne, hwas, fun hn => ?_⟩
      -- the first slot is still on the stack
      have hfirst : fh.idx ∈ free := by
        obtain ⟨rest, rfl, -⟩ := hchain.exists_cons (by rw [hwas.now hn]; exact hne)
        rw [hwas.now hn]
        exact List.mem_cons_self
      rw [hnext hn, hlink]
      rintro rfl
      exact hi hfirst
  | pushStore idx fh => exact h
  | pushSwap idx fh =>
      refine ⟨h.1, ?_⟩
      rw [hlink idx fun heq => hown (congrArg some heq)]
      exact h.2

/-- An exchange of another thread. -/
theorem Tracks.swing (h : pc.Tracks head link n) (i : UInt32) :
    pc.Tracks (head.swing i) link (n + 1) := by
  cases pc with
  | popLoad fh => exact ⟨h.1, h.2.swing i⟩
  | popSwap fh next => exact ⟨h.1, h.2.1.swing i, nofun⟩
  | pushStore idx fh => exact TaggedIdx.Was.swing h i
  | pushSwap idx fh => exact ⟨h.1.swing i, h.2⟩

/-! ### The moves of a thread -/

theorem tracks_pop? (link : UInt32 → UInt32) (h : pop? head = some pc) :
    pc.Tracks head link 0 ∧ pc.owns = none := by
  rw [pop?] at h
  split at h
  · cases h
  · rename_i hne
    cases h
    exact ⟨⟨hne, .rfl'⟩, rfl⟩

theorem pop?_eq_none (h : pop? head = none) : head.idx = uint32Max := by
  rw [pop?] at h
  split at h
  · assumption
  · cases h

theorem tracks_push (idx : UInt32) (head : TaggedIdx) (link : UInt32 → UInt32) :
    (push idx head).Tracks head link 0 ∧ (push idx head).owns = some idx :=
  ⟨TaggedIdx.Was.rfl', rfl⟩

/-- Where a move comes from. -/
def Moves (head : TaggedIdx) (link : UInt32 → UInt32) (pc : StackPc) : StackMove → Prop
  | .reads pc' => ∃ fh, pc = .popLoad fh ∧ pc' = .popSwap fh (link fh.idx)
  | .links idx next pc' => ∃ fh, pc = .pushStore idx fh ∧ next = fh.idx ∧ pc' = .pushSwap idx fh
  | .retries pc' => (∃ fh next, pc = .popSwap fh next ∧ pop? head = some pc') ∨
      ∃ idx fh, pc = .pushSwap idx fh ∧ pc' = push idx head
  | .findsNone => (∃ fh next, pc = .popSwap fh next) ∧ pop? head = none
  | .pops idx head' => ∃ next, pc = .popSwap head next ∧ idx = head.idx ∧ head' = head.swing next
  | .pushes idx head' => pc = .pushSwap idx head ∧ head' = head.swing idx

theorem moves_move (head : TaggedIdx) (link : UInt32 → UInt32) (pc : StackPc) (spurious : Bool) :
    Moves head link pc (pc.move head link spurious) := by
  cases pc with
  | popLoad fh => exact ⟨fh, rfl, rfl⟩
  | popSwap fh next =>
      simp only [move]
      split
      · rename_i hcas
        obtain ⟨rfl, -⟩ := hcas
        exact ⟨next, rfl, rfl, rfl⟩
      · split
        · rename_i hpop
          exact ⟨⟨fh, next, rfl⟩, hpop⟩
        · rename_i hpop
          exact Or.inl ⟨fh, next, rfl, hpop⟩
  | pushStore idx fh => exact ⟨fh, rfl, rfl, rfl⟩
  | pushSwap idx fh =>
      simp only [move]
      split
      · rename_i hcas
        obtain ⟨rfl, -⟩ := hcas
        exact ⟨rfl, rfl⟩
      · exact Or.inr ⟨idx, fh, rfl, rfl⟩

theorem Tracks.reads (h : pc.Tracks head link n) (hm : Moves head link pc (.reads pc')) :
    pc'.Tracks head link n ∧ pc'.owns = pc.owns := by
  obtain ⟨fh, rfl, rfl⟩ := hm
  exact ⟨⟨h.1, h.2, fun _ => rfl⟩, rfl⟩

theorem Tracks.links (h : pc.Tracks head link n) (hm : Moves head link pc (.links idx next pc'))
    (hlink : link' idx = next) :
    pc'.Tracks head link' n ∧ pc.owns = some idx ∧ pc'.owns = some idx := by
  obtain ⟨fh, rfl, rfl, rfl⟩ := hm
  exact ⟨⟨h, hlink⟩, rfl, rfl⟩

theorem Moves.retries (hm : Moves head link pc (.retries pc')) :
    pc'.Tracks head link 0 ∧ pc'.owns = pc.owns := by
  rcases hm with ⟨fh, next, rfl, hpop⟩ | ⟨idx, fh, rfl, rfl⟩
  · exact tracks_pop? link hpop
  · exact tracks_push idx head link

theorem Moves.findsNone (hm : Moves head link pc .findsNone) :
    head.idx = uint32Max ∧ pc.owns = none := by
  obtain ⟨⟨fh, next, rfl⟩, hpop⟩ := hm
  exact ⟨pop?_eq_none hpop, rfl⟩

/-- An exchange that takes a slot takes the first one, and leaves the rest. -/
theorem Tracks.pops (h : pc.Tracks head link n) (hn : n < 2 ^ 32)
    (hchain : Chain link uint32Max head.idx free) (hm : Moves head link pc (.pops idx head')) :
    pc.owns = none ∧ ∃ next rest, head' = head.swing next ∧ free = idx :: rest ∧
      Chain link uint32Max next rest := by
  obtain ⟨next, rfl, rfl, rfl⟩ := hm
  obtain ⟨hne, hwas, hnext⟩ := h
  obtain ⟨rest, hfree, hrest⟩ := hchain.exists_cons hne
  rw [← hnext (hwas.eq_zero hn)] at hrest
  exact ⟨rfl, next, rest, rfl, hfree, hrest⟩

/-- An exchange that gives a slot back puts it in front. -/
theorem Tracks.pushes (h : pc.Tracks head link n) (hchain : Chain link uint32Max head.idx free)
    (hm : Moves head link pc (.pushes idx head')) (hidx : idx ≠ uint32Max) :
    pc.owns = some idx ∧ head' = head.swing idx ∧ Chain link uint32Max idx (idx :: free) := by
  obtain ⟨rfl, rfl⟩ := hm
  refine ⟨rfl, rfl, rfl, hidx, ?_⟩
  rw [h.2]
  exact hchain

end StackPc

end NebulaX
