import NebulaX.Lib.Framing
import NebulaX.Server.Connection

/-!
# `NebulaX.Proofs.Framing`: frames do not depend on how they arrive

What `drainBuffered` takes out of the buffer is a `Splitter`: a frame of legal length, or one
byte where the length is illegal. So the bodies processed and the bytes left depend on the
stream only, whatever is done with a body and however the stream was cut.
-/

set_option autoImplicit false

namespace NebulaX

open NebulaX.Lib

namespace ConnContext

/-! ### The frames of a stream -/

/-- The length the first two bytes give. -/
def bodyLenOf (b : List UInt8) : Nat := ((b.getD 0 0).toNat <<< 8) ||| (b.getD 1 0).toNat

/-- One iteration of the loop on the bytes not consumed yet. -/
def nextFrame (b : List UInt8) : Option (Option (List UInt8) × List UInt8) :=
  if b.length < 2 then none
  else if bodyLenOf b < 1 ∨ bodyLenOf b > 4096 then some (none, b.drop 1)
  else if b.length < 2 + bodyLenOf b then none
  else some (some ((b.drop 2).take (bodyLenOf b)), b.drop (2 + bodyLenOf b))

/-- What an iteration that goes on has found. -/
theorem nextFrame_eq_some {b : List UInt8} {item : Option (List UInt8)} {rest : List UInt8}
    (h : nextFrame b = some (item, rest)) :
    2 ≤ b.length ∧
      ((bodyLenOf b < 1 ∨ bodyLenOf b > 4096) ∧ item = none ∧ rest = b.drop 1 ∨
        ¬ (bodyLenOf b < 1 ∨ bodyLenOf b > 4096) ∧ 2 + bodyLenOf b ≤ b.length ∧
          item = some ((b.drop 2).take (bodyLenOf b)) ∧ rest = b.drop (2 + bodyLenOf b)) := by
  unfold nextFrame at h
  split at h
  · cases h
  · rename_i hlen
    split at h
    · rename_i hillegal
      rw [Option.some.injEq, Prod.mk.injEq] at h
      exact ⟨by omega, Or.inl ⟨hillegal, h.1.symm, h.2.symm⟩⟩
    · rename_i hlegal
      split at h
      · cases h
      · rw [Option.some.injEq, Prod.mk.injEq] at h
        exact ⟨by omega, Or.inr ⟨hlegal, by omega, h.1.symm, h.2.symm⟩⟩

/-- An iteration that goes on takes bytes from the front. -/
theorem rest_of_nextFrame {b : List UInt8} {item : Option (List UInt8)} {rest : List UInt8}
    (h : nextFrame b = some (item, rest)) :
    rest.length < b.length ∧ rest = b.drop (b.length - rest.length) := by
  rcases nextFrame_eq_some h with ⟨hlen, ⟨-, -, rfl⟩ | ⟨-, hbody, -, rfl⟩⟩
  · rw [List.length_drop]
    exact ⟨by omega, by congr 1; omega⟩
  · rw [List.length_drop]
    exact ⟨by omega, by congr 1; omega⟩

theorem bodyLenOf_append {b : List UInt8} (h : 2 ≤ b.length) (x : List UInt8) :
    bodyLenOf (b ++ x) = bodyLenOf b := by
  simp only [bodyLenOf, List.getD_eq_getElem?_getD]
  rw [List.getElem?_append_left (by omega), List.getElem?_append_left (by omega)]

/-- The frames of a stream. -/
def frames : Splitter UInt8 (List UInt8) where
  next := nextFrame
  shorter := fun h => (rest_of_nextFrame h).1
  stable := by
    intro b item rest h x
    rcases nextFrame_eq_some h with ⟨hlen, ⟨hl, rfl, rfl⟩ | ⟨hl, hbody, rfl, rfl⟩⟩
    · rw [nextFrame, if_neg (by rw [List.length_append]; omega), bodyLenOf_append hlen, if_pos hl,
        List.drop_append_of_le_length (by omega)]
    · rw [nextFrame, if_neg (by rw [List.length_append]; omega), bodyLenOf_append hlen, if_neg hl,
        if_neg (by rw [List.length_append]; omega), List.drop_append_of_le_length (by omega),
        List.drop_append_of_le_length (by omega),
        List.take_append_of_le_length (by rw [List.length_drop]; omega)]

/-- What is left is half a frame at most. -/
theorem length_lt_of_waits {b : List UInt8} (h : frames.next b = none) : b.length < 2 + 4096 := by
  change nextFrame b = none at h
  unfold nextFrame at h
  split at h
  · omega
  · split at h
    · cases h
    · split at h
      · omega
      · cases h

/-- A body behind its length. -/
def frameOf (body : List UInt8) : List UInt8 :=
  UInt8.ofNat (body.length >>> 8) :: UInt8.ofNat body.length :: body

theorem bodyLenOf_frameOf {body : List UInt8} (h : body.length ≤ 4096) (x : List UInt8) :
    bodyLenOf (frameOf body ++ x) = body.length := by
  have hhigh : body.length >>> 8 < 256 := by
    rw [Nat.shiftRight_eq_div_pow]
    omega
  simp only [bodyLenOf, frameOf, List.cons_append, List.getD_cons_zero, List.getD_cons_succ,
    UInt8.toNat_ofNat']
  rw [Nat.mod_eq_of_lt (by omega : body.length >>> 8 < 2 ^ 8),
    ← Nat.shiftLeft_add_eq_or_of_lt (Nat.mod_lt _ (by decide)), Nat.shiftLeft_eq,
    Nat.shiftRight_eq_div_pow]
  omega

/-- A whole frame is taken away in one iteration. -/
theorem next_frameOf {body : List UInt8} (h₁ : 1 ≤ body.length) (h : body.length ≤ 4096)
    (x : List UInt8) : frames.next (frameOf body ++ x) = some (some body, x) := by
  have hlen : (frameOf body ++ x).length = 2 + body.length + x.length := by
    simp only [frameOf, List.cons_append, List.length_cons, List.length_append]
    omega
  change nextFrame (frameOf body ++ x) = some (some body, x)
  rw [nextFrame, if_neg (by omega), bodyLenOf_frameOf h, if_neg (by omega), if_neg (by omega)]
  simp [frameOf, Nat.add_comm 2]

/-! ### The loop takes the frames of the stream -/

variable {σ ω : Type} {process : σ → List UInt8 → Option (σ × ω)}

/-- The connection with `n` more bytes consumed. -/
def advance (c : ConnContext) (n : Nat) : ConnContext := { c with consumed := c.consumed + n }

/-- An iteration of the loop is a step of the splitter, and the body it finds is processed. -/
theorem drainLoop_succ (fuel : Nat) (s : σ) {c : ConnContext} {b : List UInt8}
    (hb : c.accumBuf.drop c.consumed = b) :
    drainLoop process (fuel + 1) s c c.consumed b.length =
      match nextFrame b with
      | none => some (s, c, [])
      | some (item, rest) => (run process s item.toList).bind fun r =>
          (drainLoop process fuel r.1 (c.advance (b.length - rest.length))
            (c.advance (b.length - rest.length)).consumed rest.length).map
              fun r' => (r'.1, r'.2.1, r.2 ++ r'.2.2) := by
  have hat : ∀ i, c.accumBuf.getD (c.consumed + i) 0 = b.getD i 0 := by
    intro i
    rw [← hb, List.getD_eq_getElem?_getD, List.getD_eq_getElem?_getD, List.getElem?_drop]
  have hlen : ((c.accumBuf.getD c.consumed 0).toNat <<< 8) |||
      (c.accumBuf.getD (c.consumed + 1) 0).toNat = bodyLenOf b := by
    exact congrArg₂ (fun x y : UInt8 => (x.toNat <<< 8) ||| y.toNat) (hat 0) (hat 1)
  simp only [drainLoop, hlen, nextFrame]
  by_cases h2 : b.length < 2
  · simp only [if_pos h2]
  simp only [if_neg h2]
  by_cases hillegal : bodyLenOf b < 1 ∨ bodyLenOf b > 4096
  · -- nothing is processed, one byte is dropped
    have hone : b.length - (b.length - 1) = 1 := by omega
    simp only [if_pos hillegal, List.length_drop, hone]
    simp [run, advance]
  simp only [if_neg hillegal]
  by_cases hhalf : b.length < 2 + bodyLenOf b
  · simp only [if_pos hhalf]
  · have hone : b.length - (b.length - (2 + bodyLenOf b)) = 2 + bodyLenOf b := by omega
    have hbody : c.accumBuf.drop (c.consumed + 2) = b.drop 2 := by rw [← List.drop_drop, hb]
    simp only [if_neg hhalf, List.length_drop, hone, hbody, Option.toList_some, run, advance,
      Option.bind_eq_bind, Option.bind_assoc, Option.bind_some, Option.map_eq_bind, pure,
      Function.comp_def, List.singleton_append]

/-- The loop processes the frames behind its position. It stops where what is left of them
starts. -/
theorem drainLoop_spec (process : σ → List UInt8 → Option (σ × ω)) {fuel : Nat} {c : ConnContext}
    {b : List UInt8} (hfuel : b.length < fuel) (hb : c.accumBuf.drop c.consumed = b) :
    ∃ k, (frames.split b).2 = b.drop k ∧ ∀ s : σ,
      drainLoop process fuel s c c.consumed b.length =
        (run process s (frames.split b).1).map fun r => (r.1, c.advance k, r.2) := by
  induction fuel generalizing c b with
  | zero => exact absurd hfuel (Nat.not_lt_zero _)
  | succ fuel ih =>
      rcases hnext : nextFrame b with _ | ⟨item, rest⟩
      · refine ⟨0, ?_, fun s => ?_⟩
        · rw [Splitter.split_of_none hnext, List.drop_zero]
        · rw [drainLoop_succ fuel s hb, hnext, Splitter.split_of_none hnext]
          rfl
      · obtain ⟨hlt, hrest⟩ := rest_of_nextFrame hnext
        have hdrop : (c.advance (b.length - rest.length)).accumBuf.drop
            (c.advance (b.length - rest.length)).consumed = rest := by
          change c.accumBuf.drop (c.consumed + (b.length - rest.length)) = rest
          rw [← List.drop_drop, hb, ← hrest]
        obtain ⟨k, htail, hloop⟩ := ih (by omega) hdrop
        refine ⟨b.length - rest.length + k, ?_, fun s => ?_⟩
        · rw [Splitter.split_of_some hnext, htail, ← List.drop_drop, ← hrest]
        · rw [drainLoop_succ fuel s hb, hnext, Splitter.split_of_some hnext, run_append]
          simp only [hloop, Option.map_eq_bind, Option.bind_assoc, Option.bind_some,
            Function.comp_def]
          simp only [advance, Nat.add_assoc]

/-- The connection with `b` received and not consumed. -/
def holding (c : ConnContext) (b : List UInt8) : ConnContext :=
  { c with accumBuf := b, pending := b.length, consumed := 0 }

/-- What is consumed is removed from the front. -/
theorem compact_advance (c : ConnContext) (b : List UInt8) (k : Nat) :
    ((c.holding b).advance k).compact = c.holding (b.drop k) := by
  rcases Nat.eq_zero_or_pos k with rfl | hk
  · rfl
  · rw [compact, if_neg (by change ¬ 0 + k = 0; omega)]
    simp only [advance, holding, memmove, Nat.zero_add, List.length_drop]
    congr 1
    split
    · rw [List.take_append_of_le_length (by simp), List.take_take, Nat.min_self,
        List.take_of_length_le]
      simp
    · rw [show b.length - k = 0 by omega, List.take_zero, List.drop_eq_nil_of_le (by omega)]

/-- `drainBuffered` processes the frames of the buffer and keeps what is left. -/
theorem drainBuffered_spec (s : σ) (c : ConnContext) (b : List UInt8) :
    drainBuffered process s (c.holding b) = (run process s (frames.split b).1).map
      fun r => (r.1, c.holding (frames.split b).2, r.2) := by
  obtain ⟨k, htail, hloop⟩ := drainLoop_spec process (c := c.holding b)
    (Nat.lt_succ_self b.length) List.drop_zero
  have hloop : drainLoop process (b.length - 0 + 1) s (c.holding b) 0 (b.length - 0) = _ := hloop s
  rw [drainBuffered]
  change (drainLoop process (b.length - 0 + 1) s (c.holding b) 0 (b.length - 0)).bind _ = _
  rw [hloop, htail, ← compact_advance, Option.bind_map, Option.map_eq_bind]
  rfl

/-- Chunks received one after the other: the frames of all of them, behind what was left. -/
theorem receiveAll_spec {b : List UInt8} (hwait : frames.next b = none) (s : σ) (c : ConnContext)
    (chunks : List (List UInt8)) :
    receiveAll process s (c.holding b) chunks =
      (run process s (frames.split (b ++ chunks.flatten)).1).map
        fun r => (r.1, c.holding (frames.split (b ++ chunks.flatten)).2, r.2) := by
  induction chunks generalizing b s with
  | nil =>
      rw [List.flatten_nil, List.append_nil, Splitter.split_of_none hwait]
      rfl
  | cons bytes chunks ih =>
      have hread : (c.holding b).appendRead bytes = c.holding (b ++ bytes) := rfl
      rw [List.flatten_cons, ← List.append_assoc, Splitter.split_append, run_append]
      simp only [receiveAll, receive, hread, drainBuffered_spec, ih (Splitter.next_split frames _),
        Option.bind_eq_bind, Option.map_eq_bind, Option.bind_assoc, Option.bind_some,
        Function.comp_def, pure]

/-! ### Any way of cutting a stream -/

/-- **Framing does not depend on packet boundaries.** Whatever is done with a body: the bytes
of a new connection, received in any chunks, are processed as they are in one chunk, and the
same bytes are left, less than a frame. The frames of legal bodies are processed body by body
and leave nothing. The loop always ends, so the bytes are processed if every body is. -/
theorem frames_of_any_chunks (process : σ → List UInt8 → Option (σ × ω)) (s : σ) (fd : Nat)
    (bufIdx : UInt32) (chunks : List (List UInt8)) :
    receiveAll process s ⟨fd, bufIdx, 0, 0, [], false, false⟩ chunks =
        receiveAll process s ⟨fd, bufIdx, 0, 0, [], false, false⟩ [chunks.flatten] ∧
      (∀ s' c os,
        receiveAll process s ⟨fd, bufIdx, 0, 0, [], false, false⟩ chunks = some (s', c, os) →
        c.consumed = 0 ∧ c.pending = c.accumBuf.length ∧ c.accumBuf.length < 2 + 4096) ∧
      (∀ bodies : List (List UInt8), (∀ body ∈ bodies, 1 ≤ body.length ∧ body.length ≤ 4096) →
        chunks.flatten = (bodies.map frameOf).flatten →
        receiveAll process s ⟨fd, bufIdx, 0, 0, [], false, false⟩ chunks =
          (run process s bodies).map fun r => (r.1, ⟨fd, bufIdx, 0, 0, [], false, false⟩, r.2)) ∧
      ((∀ s body, (process s body).isSome) →
        (receiveAll process s ⟨fd, bufIdx, 0, 0, [], false, false⟩ chunks).isSome) := by
  have hall : ∀ chunks : List (List UInt8),
      receiveAll process s ⟨fd, bufIdx, 0, 0, [], false, false⟩ chunks =
        (run process s (frames.split chunks.flatten).1).map fun r => (r.1,
          holding ⟨fd, bufIdx, 0, 0, [], false, false⟩ (frames.split chunks.flatten).2, r.2) :=
    fun chunks => receiveAll_spec (b := []) rfl s ⟨fd, bufIdx, 0, 0, [], false, false⟩ chunks
  refine ⟨?_, ?_, ?_, ?_⟩
  · rw [hall, hall, List.flatten_cons, List.flatten_nil, List.append_nil]
  · intro s' c os h
    rw [hall, Option.map_eq_some_iff] at h
    obtain ⟨r, -, heq⟩ := h
    rw [Prod.mk.injEq, Prod.mk.injEq] at heq
    obtain ⟨-, rfl, -⟩ := heq
    exact ⟨rfl, rfl, length_lt_of_waits (Splitter.next_split frames _)⟩
  · intro bodies hlegal hstream
    have hsplit := Splitter.split_flatten (p := frames)
      (fun body hbody => next_frameOf (hlegal body hbody).1 (hlegal body hbody).2) rfl
    rw [hall, hstream, hsplit]
    rfl
  · intro htotal
    rw [hall, Option.isSome_map]
    exact run_isSome htotal s _

/-- Two frames, cut inside a length and inside a body, with the bodies written down. -/
theorem frames_of_any_chunks_cut :
    receiveAll (fun (_ : Unit) body => some ((), body)) () ⟨7, 0, 0, 0, [], false, false⟩
        [[0], [1, 65, 0], [2, 66], [67]] =
      some ((), ⟨7, 0, 0, 0, [], false, false⟩, [[65], [66, 67]]) :=
  (frames_of_any_chunks (fun (_ : Unit) body => some ((), body)) () 7 0
    [[0], [1, 65, 0], [2, 66], [67]]).2.2.1 [[65], [66, 67]] (by decide) (by decide)

end ConnContext

end NebulaX
