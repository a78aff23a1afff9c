import Mathlib.Data.List.Forall2
import NebulaX.Proofs.ResponseRing

/-!
# `NebulaX.Proofs.SendThread`: the Send thread keeps to the records

`SendInv` says for every place of the Send thread where it stands in the records, and
`SendInv.sendStep` that a step follows `SendPos.Move` as long as the kernel's answers are not
among those that make the loop lose its place (`Steady`).
-/

set_option autoImplicit false

namespace NebulaX

open NebulaX.Lib SPSCByteRing

/-! ### Places in the stream -/

namespace Record

variable {done rest : List Record} {r : Record}

theorem stream_cons (r : Record) (rest : List Record) :
    stream (r :: rest) = r.frame.1 ++ (r.bodyBytes ++ stream rest) := by
  rw [← List.append_assoc]
  rfl

theorem length_stream_snoc (done : List Record) (r : Record) :
    (stream (done ++ [r])).length = (stream done).length + 48 + r.bodyBytes.length := by
  rw [stream_append, List.length_append, stream_singleton, length_bytes]
  omega

/-- The frame of the next record. -/
theorem take_frame : ((stream (done ++ r :: rest)).drop (stream done).length).take 48
    = r.frame.1 := by
  rw [stream_append, List.drop_left, stream_cons,
    List.take_append_of_le_length (Nat.le_of_eq r.frame.2.symm),
    List.take_of_length_le (Nat.le_of_eq r.frame.2)]

/-- The responses of the next record, from a place in them on. -/
theorem drop_body {sent : Nat} (h : sent ≤ r.bodyBytes.length) :
    (stream (done ++ r :: rest)).drop ((stream done).length + 48 + sent)
      = r.bodyBytes.drop sent ++ stream rest := by
  rw [stream_append, Nat.add_assoc, List.drop_append, List.drop_of_length_le (by omega),
    List.nil_append, Nat.add_sub_cancel_left, stream_cons, List.drop_append,
    List.drop_of_length_le (by rw [r.frame.2]; omega), List.nil_append, r.frame.2,
    Nat.add_sub_cancel_left, List.drop_append_of_le_length h]

/-- The tail stops at the end of the records behind, or behind the next frame. -/
theorem Stop.next {k : Nat} (h : Stop (done ++ rest) k) (hle : (stream done).length ≤ k) :
    k = (stream done).length ∨ (stream done).length + 48 ≤ k := by
  obtain ⟨recs₀, rest₀, heq, hk⟩ := h
  obtain ⟨x, rfl⟩ | ⟨x, rfl⟩ : recs₀ <+: done ∨ done <+: recs₀ :=
    List.prefix_or_prefix_of_prefix ⟨rest₀, heq.symm⟩ ⟨rest, rfl⟩
  · cases x with
    | nil => rw [List.append_nil] at hle ⊢; omega
    | cons r x =>
        rw [stream_append, stream_cons, List.length_append, List.length_append, r.frame.2] at hle ⊢
        omega
  · cases x with
    | nil => rw [List.append_nil] at hk; omega
    | cons r x =>
        rw [stream_append, stream_cons, List.length_append, List.length_append, r.frame.2] at hk
        omega

/-- The tail does not stop inside the responses of a record. -/
theorem Stop.next_body {k : Nat} (h : Stop (done ++ r :: rest) k)
    (hle : (stream done).length + 48 ≤ k) :
    k = (stream done).length + 48 ∨ (stream done).length + 48 + r.bodyBytes.length ≤ k := by
  obtain ⟨recs₀, rest₀, heq, hk⟩ := h
  obtain ⟨x, rfl⟩ | ⟨x, rfl⟩ : recs₀ <+: done ∨ done <+: recs₀ :=
    List.prefix_or_prefix_of_prefix ⟨rest₀, heq.symm⟩ ⟨r :: rest, rfl⟩
  · cases x with
    | nil => rw [List.append_nil] at hle ⊢; omega
    | cons r' x =>
        rw [stream_append, stream_cons, List.length_append, List.length_append, r'.frame.2] at hle
        omega
  · cases x with
    | nil => rw [List.append_nil] at hk; omega
    | cons r' x =>
        rw [List.append_assoc, List.append_cancel_left_eq, List.cons_append, List.cons.injEq] at heq
        obtain ⟨rfl, -⟩ := heq
        rw [stream_append, stream_cons, List.length_append, List.length_append, List.length_append,
          r.frame.2] at hk
        omega

end Record

/-! ### The pop of a header -/

namespace SPSCByteRing

/-- The consumer on its way to the 48 bytes behind `base`. -/
def PopOk (N c : UInt64) (out : List UInt8) (base taken seenTail : Nat) : Consumer → Prop
  | .idle | .held _ => taken = base
  | .popping len got n => len = 48 ∧ taken = base + got.length ∧
      got = (out.drop base).take got.length ∧ base + 48 ≤ seenTail ∧
      (got = [] → n = min 48 (N.toNat - cell N.toNat c base)) ∧
      (got ≠ [] → got.length + n = 48)
  | .popMore len got => len = 48 ∧ taken = base + got.length ∧
      got = (out.drop base).take got.length ∧ base + 48 ≤ seenTail ∧ got ≠ [] ∧
      got.length < 48 ∧ cell N.toNat c taken = 0

theorem PopOk.of_free {N c : UInt64} {out : List UInt8} {base taken seenTail : Nat}
    {p : Consumer} (h : PopOk N c out base taken seenTail p) (hfree : p.free = true) :
    taken = base := by
  cases p with
  | idle => exact h
  | held n => exact h
  | popping len got n => cases hfree
  | popMore len got => cases hfree

namespace Inv

variable {N c : UInt64} {j : Nat} {Q : Nat → Prop} {s s' : Threads} {out : List UInt8}
  {base taken seenHead seenTail view : Nat} {ev : Event}

/-- A step of `pop(48)` where the tail stops at `base` or 48 bytes behind it: it goes on, or it
finds nothing, or it gives the 48 bytes. -/
theorem popNext_spec (hN : N.toNat = 2 ^ j) (hsize : 48 ≤ N.toNat)
    (h : Inv N c Q s out taken seenHead seenTail)
    (hstop : ∀ k, Q k → base ≤ k → k = base ∨ base + 48 ≤ k)
    (hpop : PopOk N c out base taken seenTail s.consumer)
    (hstep : popNext N s 48 view = some (s', ev)) :
    ∃ taken' seenTail', seenTail ≤ seenTail' ∧ Inv N c Q s' out taken' seenHead seenTail' ∧
      ((ev = .quiet ∧ PopOk N c out base taken' seenTail' s'.consumer) ∨
        (ev = .popped 48 [] ∧ taken' = base ∧ s'.consumer = .idle) ∨
        (ev = .popped 48 ((out.drop base).take 48) ∧ taken' = base + 48 ∧ s'.consumer = .idle ∧
          base + 48 ≤ out.length)) := by
  have hcell := cell_lt (c := c) (size_pos hN) base
  cases hpc : s.consumer with
  | popping len got n =>
      simp only [popNext, hpc] at hstep
      rw [hpc] at hpop
      obtain ⟨rfl, rfl, hgot, hseen, hfirst, hsecond⟩ := hpop
      obtain ⟨len', got', n', hpc', hinv, hcase⟩ := h.popCopy_spec hN hstep
      rw [hpc] at hpc'
      obtain ⟨rfl, rfl, rfl⟩ := Consumer.popping.inj hpc'
      have hle := hinv.taken_le
      have htail := hinv.tail.le
      -- what is copied continues what was copied before
      have hgot' : got ++ (out.drop (base + got.length)).take n
          = (out.drop base).take (got.length + n) := by
        rw [List.take_add, ← hgot, List.drop_drop]
      have hlen : ((out.drop base).take (got.length + n)).length = got.length + n := by
        rw [List.length_take, List.length_drop]
        omega
      rw [hgot'] at hcase
      refine ⟨_, seenTail, Nat.le_refl _, hinv, ?_⟩
      obtain ⟨rfl, hmore, rfl, hcons⟩ | ⟨hlast, hcons, rfl⟩ := hcase
      · have hn := hfirst rfl
        simp only [List.length_nil, Nat.zero_add] at hlen hcons
        refine Or.inl ⟨rfl, ?_⟩
        rw [hcons]
        refine ⟨rfl, by rw [hlen]; rfl, by rw [hlen], hseen,
          List.ne_nil_of_length_pos (by omega), by omega, ?_⟩
        rw [show n = N.toNat - cell N.toNat c base by omega]
        exact cell_wrap (size_pos hN) base
      · have hall : got.length + n = 48 := by
          by_cases hnil : got = []
          · have hn := hfirst hnil
            have hnot : ¬(48 - n > 0) := fun hgt => hlast ⟨hnil, hgt⟩
            rw [hnil, List.length_nil]
            omega
          · exact hsecond hnil
        rw [hall]
        exact Or.inr (Or.inr ⟨rfl, by omega, hcons, by omega⟩)
  | popMore len got =>
      simp only [popNext, hpc] at hstep
      rw [hpc] at hpop
      obtain ⟨rfl, rfl, hgot, hseen, hne, hlt, hzero⟩ := hpop
      obtain ⟨len', got', k, n, hpc', hlow, hinv, hn, hcase⟩ := h.popAgain_load hN hstep
      rw [hpc] at hpc'
      obtain ⟨rfl, rfl⟩ := Consumer.popMore.inj hpc'
      rw [hzero] at hn
      obtain ⟨-, hcons, rfl⟩ | ⟨hnone, -⟩ := hcase
      · refine ⟨_, k, hlow, hinv, Or.inl ⟨rfl, ?_⟩⟩
        rw [hcons]
        exact ⟨rfl, rfl, hgot, by omega, fun h => absurd h hne, fun _ => by omega⟩
      · omega
  | _ =>
      have htaken : taken = base := hpop.of_free (by rw [hpc]; rfl)
      subst htaken
      simp only [popNext, hpc] at hstep
      obtain ⟨k, n, hlow, hinv, -, hn, hcase⟩ := h.pop_load hN hstep
      have hseen := hinv.seen
      obtain ⟨-, hcons, rfl⟩ | ⟨hpos, hcons, rfl⟩ := hcase
      · exact ⟨_, k, hlow, hinv, Or.inr (Or.inl ⟨rfl, rfl, hcons⟩)⟩
      · -- something is there, so the whole frame is
        have hthere := hstop k hinv.tail.2.1 hseen
        refine ⟨_, k, hlow, hinv, Or.inl ⟨rfl, ?_⟩⟩
        rw [hcons]
        exact ⟨rfl, rfl, rfl, by omega, fun _ => by omega, fun h => absurd rfl h⟩

end Inv

end SPSCByteRing

/-! ### The invariant of the Send thread -/

/-- The header of the first record before the thread is taken, and `sent` bytes of its
responses are released. -/
def SendPos.InBody (p : SendPos) (taken : Nat) (fd : UInt32) (need sent : Nat) : Prop :=
  ∃ done rest r, p = ⟨done, r :: rest, some sent⟩ ∧ fd = r.fd ∧ need = r.bodyBytes.length ∧
    sent < need ∧ taken = (Record.stream done).length + 48 + sent

/-- Of the `left` bytes of responses, all of which are in the ring, those up to the end of the
buffer are acquired. -/
structure Chunk (N c : UInt64) (taken seenTail left chunk : Nat) : Prop where
  pos : 0 < chunk
  eq : chunk = min left (N.toNat - cell N.toNat c taken)
  there : taken + left ≤ seenTail

namespace Chunk

variable {N c : UInt64} {taken seenTail left chunk : Nat}

theorem le (h : Chunk N c taken seenTail left chunk) : chunk ≤ left :=
  h.eq ▸ Nat.min_le_left _ _

theorem acquired {j : Nat} (hN : N.toNat = 2 ^ j) (h : Chunk N c taken seenTail left chunk) :
    Acquired N c taken seenTail chunk := by
  have heq := h.eq
  have hthere := h.there
  have hcell := cell_lt (c := c) (size_pos hN) taken
  exact ⟨by omega, by omega⟩

end Chunk

/-- Where the Send thread stands in the records. -/
def SendPhase.Ok (N c : UInt64) (out : List UInt8) (taken seenTail : Nat) (k : Consumer)
    (p : SendPos) : SendPhase → Prop
  | .top => p.mid = none ∧ PopOk N c out (Record.stream p.done).length taken seenTail k
  | .zc fd need remaining => k.free = true ∧ 0 < remaining ∧ remaining ≤ need ∧
      p.InBody taken fd need (need - remaining)
  | .zcSqe fd need remaining chunk | .zcWait fd need remaining chunk =>
      k.free = true ∧ Chunk N c taken seenTail remaining chunk ∧ remaining ≤ need ∧
      p.InBody taken fd need (need - remaining)
  | .plain fd need sent => k.free = true ∧ p.InBody taken fd need sent
  | .plainSend fd need sent chunk => k.free = true ∧
      Chunk N c taken seenTail (need - sent) chunk ∧ p.InBody taken fd need sent

/-- The ring, the Send thread and the records. -/
structure SendInv (N c : UInt64) (ring : Threads) (send : SendThread) (recs : List Record)
    (out : List UInt8) (taken seenHead seenTail : Nat) (p : SendPos) : Prop where
  inRing : Inv N c (Record.Stop recs) ring out taken seenHead seenTail
  isPrefix : out <+: Record.stream recs
  split : recs = p.done ++ p.rest
  inSend : send.phase.Ok N c out taken seenTail ring.consumer p

/-- The answers of the kernel that do not make the loop lose its place. The kernel has an entry
for the submission; a submission is only interrupted or, before anything was sent, not
supported; no completion says that zero-copy sends are not supported; and the connection only
fails on the plain path when what is left of the responses does not wrap. -/
def Steady (N : UInt64) (ring : Threads) (t : SendThread) (i : SendInput) : Prop :=
  match t.phase, i with
  | .zcSqe _ _ _ _, .sqe ok => ok = true
  | .zcWait _ need remaining _, .wait (.failed errno) =>
      errno = eintr ∨ unsupported errno = true ∧ remaining = need
  | .zcWait _ _ _ _, .wait (.cqes results) =>
      WaitResult.sent results < 0 → unsupported (WaitResult.sent results).natAbs = false
  | .plainSend _ need sent _, .sent (.sent n) =>
      n = 0 → offset N ring.head.latest + (need - sent) ≤ N.toNat
  | .plainSend _ need sent _, .sent (.failed errno) =>
      errno ≠ eagain → offset N ring.head.latest + (need - sent) ≤ N.toNat
  | _, _ => True

instance (N : UInt64) (ring : Threads) (t : SendThread) (i : SendInput) :
    Decidable (Steady N ring t i) := by
  unfold Steady
  split <;> infer_instance

/-- The connection does not fail. -/
def Lossless (t : SendThread) (i : SendInput) : Prop :=
  match t.phase, i with
  | .zcWait _ _ _ _, .wait (.cqes results) => 0 ≤ WaitResult.sent results
  | .plainSend _ _ _ _, .sent (.sent n) => 0 < n
  | .plainSend _ _ _ _, .sent (.failed errno) => errno = eagain
  | _, _ => True

instance (t : SendThread) (i : SendInput) : Decidable (Lossless t i) := by
  unfold Lossless
  split <;> infer_instance

namespace SendInv

variable {N c : UInt64} {j : Nat} {ring ring' : Threads} {t t' : SendThread} {i : SendInput}
variable {fd : UInt32} {sent need left chunk n remaining : Nat}
  {ev : SendEvent} {recs : List Record} {out : List UInt8} {taken seenHead seenTail : Nat}
  {p : SendPos}

/-- What a step of the Send thread comes to. -/
def Next (N c : UInt64) (ring' : Threads) (t t' : SendThread) (i : SendInput) (ev : SendEvent)
    (recs : List Record) (out : List UInt8) (seenHead seenTail : Nat) (p : SendPos) : Prop :=
  ∃ p' taken' seenTail', seenTail ≤ seenTail' ∧
    SendInv N c ring' t' recs out taken' seenHead seenTail' p' ∧
    (p.Move ev p' ∨ ¬Lossless t i ∧ p.Skip ev p')

/-- A step that leaves the thread where it is in the records. -/
theorem next_of_quiet {taken' seenTail' : Nat} (hle : seenTail ≤ seenTail')
    (hinv : SendInv N c ring' t' recs out taken' seenHead seenTail' p) :
    Next N c ring' t t' i .quiet recs out seenHead seenTail p :=
  ⟨p, taken', seenTail', hle, hinv, Or.inl (.quiet p)⟩

/-- What is acquired of a record is the next part of its responses. -/
theorem block_prefix (hN : N.toNat = 2 ^ j)
    (h : SendInv N c ring t recs out taken seenHead seenTail p)
    (hbody : p.InBody taken fd need sent) (hleft : left = need - sent)
    (hchunk : Chunk N c taken seenTail left chunk) :
    ∃ done rest r, p = ⟨done, r :: rest, some sent⟩ ∧ fd = r.fd ∧
      need = r.bodyBytes.length ∧ taken = (Record.stream done).length + 48 + sent ∧
      readBlock ring.buf (offset N ring.head.latest) chunk <+: r.bodyBytes.drop sent := by
  obtain ⟨done, rest, r, rfl, rfl, rfl, hlt, htaken⟩ := hbody
  refine ⟨done, rest, r, rfl, rfl, rfl, htaken, ?_⟩
  obtain ⟨more, hmore⟩ := h.isPrefix
  have hthere := hchunk.there
  have htail := h.inRing.tail.le
  have hle := hchunk.le
  rw [h.inRing.readBlock hN (hchunk.acquired hN) (Nat.le_refl _)]
  have hdrop : out.drop taken ++ more = r.bodyBytes.drop sent ++ Record.stream rest := by
    rw [← Record.drop_body (Nat.le_of_lt hlt), ← htaken, ← h.split, ← hmore,
      List.drop_append_of_le_length (by omega)]
  have htake := congrArg (List.take chunk) hdrop
  rw [List.take_append_of_le_length (by rw [List.length_drop]; omega),
    List.take_append_of_le_length (by rw [List.length_drop]; omega)] at htake
  rw [htake]
  exact List.take_prefix _ _

/-- The kernel took `n` bytes of what was passed. -/
theorem next_passed (hN : N.toNat = 2 ^ j)
    (h : SendInv N c ring t recs out taken seenHead seenTail p)
    (hbody : p.InBody taken fd need sent) (hleft : left = need - sent)
    (hchunk : Chunk N c taken seenTail left chunk) (hn : n ≤ chunk)
    (hmore : sent + n < need →
      t'.phase = .zc fd need (need - (sent + n)) ∨ t'.phase = .plain fd need (sent + n))
    (hdone : sent + n = need → t'.phase = .top) :
    Next N c (ring.readRelease n) t t' i
      (.passed fd (readBlock ring.buf (offset N ring.head.latest) chunk) n) recs out seenHead
      seenTail p := by
  obtain ⟨done, rest, r, rfl, rfl, rfl, rfl, hblock⟩ := h.block_prefix hN hbody hleft hchunk
  have hthere := hchunk.there
  have hle := hchunk.le
  have hsent : sent < r.bodyBytes.length := by
    obtain ⟨-, -, -, -, -, -, hlt, -⟩ := hbody
    exact hlt
  have hring : Inv N c (Record.Stop recs) (ring.readRelease n) out
      ((Record.stream done).length + 48 + sent + n) seenHead seenTail :=
    h.inRing.release (by omega) trivial
  have hlen : n ≤ (readBlock ring.buf (offset N ring.head.latest) chunk).length := by
    rwa [length_readBlock]
  by_cases hlt : sent + n < r.bodyBytes.length
  · have hpos : (SendPos.mk done (r :: rest) (some (sent + n))).InBody
        ((Record.stream done).length + 48 + sent + n) r.fd r.bodyBytes.length (sent + n) :=
      ⟨done, rest, r, rfl, rfl, rfl, hlt, by omega⟩
    refine ⟨⟨done, r :: rest, some (sent + n)⟩, _, seenTail, Nat.le_refl _,
      ⟨hring, h.isPrefix, h.split, ?_⟩, Or.inl (.pass hblock hlen hlt)⟩
    obtain hphase | hphase := hmore hlt
    · rw [hphase]
      exact ⟨rfl, by omega, by omega, by rwa [show r.bodyBytes.length -
        (r.bodyBytes.length - (sent + n)) = sent + n by omega]⟩
    · rw [hphase]
      exact ⟨rfl, hpos⟩
  · refine ⟨⟨done ++ [r], rest, none⟩, _, seenTail, Nat.le_refl _,
      ⟨hring, h.isPrefix, by rw [h.split]; simp, ?_⟩, Or.inl (.last hblock hlen (by omega))⟩
    rw [hdone (by omega)]
    refine ⟨rfl, ?_⟩
    show _ = (Record.stream (done ++ [r])).length
    rw [Record.length_stream_snoc]
    omega

/-- The connection failed, and the rest of the record is released. -/
theorem next_skipped (hN : N.toNat = 2 ^ j)
    (h : SendInv N c ring t recs out taken seenHead seenTail p)
    (hbody : p.InBody taken fd need sent) (hleft : left = need - sent)
    (hchunk : Chunk N c taken seenTail left chunk) (hphase : t'.phase = .top)
    (hloss : ¬Lossless t i) :
    Next N c (ring.readRelease left) t t' i
      (.passed fd (readBlock ring.buf (offset N ring.head.latest) chunk) 0) recs out seenHead
      seenTail p := by
  obtain ⟨done, rest, r, rfl, rfl, rfl, rfl, hblock⟩ := h.block_prefix hN hbody hleft hchunk
  have hsent : sent < r.bodyBytes.length := by
    obtain ⟨-, -, -, -, -, -, hlt, -⟩ := hbody
    exact hlt
  refine ⟨⟨done ++ [r], rest, none⟩, _, seenTail, Nat.le_refl _,
    ⟨h.inRing.release hchunk.there trivial, h.isPrefix, by rw [h.split]; simp, ?_⟩,
    Or.inr ⟨hloss, .mk hblock⟩⟩
  rw [hphase]
  refine ⟨rfl, ?_⟩
  show _ = (Record.stream (done ++ [r])).length
  rw [Record.length_stream_snoc]
  omega

/-! ### The steps of the Send thread -/

/-- What the loop makes of the frame of a record. -/
theorem dispatch_frame (t : SendThread) (r : Record) :
    (r.body = [] ∧ (t.dispatch r.frame.1).phase = .top) ∨
      (r.body ≠ [] ∧ 0 < r.bodyBytes.length ∧
        ((t.dispatch r.frame.1).phase = .zc r.fd r.bodyBytes.length r.bodyBytes.length ∨
          (t.dispatch r.frame.1).phase = .plain r.fd r.bodyBytes.length 0)) := by
  have hlen := r.length_bodyBytes
  obtain ⟨htype, hcount⟩ | ⟨htype, hnil⟩ := r.complete
  · have hne : ¬ResponseBytes.rspHeader = ResponseBytes.rspClose := by decide
    by_cases hnil : r.body = []
    · refine Or.inl ⟨hnil, ?_⟩
      rw [hnil, List.length_nil] at hcount
      simp [SendThread.dispatch, htype, hne, hcount, SendThread.plainLoop]
    · have hpos := List.length_pos_of_ne_nil hnil
      refine Or.inr ⟨hnil, by omega, ?_⟩
      simp only [SendThread.dispatch, htype, hne, if_false, ne_eq, not_true_eq_false, hcount,
        ← hlen]
      split
      · exact Or.inl (if_pos (by omega))
      · exact Or.inr (if_pos (by omega))
  · exact Or.inl ⟨hnil, by simp [SendThread.dispatch, htype]⟩

/-- Bytes behind the records that are done are the frame of the next one. -/
theorem frame_eq {done rest : List Record} (hpre : out <+: Record.stream (done ++ rest))
    (hthere : (Record.stream done).length + 48 ≤ out.length) :
    ∃ r rest', rest = r :: rest' ∧
      (out.drop (Record.stream done).length).take 48 = r.frame.1 := by
  obtain ⟨more, hmore⟩ := hpre
  cases rest with
  | nil =>
      have hlen := congrArg List.length hmore
      rw [List.append_nil, List.length_append] at hlen
      omega
  | cons r rest =>
      refine ⟨r, rest, rfl, ?_⟩
      rw [← @Record.take_frame done rest r, ← hmore,
        List.drop_append_of_le_length (by omega),
        List.take_append_of_le_length (by rw [List.length_drop]; omega)]

/-- The pop of a header. -/
theorem next_top (hN : N.toNat = 2 ^ j) (hsize : 48 ≤ N.toNat)
    (h : SendInv N c ring t recs out taken seenHead seenTail p) (hphase : t.phase = .top)
    (hstep : sendStep N ring t i = some (ring', t', ev)) :
    Next N c ring' t t' i ev recs out seenHead seenTail p := by
  have hsend := h.inSend
  rw [hphase] at hsend
  obtain ⟨hmid, hpop⟩ := hsend
  cases i with
  | next view =>
      simp only [NebulaX.sendStep, hphase, Option.map_eq_some_iff] at hstep
      obtain ⟨⟨s', e⟩, hnext, heq⟩ := hstep
      obtain ⟨taken', seenTail', hle, hinv, ⟨rfl, hpop'⟩ | ⟨rfl, htaken, hcons⟩ |
          ⟨rfl, htaken, hcons, hthere⟩⟩ :=
        h.inRing.popNext_spec hN hsize (fun k hk => (h.split ▸ hk).next) hpop hnext
      · obtain ⟨rfl, rfl, rfl⟩ : s' = ring' ∧ t = t' ∧ SendEvent.quiet = ev := by
          simpa using heq
        exact next_of_quiet hle ⟨hinv, h.isPrefix, h.split, by rw [hphase]; exact ⟨hmid, hpop'⟩⟩
      · obtain ⟨rfl, rfl, rfl⟩ : s' = ring' ∧ t = t' ∧ SendEvent.quiet = ev := by
          simpa using heq
        refine next_of_quiet hle ⟨hinv, h.isPrefix, h.split, ?_⟩
        rw [hphase, hcons]
        exact ⟨hmid, htaken⟩
      · obtain ⟨done, rest, mid⟩ := p
        obtain rfl : mid = none := hmid
        obtain ⟨r, rest, rfl, hframe⟩ := frame_eq (h.split ▸ h.isPrefix) hthere
        rw [hframe] at heq
        have hne : r.frame.1 ≠ [] := List.ne_nil_of_length_pos (by rw [r.frame.2]; decide)
        simp only [hne, if_false, Prod.mk.injEq] at heq
        obtain ⟨rfl, rfl, rfl⟩ := heq
        obtain ⟨hnil, hphase'⟩ | ⟨hbody, hpos, hphase'⟩ := dispatch_frame t r
        · refine ⟨⟨done ++ [r], rest, none⟩, taken', seenTail', hle,
            ⟨hinv, h.isPrefix, by rw [h.split]; simp, ?_⟩, Or.inl (.empty hnil)⟩
          rw [hphase', hcons]
          refine ⟨rfl, ?_⟩
          show taken' = (Record.stream (done ++ [r])).length
          rw [Record.length_stream_snoc, r.length_bodyBytes, hnil]
          exact htaken
        · refine ⟨⟨done, r :: rest, some 0⟩, taken', seenTail', hle,
            ⟨hinv, h.isPrefix, h.split, ?_⟩, Or.inl (.header hbody)⟩
          have hin : (SendPos.mk done (r :: rest) (some 0)).InBody taken' r.fd
              r.bodyBytes.length 0 := ⟨done, rest, r, rfl, rfl, rfl, hpos, htaken⟩
          obtain hphase' | hphase' := hphase'
          · rw [hphase', hcons]
            exact ⟨rfl, hpos, Nat.le_refl _, by rwa [Nat.sub_self]⟩
          · rw [hphase', hcons]
            exact ⟨rfl, hin⟩
  | _ => simp [NebulaX.sendStep, hphase] at hstep

/-- The `read_acquire` of either path. -/
theorem acquire_chunk {view : Nat} {e : Event} (hN : N.toNat = 2 ^ j)
    (h : SendInv N c ring t recs out taken seenHead seenTail p)
    (hbody : p.InBody taken fd need sent) (hleft : left = need - sent)
    (hstep : SPSCByteRing.step N ring (.acquire left view) = some (ring', e)) :
    ∃ k chunk, seenTail ≤ k ∧ Inv N c (Record.Stop recs) ring' out taken seenHead k ∧
      e = .acquired chunk ∧ ring'.consumer.free = true ∧
      (chunk ≠ 0 → Chunk N c taken k left chunk) := by
  obtain ⟨k, chunk, hlow, hinv, -, hchunk, hcons, rfl⟩ := h.inRing.acquire_load hN hstep
  refine ⟨k, chunk, hlow, hinv, rfl, by rw [hcons]; rfl, fun hne => ?_⟩
  -- the tail stands at the end of the responses or behind it
  obtain ⟨done, rest, r, rfl, -, rfl, hlt, htaken⟩ := hbody
  have hseen := hinv.seen
  have hsplit : recs = done ++ r :: rest := h.split
  have hstop : Record.Stop recs k := hinv.tail.2.1
  rw [hsplit] at hstop
  have hend := hstop.next_body (by omega)
  exact ⟨Nat.pos_of_ne_zero hne, by omega, by omega⟩

/-- The loop of `send_zc_all` acquires bytes. -/
theorem next_zc (hN : N.toNat = 2 ^ j) (h : SendInv N c ring t recs out taken seenHead seenTail p)
    (hphase : t.phase = .zc fd need remaining)
    (hstep : sendStep N ring t i = some (ring', t', ev)) :
    Next N c ring' t t' i ev recs out seenHead seenTail p := by
  have hsend := h.inSend
  rw [hphase] at hsend
  obtain ⟨-, hpos, hle, hbody⟩ := hsend
  cases i with
  | next view =>
      simp only [NebulaX.sendStep, hphase, Option.map_eq_some_iff] at hstep
      obtain ⟨⟨s', e⟩, hacq, heq⟩ := hstep
      obtain ⟨k, chunk, hlow, hinv, rfl, hfree, hchunk⟩ :=
        h.acquire_chunk hN hbody (by omega) hacq
      simp only [Prod.mk.injEq] at heq
      obtain ⟨rfl, rfl, rfl⟩ := heq
      refine next_of_quiet hlow ⟨hinv, h.isPrefix, h.split, ?_⟩
      split
      · rw [hphase]
        exact ⟨hfree, hpos, hle, hbody⟩
      · rename_i hne
        exact ⟨hfree, hchunk hne, hle, hbody⟩
  | _ => simp [NebulaX.sendStep, hphase] at hstep

/-- The plain path acquires bytes. -/
theorem next_plain (hN : N.toNat = 2 ^ j)
    (h : SendInv N c ring t recs out taken seenHead seenTail p)
    (hphase : t.phase = .plain fd need sent) (hstep : sendStep N ring t i = some (ring', t', ev)) :
    Next N c ring' t t' i ev recs out seenHead seenTail p := by
  have hsend := h.inSend
  rw [hphase] at hsend
  obtain ⟨-, hbody⟩ := hsend
  cases i with
  | next view =>
      simp only [NebulaX.sendStep, hphase, Option.map_eq_some_iff] at hstep
      obtain ⟨⟨s', e⟩, hacq, heq⟩ := hstep
      obtain ⟨k, chunk, hlow, hinv, rfl, hfree, hchunk⟩ := h.acquire_chunk hN hbody rfl hacq
      simp only [Prod.mk.injEq] at heq
      obtain ⟨rfl, rfl, rfl⟩ := heq
      refine next_of_quiet hlow ⟨hinv, h.isPrefix, h.split, ?_⟩
      split
      · rw [hphase]
        exact ⟨hfree, hbody⟩
      · rename_i hne
        exact ⟨hfree, hchunk hne, hbody⟩
  | _ => simp [NebulaX.sendStep, hphase] at hstep

/-- `io_uring_get_sqe` has an entry. -/
theorem next_zcSqe (h : SendInv N c ring t recs out taken seenHead seenTail p)
    (hphase : t.phase = .zcSqe fd need remaining chunk) (hsteady : Steady N ring t i)
    (hstep : sendStep N ring t i = some (ring', t', ev)) :
    Next N c ring' t t' i ev recs out seenHead seenTail p := by
  have hsend := h.inSend
  rw [hphase] at hsend
  cases i with
  | sqe ok =>
      simp only [Steady, hphase] at hsteady
      subst hsteady
      simp only [NebulaX.sendStep, hphase, if_true, Option.some.injEq, Prod.mk.injEq] at hstep
      obtain ⟨rfl, rfl, rfl⟩ := hstep
      exact next_of_quiet (Nat.le_refl _) ⟨h.inRing, h.isPrefix, h.split, hsend⟩
  | _ => simp [NebulaX.sendStep, hphase] at hstep

/-- A failed submission: it is tried again, or the thread changes to the plain path with
nothing sent. -/
theorem next_waitFailed {errno : Nat} (hN : N.toNat = 2 ^ j)
    (h : SendInv N c ring t recs out taken seenHead seenTail p)
    (hphase : t.phase = .zcWait fd need remaining chunk)
    (hsteady : Steady N ring t (.wait (.failed errno)))
    (hstep : sendStep N ring t (.wait (.failed errno)) = some (ring', t', ev)) :
    Next N c ring' t t' (.wait (.failed errno)) ev recs out seenHead seenTail p := by
  have hsend := h.inSend
  rw [hphase] at hsend
  obtain ⟨hfree, hchunk, hle, hbody⟩ := hsend
  simp only [Steady, hphase] at hsteady
  simp only [NebulaX.sendStep, hphase] at hstep
  split at hstep
  · simp only [Option.some.injEq, Prod.mk.injEq] at hstep
    obtain ⟨rfl, rfl, rfl⟩ := hstep
    exact next_of_quiet (Nat.le_refl _) h
  · rename_i hne
    obtain ⟨hunsup, rfl⟩ := hsteady.resolve_left hne
    simp only [SendThread.afterError, hunsup, if_true, Option.some.injEq, Prod.mk.injEq] at hstep
    obtain ⟨rfl, rfl, rfl⟩ := hstep
    rw [Nat.sub_self] at hbody
    obtain ⟨done, rest, r, rfl, rfl, rfl, htaken, hblock⟩ :=
      h.block_prefix hN hbody rfl hchunk
    have hpos : 0 < r.bodyBytes.length := by
      obtain ⟨-, -, -, -, -, -, hlt, -⟩ := hbody
      exact hlt
    refine ⟨_, taken, seenTail, Nat.le_refl _, ⟨h.inRing, h.isPrefix, h.split, ?_⟩,
      Or.inl (.pass hblock (Nat.zero_le _) hpos)⟩
    rw [SendThread.plainLoop, if_pos hpos]
    exact ⟨hfree, hbody⟩

/-- Completions: none that counts, a number of bytes, or an error of the connection. -/
theorem next_waitCqes {results : List Int} (hN : N.toNat = 2 ^ j)
    (h : SendInv N c ring t recs out taken seenHead seenTail p)
    (hphase : t.phase = .zcWait fd need remaining chunk)
    (hsteady : Steady N ring t (.wait (.cqes results)))
    (hstep : sendStep N ring t (.wait (.cqes results)) = some (ring', t', ev)) :
    Next N c ring' t t' (.wait (.cqes results)) ev recs out seenHead seenTail p := by
  have hsend := h.inSend
  rw [hphase] at hsend
  obtain ⟨hfree, hchunk, hle, hbody⟩ := hsend
  have hleft : remaining = need - (need - remaining) := by omega
  have hcle := hchunk.le
  simp only [Steady, hphase] at hsteady
  simp only [NebulaX.sendStep, hphase] at hstep
  split at hstep
  · simp only [Option.some.injEq, Prod.mk.injEq] at hstep
    obtain ⟨rfl, rfl, rfl⟩ := hstep
    exact next_of_quiet (Nat.le_refl _) h
  · split at hstep
    · rename_i hneg
      have hloss : ¬Lossless t (.wait (.cqes results)) := by
        simp only [Lossless, hphase]
        omega
      simp only [SendThread.afterError, hsteady hneg, Option.some.injEq, Prod.mk.injEq] at hstep
      obtain ⟨rfl, rfl, rfl⟩ := hstep
      exact h.next_skipped hN hbody hleft hchunk rfl hloss
    · split at hstep
      · rename_i hzero hpos hfit
        simp only [Option.some.injEq, Prod.mk.injEq] at hstep
        obtain ⟨rfl, rfl, rfl⟩ := hstep
        refine h.next_passed hN hbody hleft hchunk hfit (fun hlt => Or.inl ?_) fun heq => ?_
        · rw [show need - (need - remaining + (WaitResult.sent results).toNat)
            = remaining - (WaitResult.sent results).toNat by omega]
          exact if_pos (by omega)
        · exact if_neg (by omega)
      · cases hstep

/-- What `send` answers on the plain path. -/
theorem next_plainSend (hN : N.toNat = 2 ^ j)
    (h : SendInv N c ring t recs out taken seenHead seenTail p)
    (hphase : t.phase = .plainSend fd need sent chunk) (hsteady : Steady N ring t i)
    (hstep : sendStep N ring t i = some (ring', t', ev)) :
    Next N c ring' t t' i ev recs out seenHead seenTail p := by
  have hsend := h.inSend
  rw [hphase] at hsend
  obtain ⟨hfree, hchunk, hbody⟩ := hsend
  have hcle := hchunk.le
  -- a failure releases the chunk, which is all that is left
  have hskip (hfit : offset N ring.head.latest + (need - sent) ≤ N.toNat)
      (hloss : ¬Lossless t i) : Next N c (ring.readRelease chunk) t { t with phase := .top } i
        (.passed fd (readBlock ring.buf (offset N ring.head.latest) chunk) 0) recs out seenHead
        seenTail p := by
    have heq := hchunk.eq
    rw [h.inRing.head.latest, offset_count hN] at hfit
    obtain rfl : chunk = need - sent := by omega
    exact h.next_skipped hN hbody rfl hchunk rfl hloss
  cases i with
  | sent r =>
      cases r with
      | sent n =>
          simp only [NebulaX.sendStep, hphase] at hstep
          split at hstep
          · rename_i hzero
            simp only [Option.some.injEq, Prod.mk.injEq] at hstep
            obtain ⟨rfl, rfl, rfl⟩ := hstep
            simp only [Steady, hphase] at hsteady
            exact hskip (hsteady hzero) (by simp only [Lossless, hphase]; omega)
          · split at hstep
            · rename_i hfit
              simp only [Option.some.injEq, Prod.mk.injEq] at hstep
              obtain ⟨rfl, rfl, rfl⟩ := hstep
              exact h.next_passed hN hbody rfl hchunk hfit
                (fun hlt => Or.inr (if_pos hlt)) fun heq => if_neg (by omega)
            · cases hstep
      | failed errno =>
          simp only [NebulaX.sendStep, hphase] at hstep
          split at hstep
          · simp only [Option.some.injEq, Prod.mk.injEq] at hstep
            obtain ⟨rfl, rfl, rfl⟩ := hstep
            obtain ⟨done, rest, r, rfl, rfl, rfl, htaken, hblock⟩ :=
              h.block_prefix hN hbody rfl hchunk
            have hlt : sent + 0 < r.bodyBytes.length := by
              obtain ⟨-, -, -, -, -, -, hlt, -⟩ := hbody
              exact hlt
            exact ⟨_, taken, seenTail, Nat.le_refl _, ⟨h.inRing, h.isPrefix, h.split, hfree, hbody⟩,
              Or.inl (.pass hblock (Nat.zero_le _) hlt)⟩
          · rename_i hne
            simp only [Option.some.injEq, Prod.mk.injEq] at hstep
            obtain ⟨rfl, rfl, rfl⟩ := hstep
            simp only [Steady, hphase] at hsteady
            exact hskip (hsteady hne) (by simp only [Lossless, hphase]; exact hne)
  | _ => simp [NebulaX.sendStep, hphase] at hstep

/-- Every step of the Send thread follows the records. -/
protected theorem sendStep (hN : N.toNat = 2 ^ j) (hsize : 48 ≤ N.toNat)
    (h : SendInv N c ring t recs out taken seenHead seenTail p) (hsteady : Steady N ring t i)
    (hstep : sendStep N ring t i = some (ring', t', ev)) :
    Next N c ring' t t' i ev recs out seenHead seenTail p := by
  cases hphase : t.phase with
  | top => exact h.next_top hN hsize hphase hstep
  | zc fd need remaining => exact h.next_zc hN hphase hstep
  | zcSqe fd need remaining chunk => exact h.next_zcSqe hphase hsteady hstep
  | zcWait fd need remaining chunk =>
      cases i with
      | wait w =>
          cases w with
          | failed errno => exact h.next_waitFailed hN hphase hsteady hstep
          | cqes results => exact h.next_waitCqes hN hphase hsteady hstep
      | _ => simp [NebulaX.sendStep, hphase] at hstep
  | plain fd need sent => exact h.next_plain hN hphase hstep
  | plainSend fd need sent chunk => exact h.next_plainSend hN hphase hsteady hstep

end SendInv

/-! ### What each iteration of the loop did -/

/-- Bytes passed to the kernel for a connection, and how many of them it took. -/
structure SendCall where
  fd : UInt32
  bytes : List UInt8
  taken : Nat
  deriving DecidableEq

/-- The bytes the kernel took. -/
def SendCall.written (calls : List SendCall) : List UInt8 :=
  (calls.map fun call => call.bytes.take call.taken).flatten

/-- An iteration of the loop that took a header. -/
structure Iteration where
  hdr : List UInt8
  calls : List SendCall := []
  deriving DecidableEq

namespace Iteration

/-- The iterations, the latest first, after one more event. -/
def note (its : List Iteration) : SendEvent → List Iteration
  | .quiet => its
  | .header hdr => { hdr } :: its
  | .passed fd bytes n =>
      match its with
      | [] => []
      | it :: its => { it with calls := it.calls ++ [⟨fd, bytes, n⟩] } :: its

/-- The iteration is about `r`: it took its frame, and every call passes bytes to its
connection that continue what was taken before, in its responses. -/
def Sends (it : Iteration) (r : Record) : Prop :=
  it.hdr = r.frame.1 ∧ ∀ i call, it.calls[i]? = some call → call.fd = r.fd ∧
    SendCall.written (it.calls.take i) ++ call.bytes <+: r.bodyBytes

variable {r : Record} {bytes : List UInt8} {sent n : Nat}

theorem Sends.snoc {it : Iteration} (h : it.Sends r)
    (hsent : SendCall.written it.calls = r.bodyBytes.take sent)
    (hbytes : bytes <+: r.bodyBytes.drop sent) :
    ({ it with calls := it.calls ++ [⟨r.fd, bytes, n⟩] } : Iteration).Sends r := by
  refine ⟨h.1, fun i call hcall => ?_⟩
  rcases Nat.lt_or_ge i it.calls.length with hlt | hge
  · simp only [List.getElem?_append_left hlt] at hcall
    simp only [List.take_append_of_le_length (Nat.le_of_lt hlt)]
    exact h.2 i call hcall
  · simp only [List.getElem?_append_right hge] at hcall
    obtain ⟨hi, rfl⟩ : i - it.calls.length = 0 ∧ SendCall.mk r.fd bytes n = call := by
      cases hd : i - it.calls.length with
      | zero => simpa [hd] using hcall
      | succ d => simp [hd] at hcall
    refine ⟨rfl, ?_⟩
    simp only [List.take_append_of_le_length (show i ≤ it.calls.length by omega)]
    rw [List.take_of_length_le hge, hsent]
    obtain ⟨more, hmore⟩ := hbytes
    exact ⟨more, by rw [List.append_assoc, hmore, List.take_append_drop]⟩

/-- The bytes taken after one more call. -/
theorem written_snoc {calls : List SendCall}
    (hsent : SendCall.written calls = r.bodyBytes.take sent)
    (hbytes : bytes <+: r.bodyBytes.drop sent) (hn : n ≤ bytes.length) :
    SendCall.written (calls ++ [⟨r.fd, bytes, n⟩]) = r.bodyBytes.take (sent + n) := by
  obtain ⟨more, hmore⟩ := hbytes
  rw [List.take_add, ← hmore, List.take_append_of_le_length hn, ← hsent]
  simp [SendCall.written]

/-- The iterations and where the thread is in the records. -/
def Logs (its : List Iteration) (p : SendPos) : Prop :=
  match p.mid with
  | none => List.Forall₂ Sends its.reverse p.done
  | some sent => ∃ it older r rest, its = it :: older ∧ p.rest = r :: rest ∧ it.Sends r ∧
      SendCall.written it.calls = r.bodyBytes.take sent ∧ List.Forall₂ Sends older.reverse p.done

/-- A record is done. -/
theorem Logs.finish {it : Iteration} {older : List Iteration} {done rest : List Record}
    (h : List.Forall₂ Sends older.reverse done) (hit : it.Sends r) :
    Logs (it :: older) ⟨done ++ [r], rest, none⟩ := by
  show List.Forall₂ Sends (it :: older).reverse (done ++ [r])
  rw [List.reverse_cons]
  exact List.rel_append h (.cons hit .nil)

theorem Logs.move {its : List Iteration} {p p' : SendPos} {ev : SendEvent} (h : Logs its p)
    (hmove : p.Move ev p') : Logs (note its ev) p' := by
  cases hmove with
  | quiet => exact h
  | empty hr => exact Logs.finish h ⟨rfl, by simp⟩
  | header hr =>
      exact ⟨_, _, _, _, rfl, rfl, ⟨rfl, by simp⟩, rfl, h⟩
  | pass hbytes hn hmore =>
      obtain ⟨it, older, r, rest, rfl, heq, hit, hsent, hold⟩ := h
      obtain ⟨rfl, rfl⟩ := List.cons.inj heq
      exact ⟨_, older, _, _, rfl, rfl, hit.snoc hsent hbytes, written_snoc hsent hbytes hn, hold⟩
  | last hbytes hn hdone =>
      obtain ⟨it, older, r, rest, rfl, heq, hit, hsent, hold⟩ := h
      obtain ⟨rfl, rfl⟩ := List.cons.inj heq
      exact Logs.finish hold (hit.snoc hsent hbytes)

theorem Logs.skip {its : List Iteration} {p p' : SendPos} {ev : SendEvent} (h : Logs its p)
    (hskip : p.Skip ev p') : Logs (note its ev) p' := by
  cases hskip with
  | mk hbytes =>
      obtain ⟨it, older, r, rest, rfl, heq, hit, hsent, hold⟩ := h
      obtain ⟨rfl, rfl⟩ := List.cons.inj heq
      exact Logs.finish hold (hit.snoc hsent hbytes)

end Iteration

/-! ### Every run -/

namespace SendSide

/-- The iterations of a run that took a header, the latest first. -/
def latest (h : List (SendInput × SendEvent)) : List Iteration :=
  h.foldl (fun its x => Iteration.note its x.2) []

/-- The iterations of a run that took a header, in order. -/
def iterations (h : List (SendInput × SendEvent)) : List Iteration := (latest h).reverse

theorem latest_snoc (h : List (SendInput × SendEvent)) (i : SendInput) (ev : SendEvent) :
    latest (h ++ [(i, ev)]) = Iteration.note (latest h) ev := by
  rw [latest, List.foldl_append]
  rfl

theorem length_content (N : UInt64) (buf : Nat → UInt8) (head tail : UInt64) :
    (content N buf head tail).length = (tail - head).toNat := by
  rw [content, List.length_map, List.length_range]

/-- A ring at rest that holds records. -/
theorem start_inv {N : UInt64} {j : Nat} (hN : N.toNat = 2 ^ j) {buf : Nat → UInt8}
    {head tail : UInt64} {recs : List Record} (zcOk : Bool)
    (hused : (tail - head).toNat ≤ N.toNat)
    (hcontent : content N buf head tail = Record.stream recs) :
    SendInv N head (start buf head tail zcOk).ring (start buf head tail zcOk).send recs
      (Record.stream recs) 0 0 (Record.stream recs).length ⟨[], recs, none⟩ := by
  have hlen := length_content N buf head tail
  rw [hcontent] at hlen
  have htail : tail = count head (Record.stream recs).length := by
    rw [hlen, count, UInt64.ofNat_toNat, UInt64.add_comm, UInt64.sub_add_cancel]
  refine ⟨⟨?_, ?_, by omega, Nat.zero_le _, ?_, trivial, trivial⟩, List.prefix_refl _, rfl, rfl,
    rfl⟩
  · have hinit := Register.tracks_init (Q := fun _ => True) (n := 0) (count head) trivial
    rwa [count_zero] at hinit
  · have hinit := Register.tracks_init (count head) (Record.stop_stream recs)
    rwa [← htail] at hinit
  · intro i _ hi
    have hi' : i < (content N buf head tail).length := by rwa [hcontent]
    rw [← hcontent, List.getD_eq_getElem?_getD, List.getElem?_eq_getElem hi', Option.getD_some]
    simp only [content, List.getElem_map, List.getElem_range]
    rw [← offset_count hN]
    rfl

/-- **The Send thread keeps its place.** The ring is at rest and holds records, at any offset,
and the kernel gives none of the answers that `Steady` rules out. Then in every state reached
each iteration that took a header took the frame of its record and passed to the connection of
that record only, and only bytes that continue its responses; and when the thread is between
two iterations, the head is at the end of the last record that was begun. -/
theorem send_follows_records {buf : Nat → UInt8} {head tail : UInt64} {recs : List Record}
    {zcOk : Bool} (hused : (tail - head).toNat ≤ ringSize.toNat)
    (hcontent : content ringSize buf head tail = Record.stream recs)
    {h : List (SendInput × SendEvent)} {s : SendSide}
    (t : Trace (step ringSize) (fun _ s i => Steady ringSize s.ring s.send i)
      (start buf head tail zcOk) h s) :
    ∃ begun rest, recs = begun ++ rest ∧ List.Forall₂ Iteration.Sends (iterations h) begun ∧
      (s.send.phase = .top → s.ring.consumer.free = true →
        s.ring.head.latest = head + UInt64.ofNat (Record.stream begun).length) := by
  obtain ⟨p, taken, seenTail, hinv, hlog⟩ : ∃ p taken seenTail,
      SendInv ringSize head s.ring s.send recs (Record.stream recs) taken 0 seenTail p ∧
      Iteration.Logs (latest h) p := by
    refine t.invariant (fun h s => ∃ p taken seenTail,
      SendInv ringSize head s.ring s.send recs (Record.stream recs) taken 0 seenTail p ∧
      Iteration.Logs (latest h) p)
      ⟨⟨[], recs, none⟩, 0, _, start_inv ringSize_pow zcOk hused hcontent, List.Forall₂.nil⟩ ?_
    rintro h s i s' ev - ⟨p, taken, seenTail, hinv, hlog⟩ hsteady hstep
    obtain ⟨⟨ring, send, ev'⟩, hsend, heq⟩ := Option.map_eq_some_iff.mp hstep
    obtain ⟨rfl, rfl⟩ := Prod.mk.inj heq
    obtain ⟨p', taken', seenTail', -, hinv', hmove⟩ :=
      hinv.sendStep ringSize_pow (by decide) hsteady hsend
    refine ⟨p', taken', seenTail', hinv', ?_⟩
    rw [latest_snoc]
    obtain hmove | ⟨-, hskip⟩ := hmove
    · exact hlog.move hmove
    · exact hlog.skip hskip
  obtain ⟨done, rest, mid⟩ := p
  cases mid with
  | none =>
      refine ⟨done, rest, hinv.split, hlog, fun hphase hfree => ?_⟩
      have hsend := hinv.inSend
      rw [hphase] at hsend
      rw [hinv.inRing.head.latest, hsend.2.of_free hfree]
      rfl
  | some sent =>
      -- the record the thread is in counts as begun, and the thread is not between iterations
      obtain ⟨it, older, r, rest', hits, rfl, hit, -, hold⟩ := hlog
      refine ⟨done ++ [r], rest', by rw [hinv.split]; simp, ?_, fun hphase => ?_⟩
      · rw [iterations, hits]
        have hlog : Iteration.Logs _ ⟨_, [], none⟩ := Iteration.Logs.finish hold hit
        exact hlog
      · have hsend := hinv.inSend
        rw [hphase] at hsend
        cases hsend.1

/-- The count of a header with one byte of it set. -/
theorem count_of_byte {n : Nat} (hn : n < 256) : (ResponseBytes.count
    ([0x87] ++ List.replicate 11 0 ++ [UInt8.ofNat n] ++ List.replicate 35 0)).toNat = n := by
  show (UInt32.ofNat (ofLe [UInt8.ofNat n, 0, 0, 0])).toNat = n
  simp only [ofLe, UInt8.toNat_ofNat_of_lt' (show n < UInt8.size from hn)]
  rw [UInt32.toNat_ofNat_of_lt' (by simp [UInt32.size]; omega)]
  simp

/-- A record for connection 0 with `n` responses, all bytes of which are 0. -/
def zeros (n : Nat) (hn : n < 256) : Record where
  frame := ⟨[0x87] ++ List.replicate 11 0 ++ [UInt8.ofNat n] ++ List.replicate 35 0, rfl⟩
  body := List.replicate n ⟨List.replicate 48 0, rfl⟩
  complete := Or.inl ⟨rfl, (count_of_byte hn).trans List.length_replicate.symm⟩

/-- One response that wraps, sent in two parts. -/
theorem send_follows_records_wrap : ∃ h s, Trace (step ringSize)
      (fun _ s i => Steady ringSize s.ring s.send i)
      (start (fun i => if i = 8388536 then 0x87 else if i = 8388548 then 1 else 0) 8388536 8388632
        true) h s ∧
    (iterations h).map (fun it => it.calls.map fun call => call.taken) = [[24, 0, 24]] ∧
    ∃ begun rest, [zeros 1 (by decide)] = begun ++ rest ∧
      List.Forall₂ Iteration.Sends (iterations h) begun ∧
      (s.send.phase = .top → s.ring.consumer.free = true →
        s.ring.head.latest = 8388536 + UInt64.ofNat (Record.stream begun).length) := by
  let acts : List SendInput := [.next 0, .next 0, .next 0, .sent (.sent 24), .next 0,
    .sent (.failed 11), .next 0, .sent (.sent 24)]
  have hrun : (checked (fun _ s i => Steady ringSize s.ring s.send i) (step ringSize) []
      (start (fun i => if i = 8388536 then 0x87 else if i = 8388548 then 1 else 0) 8388536 8388632
        true) acts).map
        (fun r => (iterations r.2).map fun it => it.calls.map fun call => call.taken) =
      some [[24, 0, 24]] := by decide +kernel
  obtain ⟨⟨s, h⟩, hrun, hcalls⟩ := Option.map_eq_some_iff.mp hrun
  have t := Trace.of_checked .nil hrun
  exact ⟨_, s, t, hcalls, send_follows_records (by decide) (by decide +kernel) t⟩

/-- Two responses, the second of which is behind the wrap, to a connection that is gone. The
loop releases the first one only and takes the second one for a header. -/
theorem send_error_misaligns : ∃ (buf : Nat → UInt8) (h : List (SendInput × SendEvent))
    (s : SendSide), content ringSize buf 8388512 8388656 = Record.stream [zeros 2 (by decide)] ∧
    Trace (step ringSize) (fun _ _ _ => True) (start buf 8388512 8388656 true) h s ∧
    (iterations h).map Iteration.hdr = [(zeros 2 (by decide)).frame.1] ∧
    s.send.phase = .top ∧ s.ring.consumer.free = true ∧
    s.ring.head.latest ≠
      8388512 + UInt64.ofNat (Record.stream [zeros 2 (by decide)]).length := by
  let buf : Nat → UInt8 := fun i => if i = 8388512 then 0x87 else if i = 8388524 then 2 else 0
  let acts : List SendInput := [.next 0, .next 0, .next 0, .sent (.failed 32)]
  have hrun : (run (step ringSize) (start buf 8388512 8388656 true) acts).map (fun r =>
      ((iterations (acts.zip r.2)).map Iteration.hdr, r.1.send.phase, r.1.ring.consumer.free,
        r.1.ring.head.latest)) =
      some ([(zeros 2 (by decide)).frame.1], .top, true, 8388608) := by decide +kernel
  obtain ⟨⟨s, os⟩, hrun, hend⟩ := Option.map_eq_some_iff.mp hrun
  simp only [Prod.mk.injEq] at hend
  obtain ⟨hits, hphase, hfree, hhead⟩ := hend
  refine ⟨buf, _, s, by decide +kernel, (Trace.of_run (fun _ _ => trivial) hrun).2, hits, hphase,
    hfree, ?_⟩
  rw [hhead]
  decide +kernel

end SendSide

end NebulaX
