import NebulaX.Proofs.SendThread

/-!
# `NebulaX.Proofs.Delivery`: responses reach a connection in order

The IO thread and the Send thread together. What was written to a connection, what is still in
the ring for it and what a `pushResponses` call still holds make up, in this order, what the
engine produced for it. `Kept` is that equation, and both threads keep it as long as a direct
send does not overtake the ring and nothing is given up.
-/

set_option autoImplicit false

namespace NebulaX

open NebulaX.Lib SPSCByteRing

/-! ### What the ring still holds for a connection -/

theorem Record.bodies_append (recs recs' : List Record) (fd : UInt32) :
    Record.bodies (recs ++ recs') fd = Record.bodies recs fd ++ Record.bodies recs' fd := by
  simp [Record.bodies]

theorem Record.bodies_cons (r : Record) (recs : List Record) (fd : UInt32) :
    Record.bodies (r :: recs) fd = onlyFor fd r.fd r.bodyBytes ++ Record.bodies recs fd := by
  simp [Record.bodies]

/-- The responses for `fd` that the Send thread has not handed over. -/
def SendPos.queued (p : SendPos) (fd : UInt32) : List UInt8 :=
  match p.mid, p.rest with
  | some sent, r :: rest => onlyFor fd r.fd (r.bodyBytes.drop sent) ++ Record.bodies rest fd
  | _, rest => Record.bodies rest fd

/-- What the Send thread wrote to `fd` in a step. -/
def SendEvent.wroteTo (fd : UInt32) : SendEvent → List UInt8
  | .passed fd' bytes n => onlyFor fd fd' (bytes.take n)
  | _ => []

theorem onlyFor_append (fd fd' : UInt32) (a b : List UInt8) :
    onlyFor fd fd' (a ++ b) = onlyFor fd fd' a ++ onlyFor fd fd' b := by
  unfold onlyFor
  split <;> rfl

/-- A step over the records hands over what it writes. -/
theorem SendPos.Move.queued {p p' : SendPos} {ev : SendEvent} (h : p.Move ev p') (fd : UInt32) :
    p.queued fd = ev.wroteTo fd ++ p'.queued fd := by
  have htake {r : Record} {sent n : Nat} {bytes : List UInt8}
      (hbytes : bytes <+: r.bodyBytes.drop sent) (hn : n ≤ bytes.length) :
      r.bodyBytes.drop sent = bytes.take n ++ r.bodyBytes.drop (sent + n) := by
    obtain ⟨more, hmore⟩ := hbytes
    rw [← List.take_append_drop n (r.bodyBytes.drop sent), List.drop_drop, ← hmore,
      List.take_append_of_le_length hn]
  cases h with
  | quiet => rfl
  | empty hr =>
      simp [SendPos.queued, SendEvent.wroteTo, Record.bodies_cons, Record.bodyBytes, hr,
        ResponseBytes.flatten, onlyFor]
  | header hr => simp [SendPos.queued, SendEvent.wroteTo, Record.bodies_cons]
  | pass hbytes hn hmore =>
      simp only [SendPos.queued, SendEvent.wroteTo]
      rw [htake hbytes hn, onlyFor_append, List.append_assoc]
  | last hbytes hn hdone =>
      simp only [SendPos.queued, SendEvent.wroteTo]
      rw [htake hbytes hn, hdone, List.drop_length, List.append_nil]

/-! ### The Send thread when the ring grows -/

section
variable {N c : UInt64} {out more : List UInt8} {taken seenTail seenTail' : Nat} {k : Consumer}
  {p : SendPos}

theorem SPSCByteRing.PopOk.grow {base : Nat} (h : PopOk N c out base taken seenTail k)
    (htaken : taken ≤ out.length) (hle : seenTail ≤ seenTail') :
    PopOk N c (out ++ more) base taken seenTail' k := by
  have htake {got : List UInt8} (hgot : got = (out.drop base).take got.length)
      (heq : taken = base + got.length) :
      got = ((out ++ more).drop base).take got.length := by
    rw [List.drop_append_of_le_length (by omega),
      List.take_append_of_le_length (by rw [List.length_drop]; omega)]
    exact hgot
  cases k with
  | idle => exact h
  | held n => exact h
  | popping len got n | popMore len got =>
      obtain ⟨hlen, heq, hgot, hseen, hrest⟩ := h
      exact ⟨hlen, heq, htake hgot heq, by omega, hrest⟩

theorem Chunk.grow {left chunk : Nat} (h : Chunk N c taken seenTail left chunk)
    (hle : seenTail ≤ seenTail') : Chunk N c taken seenTail' left chunk :=
  ⟨h.pos, h.eq, Nat.le_trans h.there hle⟩

theorem SendPos.InBody.grow {fd : UInt32} {need sent : Nat} (h : p.InBody taken fd need sent)
    (new : List Record) :
    (SendPos.mk p.done (p.rest ++ new) p.mid).InBody taken fd need sent := by
  obtain ⟨done, rest, r, rfl, hfd, hneed, hlt, htaken⟩ := h
  exact ⟨done, rest ++ new, r, rfl, hfd, hneed, hlt, htaken⟩

/-- More bytes and more records do not move the Send thread. -/
theorem SendPhase.Ok.grow {phase : SendPhase} (h : phase.Ok N c out taken seenTail k p)
    (htaken : taken ≤ out.length) (hle : seenTail ≤ seenTail') (new : List Record) :
    phase.Ok N c (out ++ more) taken seenTail' k ⟨p.done, p.rest ++ new, p.mid⟩ := by
  cases phase with
  | top => exact ⟨h.1, h.2.grow htaken hle⟩
  | zc fd need remaining => exact ⟨h.1, h.2.1, h.2.2.1, h.2.2.2.grow new⟩
  | zcSqe fd need remaining chunk | zcWait fd need remaining chunk =>
      exact ⟨h.1, h.2.1.grow hle, h.2.2.1, h.2.2.2.grow new⟩
  | plain fd need sent => exact ⟨h.1, h.2.grow new⟩
  | plainSend fd need sent chunk => exact ⟨h.1, h.2.1.grow hle, h.2.2.grow new⟩

/-- New records stand behind what is queued. -/
theorem SendPhase.Ok.queued_append {phase : SendPhase} (h : phase.Ok N c out taken seenTail k p)
    (new : List Record) (fd : UInt32) :
    (SendPos.mk p.done (p.rest ++ new) p.mid).queued fd
      = p.queued fd ++ Record.bodies new fd := by
  have hbody {fd' : UInt32} {need sent : Nat} (hb : p.InBody taken fd' need sent) :
      (SendPos.mk p.done (p.rest ++ new) p.mid).queued fd
        = p.queued fd ++ Record.bodies new fd := by
    obtain ⟨done, rest, r, rfl, -⟩ := hb
    simp [SendPos.queued, Record.bodies_append]
  cases phase with
  | top =>
      obtain ⟨done, rest, mid⟩ := p
      obtain rfl : mid = none := h.1
      simp [SendPos.queued, Record.bodies_append]
  | zc fd need remaining => exact hbody h.2.2.2
  | zcSqe fd need remaining chunk => exact hbody h.2.2.2
  | zcWait fd need remaining chunk => exact hbody h.2.2.2
  | plain fd need sent => exact hbody h.2
  | plainSend fd need sent chunk => exact hbody h.2.2

end

/-! ### Direct sends -/

/-- The IO thread sends directly to `fd`. -/
def IoPhase.sendsTo (fd : UInt32) : IoPhase → Prop
  | .direct fd' _ _ _ => fd' = fd
  | _ => False

/-- `pushResponses` for `fd` finds less room than it needs. -/
def IoPhase.FallsBack (N : UInt64) (ring : Threads) (fd : UInt32) : IoPhase → IoInput → Prop
  | .check fd' buf _, .next view => fd' = fd ∧ ∃ x ∈ ring.head.load view,
      freeSpace N ring.tail.latest x.1 < 48 + buf.length * 48
  | _, _ => False

/-- The IO thread writes to `fd` only when it sends directly to it, and it begins to do so only
when `pushResponses` finds too little room. -/
theorem ioStep_sendsTo {N : UInt64} {ring ring' : Threads} {io io' : IoPhase} {i : IoInput}
    {ev : IoEvent} {fd : UInt32} (hstep : ioStep N ring io i = some (ring', io', ev)) :
    (ev.wroteTo fd = [] ∨ io.sendsTo fd) ∧
      (io'.sendsTo fd → io.sendsTo fd ∨ io.FallsBack N ring fd i) := by
  cases io with
  | idle =>
      cases i with
      | responses fd' buf junk =>
          simp only [ioStep, Option.some.injEq, Prod.mk.injEq] at hstep
          obtain ⟨-, rfl, rfl⟩ := hstep
          exact ⟨Or.inl rfl, by split <;> exact False.elim⟩
      | close fd' ackPtr junk =>
          simp only [ioStep, Option.some.injEq, Prod.mk.injEq] at hstep
          obtain ⟨-, rfl, rfl⟩ := hstep
          exact ⟨Or.inl rfl, False.elim⟩
      | next view => cases hstep
      | sent r => cases hstep
  | check fd' buf junk =>
      cases i with
      | next view =>
          simp only [ioStep, Option.map_eq_some_iff] at hstep
          obtain ⟨x, hload, heq⟩ := hstep
          split at heq
          · simp only [Prod.mk.injEq] at heq
            obtain ⟨-, rfl, rfl⟩ := heq
            exact ⟨Or.inl rfl, False.elim⟩
          · rename_i hless
            simp only [Prod.mk.injEq] at heq
            obtain ⟨-, rfl, rfl⟩ := heq
            exact ⟨Or.inl rfl, fun hfd => Or.inr ⟨hfd, x, hload, Nat.not_le.mp hless⟩⟩
      | _ => cases hstep
  | header frame buf | body frame buf =>
      cases i with
      | next view =>
          simp only [ioStep, Option.map_eq_some_iff] at hstep
          obtain ⟨⟨s', e⟩, -, heq⟩ := hstep
          cases e
          all_goals
            obtain ⟨-, heq⟩ := Prod.mk.inj heq
            obtain ⟨rfl, rfl⟩ := Prod.mk.inj heq
            exact ⟨Or.inl rfl, False.elim⟩
      | _ => cases hstep
  | direct fd' data sent spins =>
      -- the thread stays with its connection
      have hsame : (∀ bytes fd'', ev = .wrote fd'' bytes → fd'' = fd') ∧
          (io'.sendsTo fd → fd' = fd) := by
        cases i with
        | sent r =>
            cases r with
            | sent n =>
                simp only [ioStep] at hstep
                split at hstep
                · simp only [Option.some.injEq, Prod.mk.injEq] at hstep
                  obtain ⟨-, rfl, rfl⟩ := hstep
                  exact ⟨by simp, False.elim⟩
                · split at hstep
                  · simp only [Option.some.injEq, Prod.mk.injEq] at hstep
                    obtain ⟨-, rfl, rfl⟩ := hstep
                    exact ⟨fun bytes fd'' he => (IoEvent.wrote.inj he).1.symm, by
                      split
                      · exact id
                      · exact False.elim⟩
                  · cases hstep
            | failed errno =>
                simp only [ioStep] at hstep
                split at hstep
                all_goals
                  simp only [Option.some.injEq, Prod.mk.injEq] at hstep
                  obtain ⟨-, rfl, rfl⟩ := hstep
                · exact ⟨by simp, by
                    split
                    · exact False.elim
                    · exact id⟩
                · exact ⟨by simp, False.elim⟩
        | _ => cases hstep
      refine ⟨?_, fun hfd => Or.inl (hsame.2 hfd)⟩
      cases ev with
      | wrote fd'' bytes =>
          by_cases hfd : fd' = fd
          · exact Or.inr hfd
          · rw [hsame.1 bytes fd'' rfl]
            exact Or.inl (if_neg hfd)
      | _ => exact Or.inl rfl
  | closing frame retries =>
      cases i with
      | next view =>
          simp only [ioStep, Option.map_eq_some_iff] at hstep
          obtain ⟨⟨s', e⟩, -, heq⟩ := hstep
          cases e with
          | pushed data free n =>
              simp only at heq
              split at heq
              all_goals
                obtain ⟨-, heq⟩ := Prod.mk.inj heq
                obtain ⟨rfl, rfl⟩ := Prod.mk.inj heq
              · exact ⟨Or.inl rfl, by split <;> exact False.elim⟩
              · exact ⟨Or.inl rfl, False.elim⟩
          | _ =>
              obtain ⟨-, heq⟩ := Prod.mk.inj heq
              obtain ⟨rfl, rfl⟩ := Prod.mk.inj heq
              exact ⟨Or.inl rfl, False.elim⟩
      | _ => cases hstep

/-! ### Every run -/

namespace ResponsePath

/-- What the engine produced for `fd` in a step. -/
def Event.producedFor (fd : UInt32) : Event → List UInt8
  | .io ev => ev.producedFor fd
  | .send _ => []

/-- What a step wrote to `fd`. -/
def Event.wroteTo (fd : UInt32) : Event → List UInt8
  | .io ev => ev.wroteTo fd
  | .send ev => ev.wroteTo fd

/-- The responses the engine produced for `fd`, in order. -/
def produced (h : List (Input × Event)) (fd : UInt32) : List UInt8 :=
  (h.map fun x => x.2.producedFor fd).flatten

/-- The bytes written to `fd`, by whichever thread, in order. -/
def written (h : List (Input × Event)) (fd : UInt32) : List UInt8 :=
  (h.map fun x => x.2.wroteTo fd).flatten

theorem produced_snoc (h : List (Input × Event)) (i : Input) (ev : Event) (fd : UInt32) :
    produced (h ++ [(i, ev)]) fd = produced h fd ++ ev.producedFor fd := by
  simp [produced]

theorem written_snoc (h : List (Input × Event)) (i : Input) (ev : Event) (fd : UInt32) :
    written (h ++ [(i, ev)]) fd = written h fd ++ ev.wroteTo fd := by
  simp [written]

/-- A step that does not break the order. `pushResponses` falls back to a direct send only when
all that was produced for the connection before is written, and the direct send does not give
up; a close frame meets no room or enough; the Send thread gets none of the answers that make
it lose its place, and no completion is an error. -/
def Orderly (N : UInt64) (h : List (Input × Event)) (s : ResponsePath) : Input → Prop
  | .io i => CloseFits N s.ring s.io i ∧ s.io.Keeps i ∧ ∀ fd, s.io.FallsBack N s.ring fd i →
      written h fd ++ s.io.pendingFor fd = produced h fd
  | .send i => Steady N s.ring s.send i ∧ Lossless s.send i

/-- Both threads, and where each response is. -/
structure Kept (N c : UInt64) (h : List (Input × Event)) (s : ResponsePath) (recs : List Record)
    (out : List UInt8) (taken seenHead seenTail : Nat) (p : SendPos) : Prop where
  io : IoInv N c s.ring s.io recs out taken seenHead seenTail
  send : SendInv N c s.ring s.send recs out taken seenHead seenTail p
  kept : ∀ fd, written h fd ++ (p.queued fd ++ s.io.pendingFor fd) = produced h fd
  direct : ∀ fd, s.io.sendsTo fd → p.queued fd = []

namespace Kept

variable {N c : UInt64} {j : Nat} {h : List (Input × Event)} {s s' : ResponsePath} {ev : Event}
  {recs : List Record} {out : List UInt8} {taken seenHead seenTail : Nat} {p : SendPos}

protected theorem start (N c : UInt64) (buf : Nat → UInt8) (zcOk : Bool) :
    Kept N c [] { ring := SPSCByteRing.start buf c, send := { zcOk } } [] [] 0 0 0
      ⟨[], [], none⟩ where
  io := IoInv.start N c buf
  send := ⟨Inv.start N c buf (Record.stop_stream []), List.prefix_refl _, rfl, rfl, rfl⟩
  kept := fun _ => rfl
  direct := fun _ hfd => hfd.elim

/-- A step of the IO thread. -/
theorem io_step {i : IoInput} (hN : N.toNat = 2 ^ j) (hsize : N.toNat ≤ 2 ^ 32)
    (hk : Kept N c h s recs out taken seenHead seenTail p) (hok : Orderly N h s (.io i))
    (hstep : step N s (.io i) = some (s', ev)) :
    ∃ recs' out' taken' seenHead' seenTail' p',
      Kept N c (h ++ [(.io i, ev)]) s' recs' out' taken' seenHead' seenTail' p' := by
  obtain ⟨hfits, hkeeps, hback⟩ := hok
  obtain ⟨⟨ring, io, e⟩, hio, heq⟩ := Option.map_eq_some_iff.mp hstep
  obtain ⟨rfl, rfl⟩ := Prod.mk.inj heq
  have hcons := ioStep_consumer hio
  obtain ⟨new, seenHead', seenTail', hle, hinv, hacc, hnew⟩ := hk.io.ioStep hN hsize hfits hio
  have hgrow := hk.send.inSend
  refine ⟨recs ++ new, out ++ e.bytes, taken, seenHead', seenTail',
    ⟨p.done, p.rest ++ new, p.mid⟩, hinv, ?_, fun fd => ?_, fun fd hfd => ?_⟩
  · refine ⟨hinv.inRing, hinv.inIo.isPrefix, ?_, ?_⟩
    · rw [hk.send.split, List.append_assoc]
    · show s.send.phase.Ok N c (out ++ e.bytes) taken seenTail' ring.consumer _
      rw [hcons]
      exact hgrow.grow hk.send.inRing.taken_le hle new
  · -- a direct write comes from an empty queue
    have horder : p.queued fd ++ e.wroteTo fd = e.wroteTo fd ++ p.queued fd := by
      obtain hnone | hdirect := (ioStep_sendsTo hio).1
      · rw [hnone, List.append_nil, List.nil_append]
      · rw [hk.direct fd hdirect, List.nil_append, List.append_nil]
    rw [hgrow.queued_append, produced_snoc, written_snoc, ← hk.kept fd]
    show written h fd ++ e.wroteTo fd ++ _ = written h fd ++ _ ++ e.producedFor fd
    simp only [List.append_assoc, hacc hkeeps fd]
    rw [← List.append_assoc (p.queued fd) (e.wroteTo fd), horder, List.append_assoc]
  · rw [hgrow.queued_append]
    have hqueue : p.queued fd = [] := by
      obtain hdirect | hfall := (ioStep_sendsTo hio).2 hfd
      · exact hk.direct fd hdirect
      · have hall := hback fd hfall
        rw [← hk.kept fd, List.append_cancel_left_eq] at hall
        exact List.append_left_eq_self.mp hall.symm
    rw [hqueue, List.nil_append]
    obtain rfl | hpend := hnew
    · rfl
    · -- a direct send that goes on still has bytes to send
      cases io with
      | direct fd' data sent spins =>
          obtain rfl : fd' = fd := hfd
          have hnil := hpend fd'
          simp only [IoPhase.pendingFor, onlyFor, if_true, List.drop_eq_nil_iff] at hnil
          exact absurd hinv.inIo.2.2 (Nat.not_lt.mpr hnil)
      | _ => exact hfd.elim

/-- A step of the Send thread. -/
theorem send_step {i : SendInput} (hN : N.toNat = 2 ^ j) (hsize : 48 ≤ N.toNat)
    (hk : Kept N c h s recs out taken seenHead seenTail p) (hok : Orderly N h s (.send i))
    (hstep : step N s (.send i) = some (s', ev)) :
    ∃ recs' out' taken' seenHead' seenTail' p',
      Kept N c (h ++ [(.send i, ev)]) s' recs' out' taken' seenHead' seenTail' p' := by
  obtain ⟨hsteady, hlossless⟩ := hok
  obtain ⟨⟨ring, send, e⟩, hsend, heq⟩ := Option.map_eq_some_iff.mp hstep
  obtain ⟨rfl, rfl⟩ := Prod.mk.inj heq
  obtain ⟨p', taken', seenTail', -, hinv, hmove | ⟨hloss, -⟩⟩ :=
    hk.send.sendStep hN hsize hsteady hsend
  · have hqueued := hmove.queued
    refine ⟨recs, out, taken', seenHead, seenTail', p', ⟨hinv.inRing, ?_⟩, hinv, fun fd => ?_,
      fun fd hfd => ?_⟩
    · show s.io.Ok N recs out seenHead ring.producer
      rw [sendStep_producer hsend]
      exact hk.io.inIo
    · rw [produced_snoc, written_snoc, ← hk.kept fd, hqueued fd]
      show written h fd ++ e.wroteTo fd ++ _ = _ ++ []
      simp only [List.append_assoc, List.append_nil]
    · have hnil := hk.direct fd hfd
      rw [hqueued fd] at hnil
      exact (List.append_eq_nil_iff.mp hnil).2
  · exact absurd hlossless hloss

end Kept

/-- **Responses arrive in order.** In every state of a run of the two threads whose steps are all
orderly, the bytes written to a connection are a prefix of what the engine produced for it. -/
theorem delivered_in_order (c : UInt64) (buf : Nat → UInt8) (zcOk : Bool)
    {h : List (Input × Event)} {s : ResponsePath}
    (t : Trace (step ringSize) (Orderly ringSize)
      { ring := SPSCByteRing.start buf c, send := { zcOk } } h s) (fd : UInt32) :
    written h fd <+: produced h fd := by
  obtain ⟨recs, out, taken, seenHead, seenTail, p, hk⟩ : ∃ recs out taken seenHead seenTail p,
      Kept ringSize c h s recs out taken seenHead seenTail p := by
    refine t.invariant (fun h s => ∃ recs out taken seenHead seenTail p,
      Kept ringSize c h s recs out taken seenHead seenTail p)
      ⟨[], [], 0, 0, 0, ⟨[], [], none⟩, Kept.start ringSize c buf zcOk⟩ ?_
    rintro h s i s' ev - ⟨recs, out, taken, seenHead, seenTail, p, hk⟩ hok hstep
    cases i with
    | io i => exact hk.io_step ringSize_pow (by decide) hok hstep
    | send i => exact hk.send_step ringSize_pow (by decide) hok hstep
  exact ⟨_, hk.kept fd⟩

/-- `pushResponses` finds the room it needs. -/
def HasRoom (N : UInt64) (ring : Threads) : IoPhase → IoInput → Prop
  | .check _ buf _, .next view => ∀ x ∈ ring.head.load view,
      48 + buf.length * 48 ≤ freeSpace N ring.tail.latest x.1
  | _, _ => True

instance (N : UInt64) (ring : Threads) :
    (io : IoPhase) → (i : IoInput) → Decidable (HasRoom N ring io i)
  | .check .., .next view => Option.decidableForallMem (ring.head.load view)
  | .check .., .responses .. | .check .., .close .. | .check .., .sent _ => .isTrue trivial
  | .idle, _ | .header .., _ | .body .., _ | .direct .., _ | .closing .., _ => .isTrue trivial

/-- A step that is orderly because the ring has room for what is pushed. -/
def Roomy (N : UInt64) (s : ResponsePath) : Input → Prop
  | .io i => CloseFits N s.ring s.io i ∧ s.io.Keeps i ∧ HasRoom N s.ring s.io i
  | .send i => Steady N s.ring s.send i ∧ Lossless s.send i

instance (N : UInt64) (s : ResponsePath) : (i : Input) → Decidable (s.Roomy N i)
  | .io _ => inferInstanceAs (Decidable (_ ∧ _ ∧ _))
  | .send _ => inferInstanceAs (Decidable (_ ∧ _))

theorem Roomy.orderly {N : UInt64} {s : ResponsePath} {i : Input} (hroom : s.Roomy N i)
    (h : List (Input × Event)) : Orderly N h s i := by
  cases i with
  | send i => exact hroom
  | io i =>
      refine ⟨hroom.1, hroom.2.1, fun fd hback => ?_⟩
      have hfree := hroom.2.2
      unfold IoPhase.FallsBack at hback
      split at hback
      · obtain ⟨-, x, hx, hless⟩ := hback
        rw [‹s.io = _›] at hfree
        exact absurd (hfree x hx) (Nat.not_le.mpr hless)
      · exact hback.elim

/-- A response goes through the ring and reaches its connection in two parts, with an `EAGAIN`
between them. -/
theorem delivered_in_order_parts : ∃ h s, Trace (step ringSize) (Orderly ringSize)
      { ring := SPSCByteRing.start (fun _ => 0) 0, send := { zcOk := true } } h s ∧
    (written h 5).length = 48 ∧ written h 5 <+: produced h 5 := by
  let response : ResponseBytes := ⟨List.replicate 48 7, rfl⟩
  let acts : List Input := List.flatten [[.io (.responses 5 [response] response)],
    List.replicate 9 (.io (.next 0)), [.send (.next 2), .send (.next 0), .send (.next 0),
      .send (.sent (.sent 24)), .send (.next 0), .send (.sent (.failed 11)), .send (.next 0),
      .send (.sent (.sent 24))]]
  have hrun : (checked (fun _ s i => Roomy ringSize s i) (step ringSize) []
      { ring := SPSCByteRing.start (fun _ => 0) 0, send := { zcOk := true } } acts).map
        (fun r => (written r.2 5).length) = some 48 := by decide +kernel
  obtain ⟨⟨s, h⟩, hrun, hlen⟩ := Option.map_eq_some_iff.mp hrun
  have t := (Trace.of_checked .nil hrun).mono fun h _ _ _ hroom => hroom.orderly h
  exact ⟨_, s, t, hlen, delivered_in_order 0 (fun _ => 0) true t 5⟩

/-- The kernel answers a socket call with a number of bytes or `EAGAIN`, and the zero-copy calls
do not fail. -/
def Answers : Input → Prop
  | .io (.sent (.sent n)) | .send (.sent (.sent n)) => 0 < n
  | .io (.sent (.failed errno)) | .send (.sent (.failed errno)) => errno = eagain
  | .io _ => True
  | .send (.next _) => True
  | .send (.sqe ok) => ok = true
  | .send (.wait _) => False

/-- One response waits in the ring, and a batch that does not fit is sent before it. -/
theorem direct_send_overtakes : ∃ h s, Trace (step ringSize) (fun _ _ i => Answers i)
    { ring := SPSCByteRing.start (fun _ => 0) 0, send := { zcOk := true } } h s ∧
    ¬written h 5 <+: produced h 5 := by
  obtain ⟨one, junk, ones, hone, hones⟩ : ∃ (buf : List ResponseBytes) (junk : ResponseBytes)
      (bs : List UInt8), buf.length = 1 ∧ ResponseBytes.flatten buf = 1 :: bs :=
    ⟨[⟨List.replicate 48 1, rfl⟩], ⟨List.replicate 48 1, rfl⟩, _, rfl, rfl⟩
  obtain ⟨two, twos, htwo, htwos⟩ : ∃ (buf : List ResponseBytes) (bs : List UInt8),
      buf.length = 174762 ∧ ResponseBytes.flatten buf = 2 :: bs :=
    ⟨⟨List.replicate 48 2, rfl⟩ :: List.replicate 174761 junk, _,
      by rw [List.length_cons, List.length_replicate], rfl⟩
  obtain ⟨header, hheader⟩ : ∃ b, junk.header 5 (UInt32.ofNat one.length) = b := ⟨_, rfl⟩
  have hne : one ≠ [] := List.ne_nil_of_length_pos (by omega)
  have hne' : two ≠ [] := List.ne_nil_of_length_pos (by omega)
  obtain ⟨ring, hring⟩ : ∃ r, SPSCByteRing.start (fun _ => 0) 0 = r := ⟨_, rfl⟩
  have hload : ring.head.load 0 = some (0, ⟨0, []⟩) := hring ▸ rfl
  have htail : ring.tail = ⟨0, []⟩ := hring ▸ rfl
  have hsame : { ring with head := ⟨0, []⟩ } = ring := hring ▸ rfl
  -- the header and the response go into the ring
  obtain ⟨a₁, a₂, a₃, a₄, _, ha₁, ha₂, ha₃, ha₄, haprod, hahead, hatail⟩ :=
    pushNext_run (N := ringSize) header.1 (n := 48) (hring ▸ rfl) hload
      (by rw [htail, header.2]; decide) (by decide)
  have hbody : (ResponseBytes.flatten one).length = 48 := by
    rw [ResponseBytes.length_flatten, hone]
  obtain ⟨b₁, b₂, b₃, b₄, _, hb₁, hb₂, hb₃, hb₄, hbprod, hbhead, hbtail⟩ :=
    pushNext_run (N := ringSize) (ResponseBytes.flatten one) (n := 48) haprod
      (by rw [hahead]; rfl) (by rw [hatail, htail, hbody]; decide) (by decide)
  have hroom : freeSpace ringSize ring.tail.latest 0 ≥ 48 + one.length * 48 := by
    rw [htail, hone]
    decide
  have hload' : b₄.head.load 0 = some (0, ⟨0, []⟩) := by
    rw [hbhead]
    rfl
  have hless : ¬freeSpace ringSize b₄.tail.latest 0 ≥ 48 + two.length * 48 := by
    rw [hbtail, hatail, htail, htwo]
    decide
  have hlen : 0 + 1 < (ResponseBytes.flatten two).length := by
    rw [ResponseBytes.length_flatten, htwo]
    decide
  have hlen' : 1 ≤ (ResponseBytes.flatten two).length - 0 := by omega
  let send : SendThread := { zcOk := true }
  let acts : List Input := .io (.responses 5 one junk) :: List.replicate 9 (.io (.next 0))
  let acts' : List Input := [.io (.responses 5 two junk), .io (.next 0),
    .io (.sent (.sent 1))]
  have hrun : run (step ringSize) { ring, send } acts = some ({ ring := b₄, send },
      [.io (.produced 5 (ResponseBytes.flatten one)), .io .quiet, .io .quiet, .io .quiet,
        .io .quiet, .io (.pushed (header.1.take 48)), .io .quiet, .io .quiet, .io .quiet,
        .io (.pushed ((ResponseBytes.flatten one).take 48))]) := by
    simp only [acts, List.replicate, run_cons, runNext_mk, run_nil, step, ioStep, hne, if_false,
      hload, hroom, if_true, hsame, hheader, Option.map_some, Option.bind_some, ha₁, ha₂, ha₃, ha₄,
      hb₁, hb₂, hb₃, hb₄]
  have hrun' : run (step ringSize) { ring := b₄, send } acts' = some
      ({ ring := { b₄ with head := ⟨0, []⟩ }
         io := .direct 5 (ResponseBytes.flatten two) (0 + 1) 0
         send },
      [.io (.produced 5 (ResponseBytes.flatten two)), .io .quiet,
        .io (.wrote 5 (((ResponseBytes.flatten two).drop 0).take 1))]) := by
    simp only [acts', run_cons, runNext_mk, run_nil, step, ioStep, hne', if_false, hload', hless,
      if_true, Option.map_some, Option.bind_some, hlen, hlen', show ¬(1 = 0) by decide]
  obtain ⟨s, os, hall, hos⟩ : ∃ s os, run (step ringSize) { ring, send } (acts ++ acts') =
      some (s, os) ∧ os = _ ++ _ := by
    rw [run_append, hrun, Option.bind_some, hrun', Option.map_some]
    exact ⟨_, _, rfl, rfl⟩
  have hacts : ∀ i ∈ acts ++ acts', Answers i := by simp [acts, acts', Answers]
  refine ⟨_, _, hring ▸ (Trace.of_run hacts hall).2, ?_⟩
  rintro ⟨more, hmore⟩
  simp only [hos, written, produced, acts, acts', List.replicate, List.cons_append, List.nil_append,
    List.zip_cons_cons, List.zip_nil_left, List.map_cons, List.map_nil, Event.wroteTo,
    Event.producedFor, IoEvent.wroteTo, IoEvent.producedFor, onlyFor, if_true,
    List.flatten_cons, List.flatten_nil, hones, htwos, List.drop_zero, List.take_succ_cons,
    List.cons.injEq] at hmore
  exact absurd hmore.1 (by decide)

end ResponsePath

end NebulaX
