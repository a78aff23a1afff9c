import NebulaX.Proofs.ByteRing
import NebulaX.Spec.ResponseStream

/-!
# `NebulaX.Proofs.ResponseRing`: the IO thread pushes whole records

`IoPhase.Ok` says for every place of the IO thread how the bytes pushed so far stand to the
records: they are all of them, or they lack a part of the last one for which the ring has room.
`IoInv.ioStep` keeps it.
-/

set_option autoImplicit false

namespace NebulaX

open NebulaX.Lib

/-! ### Frames and records -/

namespace ResponseBytes

section
variable (junk : ResponseBytes) (fd count : UInt32) (ackPtr : UInt64)

theorem type_set {b : ResponseBytes} {off : Nat} {bytes : List UInt8} (hoff : 0 < off)
    (h : off + bytes.length ≤ 48) : type (b.set off bytes h).1 = type b.1 := by
  have hlen := b.2
  simp only [type, set, writeAt, List.append_assoc, List.getD_eq_getElem?_getD]
  rw [List.getElem?_append_left (by rw [List.length_take]; omega), List.getElem?_take,
    if_pos hoff]

theorem type_set_zero (b : ResponseBytes) (x : UInt8) (h : 0 + [x].length ≤ 48) :
    type (b.set 0 [x] h).1 = x := rfl

/-- Read a member that was assigned. -/
theorem slice_set (b : ResponseBytes) {off n : Nat} {bytes : List UInt8}
    (h : off + bytes.length ≤ 48) (hn : bytes.length = n) :
    slice (b.set off bytes h).1 off n = bytes := by
  rw [set, slice_writeAt (by rw [b.2]; omega) (Nat.le_of_eq hn.symm), ← hn, List.take_length]

/-- Read a member that was not assigned. -/
theorem slice_set_of_disjoint (b : ResponseBytes) {off off' n : Nat} {bytes : List UInt8}
    (h : off + bytes.length ≤ 48) (hd : off' + n ≤ off ∨ off + bytes.length ≤ off') :
    slice (b.set off bytes h).1 off' n = slice b.1 off' n :=
  slice_writeAt_of_disjoint (by rw [b.2]; exact h) hd

theorem type_header : type (junk.header fd count).1 = rspHeader := by
  rw [header, type_set (by decide), type_set (by decide), type_set_zero]

theorem count_header : ResponseBytes.count (junk.header fd count).1 = count := by
  rw [ResponseBytes.count, header, slice_set _ _ (length_leBytes 4 _),
    ofLe_leBytes count.toNat_lt, UInt32.ofNat_toNat]

theorem clientFd_header : clientFd (junk.header fd count).1 = fd := by
  rw [clientFd, header, slice_set_of_disjoint _ _ (by simp), slice_set _ _ (length_leBytes 4 _),
    ofLe_leBytes fd.toNat_lt, UInt32.ofNat_toNat]

theorem type_close : type (junk.close fd ackPtr).1 = rspClose := by
  rw [close, type_set (by decide), type_set (by decide), type_set (by decide), type_set_zero]

end

@[simp] theorem length_flatten (buf : List ResponseBytes) :
    (flatten buf).length = buf.length * 48 := by
  induction buf with
  | nil => rfl
  | cons b buf ih =>
      rw [flatten, List.map_cons, List.flatten_cons, List.length_append, b.2, ← flatten, ih,
        List.length_cons]
      omega

end ResponseBytes

namespace Record

/-- The record of a `pushResponses` call. -/
def ofResponses (junk : ResponseBytes) (fd : UInt32) (buf : List ResponseBytes)
    (h : buf.length < 2 ^ 32) : Record where
  frame := junk.header fd (UInt32.ofNat buf.length)
  body := buf
  complete := Or.inl ⟨ResponseBytes.type_header _ _ _, by
    rw [ResponseBytes.count_header, UInt32.toNat_ofNat_of_lt' h]⟩

/-- The record of a close frame. -/
def ofClose (frame : ResponseBytes) (h : ResponseBytes.type frame.1 = ResponseBytes.rspClose) :
    Record where
  frame := frame
  body := []
  complete := Or.inr ⟨h, rfl⟩

theorem length_bodyBytes (r : Record) : r.bodyBytes.length = r.body.length * 48 :=
  ResponseBytes.length_flatten r.body

theorem length_bytes (r : Record) : r.bytes.length = 48 + r.bodyBytes.length := by
  rw [bytes, List.length_append, r.frame.2]

@[simp] theorem stream_nil : stream [] = [] := rfl

@[simp] theorem stream_append (recs recs' : List Record) :
    stream (recs ++ recs') = stream recs ++ stream recs' := by
  simp [stream]

@[simp] theorem stream_singleton (r : Record) : stream [r] = r.bytes := by
  simp [stream]

/-- Whole records are whole frames. -/
theorem dvd_length_stream (recs : List Record) : 48 ∣ (stream recs).length := by
  induction recs with
  | nil => exact ⟨0, rfl⟩
  | cons r recs ih =>
      rw [← List.singleton_append, stream_append, List.length_append, stream_singleton,
        length_bytes, length_bodyBytes]
      omega

/-- The tail of the ring may stand here: between two records, or behind a frame. -/
def Stop (recs : List Record) (m : Nat) : Prop :=
  ∃ recs₀ rest, recs = recs₀ ++ rest ∧
    (m = (stream recs₀).length ∨ rest ≠ [] ∧ m = (stream recs₀).length + 48)

theorem Stop.append {recs : List Record} {m : Nat} (h : Stop recs m) (recs' : List Record) :
    Stop (recs ++ recs') m := by
  obtain ⟨recs₀, rest, rfl, h⟩ := h
  refine ⟨recs₀, rest ++ recs', List.append_assoc _ _ _, h.imp_right fun h => ⟨?_, h.2⟩⟩
  simp [h.1]

theorem stop_stream (recs : List Record) : Stop recs (stream recs).length :=
  ⟨recs, [], (List.append_nil recs).symm, Or.inl rfl⟩

theorem stop_frame (recs : List Record) (r : Record) :
    Stop (recs ++ [r]) ((stream recs).length + 48) :=
  ⟨recs, [r], rfl, Or.inr ⟨by simp, rfl⟩⟩

end Record

/-! ### A push that fits -/

namespace SPSCByteRing

/-- A `push` that is going on is to write all of `data`. -/
def PushingAll (data : List UInt8) : Producer → Prop
  | .idle => True
  | .loaded p | .half p | .copied p => p.data = data ∧ p.actual = data.length

namespace Inv

variable {N c : UInt64} {j : Nat} {Q : Nat → Prop} {s s' : Threads} {out data : List UInt8}
  {taken seenHead seenTail view : Nat} {ev : Event}

/-- A `push` after its load goes on, or it returns and has written everything. -/
theorem pushNext_going (hN : N.toNat = 2 ^ j) (h : Inv N c Q s out taken seenHead seenTail)
    (hprod : s.producer ≠ .idle) (hall : PushingAll data s.producer)
    (hQ : Q out.length) (hQ' : Q (out.length + data.length))
    (hstep : pushNext N s data view = some (s', ev)) :
    ∃ seenHead' seenTail', seenHead ≤ seenHead' ∧
      seenTail ≤ seenTail' ∧ Inv N c Q s' (out ++ ev.sent) taken seenHead' seenTail' ∧
      ((ev = .quiet ∧ s'.producer ≠ .idle ∧ PushingAll data s'.producer) ∨
        (s'.producer = .idle ∧ ∃ free, ev = .pushed data free data.length)) := by
  have hgo (hobt : ev.obtained = []) (hsent : Q (out.length + ev.sent.length)) {a : Action}
      (hs : SPSCByteRing.step N s a = some (s', ev)) : ∃ seenHead' seenTail',
        seenHead ≤ seenHead' ∧ seenTail ≤ seenTail' ∧
        Inv N c Q s' (out ++ ev.sent) taken seenHead' seenTail' := by
    obtain ⟨seenHead', seenTail', hinv, hle, hle'⟩ := (h.step hN hs hsent).of_producer
      (pushNext_consumer hstep) hobt
    exact ⟨seenHead', seenTail', hle, hle', hinv⟩
  have hstep' := hstep
  cases hpc : s.producer with
  | idle => exact absurd hpc hprod
  | loaded p | half p =>
      rw [hpc] at hall
      simp only [pushNext, hpc] at hstep
      simp only [pushNext, SPSCByteRing.step, hpc, Option.some.injEq, Prod.mk.injEq] at hstep'
      obtain ⟨rfl, rfl⟩ := hstep'
      obtain ⟨seenHead', seenTail', hle, hle', hinv⟩ := hgo rfl hQ hstep
      exact ⟨seenHead', seenTail', hle, hle', hinv, Or.inl ⟨rfl, by simp, hall⟩⟩
  | copied p =>
      rw [hpc] at hall
      obtain ⟨rfl, hlen⟩ := hall
      simp only [pushNext, hpc] at hstep
      simp only [pushNext, SPSCByteRing.step, hpc, hlen, Option.some.injEq, Prod.mk.injEq] at hstep'
      obtain ⟨rfl, rfl⟩ := hstep'
      obtain ⟨seenHead', seenTail', hle, hle', hinv⟩ := hgo rfl
        (by rw [Event.sent, List.take_length]; exact hQ') hstep
      exact ⟨seenHead', seenTail', hle, hle', hinv, Or.inr ⟨rfl, p.free, rfl⟩⟩

/-- A step of a `push` for which there is room: it goes on, or it returns and has written
everything. -/
theorem pushNext_fits (hN : N.toNat = 2 ^ j) (h : Inv N c Q s out taken seenHead seenTail)
    (hdata : data ≠ []) (hroom : out.length + data.length ≤ seenHead + N.toNat)
    (hall : PushingAll data s.producer) (hQ : Q out.length) (hQ' : Q (out.length + data.length))
    (hstep : pushNext N s data view = some (s', ev)) :
    ∃ seenHead' seenTail', seenHead ≤ seenHead' ∧
      seenTail ≤ seenTail' ∧ Inv N c Q s' (out ++ ev.sent) taken seenHead' seenTail' ∧
      ((ev = .quiet ∧ s'.producer ≠ .idle ∧ PushingAll data s'.producer) ∨
        (s'.producer = .idle ∧ ∃ free, ev = .pushed data free data.length)) := by
  by_cases hprod : s.producer = .idle
  · simp only [pushNext, hprod] at hstep
    obtain ⟨-, -, k, -, hlow, -, -, hinv, -, ⟨hzero, -⟩ | ⟨-, rfl, hprod'⟩⟩ :=
      h.push_load hN hstep
    · have := List.length_pos_of_ne_nil hdata
      omega
    · refine ⟨k, seenTail, hlow, Nat.le_refl _, ?_, Or.inl ⟨rfl, by simp [hprod'], ?_⟩⟩
      · show Inv N c Q s' (out ++ []) taken k seenTail
        rwa [List.append_nil]
      · rw [hprod']
        exact ⟨rfl, by simp only; omega⟩
  · exact h.pushNext_going hN hprod hall hQ hQ' hstep

end Inv

end SPSCByteRing

/-! ### The invariant of the IO thread -/

open SPSCByteRing

/-- The bytes a step put into the ring. -/
def IoEvent.bytes : IoEvent → List UInt8
  | .pushed bytes => bytes
  | _ => []

@[simp] theorem IoEvent.bytes_quiet : IoEvent.quiet.bytes = [] := rfl

@[simp] theorem IoEvent.bytes_pushed (bytes : List UInt8) :
    (IoEvent.pushed bytes).bytes = bytes := rfl

/-- The part of a record that is in the ring while its rest is not. -/
def IoPhase.openFrame : IoPhase → List UInt8
  | .body frame _ => frame.1
  | _ => []

/-- The bytes pushed so far, the records they belong to, and what is left to push. -/
def IoPhase.Ok (N : UInt64) (recs : List Record) (out : List UInt8) (seenHead : Nat)
    (prod : Producer) : IoPhase → Prop
  | .idle => out = Record.stream recs ∧ prod = .idle
  | .check _ buf _ => out = Record.stream recs ∧ prod = .idle ∧ buf ≠ []
  | .direct _ data sent _ => out = Record.stream recs ∧ prod = .idle ∧ sent < data.length
  | .header frame buf => ∃ recs₀ r, recs = recs₀ ++ [r] ∧ r.frame = frame ∧ r.body = buf ∧
      buf ≠ [] ∧ out = Record.stream recs₀ ∧
      out.length + 48 + buf.length * 48 ≤ seenHead + N.toNat ∧ PushingAll frame.1 prod
  | .body frame buf => ∃ recs₀ r, recs = recs₀ ++ [r] ∧ r.frame = frame ∧ r.body = buf ∧
      buf ≠ [] ∧ out = Record.stream recs₀ ++ frame.1 ∧
      out.length + buf.length * 48 ≤ seenHead + N.toNat ∧
      PushingAll (ResponseBytes.flatten buf) prod
  | .closing frame _ => ResponseBytes.type frame.1 = ResponseBytes.rspClose ∧
      ((out = Record.stream recs ∧ prod = .idle) ∨
        ∃ recs₀ r, recs = recs₀ ++ [r] ∧ r.frame = frame ∧ r.body = [] ∧
          out = Record.stream recs₀ ∧ prod ≠ .idle ∧ PushingAll frame.1 prod)

/-- The ring, the IO thread and the records. -/
structure IoInv (N c : UInt64) (ring : Threads) (io : IoPhase) (recs : List Record)
    (out : List UInt8) (taken seenHead seenTail : Nat) : Prop where
  inRing : Inv N c (Record.Stop recs) ring out taken seenHead seenTail
  inIo : io.Ok N recs out seenHead ring.producer

section
variable {N : UInt64} {recs : List Record} {out : List UInt8} {seenHead seenHead' : Nat}
variable {prod : Producer} {io : IoPhase}

/-- What is pushed is some of the records and, maybe, the frame of the next one. -/
theorem IoPhase.Ok.whole (h : io.Ok N recs out seenHead prod) :
    ∃ recs₀ rest, recs = recs₀ ++ rest ∧ io.openFrame <+: Record.stream rest ∧
      out = Record.stream recs₀ ++ io.openFrame := by
  have hframe (hopen : io.openFrame = []) {recs₀ rest : List Record} (hrecs : recs = recs₀ ++ rest)
      (hout : out = Record.stream recs₀) : ∃ recs₀ rest, recs = recs₀ ++ rest ∧
      io.openFrame <+: Record.stream rest ∧ out = Record.stream recs₀ ++ io.openFrame := by
    rw [hopen]
    exact ⟨recs₀, rest, hrecs, List.nil_prefix, by rw [List.append_nil, hout]⟩
  cases io with
  | header frame buf =>
      obtain ⟨recs₀, r, hrecs, -, -, -, hout, -⟩ := h
      exact hframe rfl hrecs hout
  | body frame buf =>
      obtain ⟨recs₀, r, rfl, rfl, -, -, hout, -⟩ := h
      exact ⟨recs₀, [r], rfl, ⟨r.bodyBytes, by rw [Record.stream_singleton]; rfl⟩, hout⟩
  | closing frame retries =>
      obtain ⟨-, ⟨hout, -⟩ | ⟨recs₀, r, hrecs, -, -, hout, -⟩⟩ := h
      · exact hframe rfl (List.append_nil _).symm hout
      · exact hframe rfl hrecs hout
  | _ => exact hframe rfl (List.append_nil _).symm h.1

/-- What is pushed is a prefix of the records. -/
theorem IoPhase.Ok.isPrefix (h : io.Ok N recs out seenHead prod) : out <+: Record.stream recs := by
  obtain ⟨recs₀, rest, rfl, ⟨more, hmore⟩, rfl⟩ := h.whole
  exact ⟨more, by rw [List.append_assoc, hmore, Record.stream_append]⟩

/-- A consumer that goes on leaves the IO thread where it is. -/
theorem IoPhase.Ok.mono (h : io.Ok N recs out seenHead prod) (hle : seenHead ≤ seenHead') :
    io.Ok N recs out seenHead' prod := by
  cases io with
  | header frame buf | body frame buf =>
      obtain ⟨recs₀, r, hrecs, hframe, hbody, hne, hout, hroom, hall⟩ := h
      exact ⟨recs₀, r, hrecs, hframe, hbody, hne, hout, by omega, hall⟩
  | _ => exact h

end

/-! ### What is owed to a connection -/

/-- `bytes`, if they are for `fd`. -/
def onlyFor (fd fd' : UInt32) (bytes : List UInt8) : List UInt8 := if fd' = fd then bytes else []

/-- The responses for `fd` in some records. -/
def Record.bodies (recs : List Record) (fd : UInt32) : List UInt8 :=
  (recs.map fun r => onlyFor fd r.fd r.bodyBytes).flatten

/-- What the engine produced for `fd` in a step. -/
def IoEvent.producedFor (fd : UInt32) : IoEvent → List UInt8
  | .produced fd' bytes => onlyFor fd fd' bytes
  | _ => []

/-- What the IO thread wrote to `fd` in a step. -/
def IoEvent.wroteTo (fd : UInt32) : IoEvent → List UInt8
  | .wrote fd' bytes => onlyFor fd fd' bytes
  | _ => []

/-- What a `pushResponses` call has neither pushed nor sent. -/
def IoPhase.pendingFor (fd : UInt32) : IoPhase → List UInt8
  | .check fd' buf _ => onlyFor fd fd' (ResponseBytes.flatten buf)
  | .direct fd' data sent _ => onlyFor fd fd' (data.drop sent)
  | _ => []

/-- A direct send does not fail and does not give up: this is not the 500th `EAGAIN` in a
row. -/
def IoPhase.Keeps : IoPhase → IoInput → Prop
  | .direct _ _ _ _, .sent (.sent n) => 0 < n
  | .direct _ _ _ spins, .sent (.failed errno) => errno = eagain ∧ spins + 1 < 500
  | _, _ => True

instance (io : IoPhase) (i : IoInput) : Decidable (io.Keeps i) := by
  unfold IoPhase.Keeps
  split <;> infer_instance

/-- Every response goes to the connection, into a record, or stays with the call. -/
def IoPhase.Accounts (io : IoPhase) (i : IoInput) (io' : IoPhase) (ev : IoEvent)
    (new : List Record) : Prop :=
  io.Keeps i → ∀ fd, io.pendingFor fd ++ ev.producedFor fd =
    ev.wroteTo fd ++ (Record.bodies new fd ++ io'.pendingFor fd)

/-! ### The steps of the IO thread -/

/-- The free space the push of a close frame sees is 0 or enough for the frame. -/
def CloseFits (N : UInt64) (ring : Threads) : IoPhase → IoInput → Prop
  | .closing _ _, .next view => ring.producer = .idle → ∀ x ∈ ring.head.load view,
      freeSpace N ring.tail.latest x.1 = 0 ∨ 48 ≤ freeSpace N ring.tail.latest x.1
  | _, _ => True

instance (N : UInt64) (ring : Threads) (io : IoPhase) (i : IoInput) :
    Decidable (CloseFits N ring io i) := by
  unfold CloseFits
  split <;> infer_instance

namespace IoInv

variable {N c : UInt64} {j : Nat} {ring ring' : Threads} {io io' : IoPhase} {i : IoInput}
  {ev : IoEvent} {recs : List Record} {out : List UInt8} {taken seenHead seenTail : Nat}

/-- What a step of the IO thread comes to. -/
def Next (N c : UInt64) (ring' : Threads) (io io' : IoPhase) (i : IoInput) (ev : IoEvent)
    (recs : List Record) (out : List UInt8) (taken seenTail : Nat) : Prop :=
  ∃ new seenHead' seenTail', seenTail ≤ seenTail' ∧
    IoInv N c ring' io' (recs ++ new) (out ++ ev.bytes) taken seenHead' seenTail' ∧
    io.Accounts i io' ev new ∧ (new = [] ∨ ∀ fd, io'.pendingFor fd = [])

/-- A step that adds no record. -/
theorem next_of_push {seenHead' seenTail' : Nat} (hle : seenTail ≤ seenTail')
    (hinv : IoInv N c ring' io' recs (out ++ ev.bytes) taken seenHead' seenTail')
    (hacc : io.Accounts i io' ev []) : Next N c ring' io io' i ev recs out taken seenTail :=
  ⟨[], seenHead', seenTail', hle, (List.append_nil recs).symm ▸ hinv, hacc, Or.inl rfl⟩

/-- A step that adds no record and pushes nothing. -/
theorem next_of_quiet {seenHead' : Nat} (hev : ev.bytes = [])
    (hinv : IoInv N c ring' io' recs out taken seenHead' seenTail)
    (hacc : io.Accounts i io' ev []) : Next N c ring' io io' i ev recs out taken seenTail :=
  next_of_push (Nat.le_refl _) (by rwa [hev, List.append_nil]) hacc

/-- A call begins. -/
theorem next_idle (h : IoInv N c ring .idle recs out taken seenHead seenTail)
    (hstep : ioStep N ring .idle i = some (ring', io', ev)) :
    Next N c ring' .idle io' i ev recs out taken seenTail := by
  have hring := h.inRing
  obtain ⟨hout, hprod⟩ := h.inIo
  cases i with
  | responses fd buf junk =>
      simp only [NebulaX.ioStep, Option.some.injEq, Prod.mk.injEq] at hstep
      obtain ⟨rfl, rfl, rfl⟩ := hstep
      split
      · rename_i hnil
        refine next_of_quiet rfl ⟨hring, hout, hprod⟩ fun _ fd' => ?_
        simp [IoPhase.pendingFor, IoEvent.producedFor, IoEvent.wroteTo, Record.bodies, hnil,
          ResponseBytes.flatten, onlyFor]
      · rename_i hne
        refine next_of_quiet rfl ⟨hring, hout, hprod, hne⟩ fun _ fd' => ?_
        simp [IoPhase.pendingFor, IoEvent.producedFor, IoEvent.wroteTo, Record.bodies]
  | close fd ackPtr junk =>
      simp only [NebulaX.ioStep, Option.some.injEq, Prod.mk.injEq] at hstep
      obtain ⟨rfl, rfl, rfl⟩ := hstep
      exact next_of_quiet rfl ⟨hring, ResponseBytes.type_close _ _ _, Or.inl ⟨hout, hprod⟩⟩
        fun _ _ => rfl
  | next view => cases hstep
  | sent r => cases hstep

/-- The test of the free space. -/
theorem next_check {fd : UInt32} {buf : List ResponseBytes} {junk : ResponseBytes}
    (hN : N.toNat = 2 ^ j) (hsize : N.toNat ≤ 2 ^ 32)
    (h : IoInv N c ring (.check fd buf junk) recs out taken seenHead seenTail)
    (hstep : ioStep N ring (.check fd buf junk) i = some (ring', io', ev)) :
    Next N c ring' (.check fd buf junk) io' i ev recs out taken seenTail := by
  obtain ⟨hout, hprod, hne⟩ := h.inIo
  have hring := h.inRing
  cases i with
  | next view =>
      simp only [NebulaX.ioStep, Option.map_eq_some_iff] at hstep
      obtain ⟨⟨head, reg⟩, hload, heq⟩ := hstep
      obtain ⟨k, hlow, hhigh, rfl, hreg⟩ := hring.head.load hload
      have hle := hring.taken_le
      have hroom := hring.room
      have hfree := freeSpace_count hN c (show k ≤ out.length by omega) (by omega)
      have hring' : Inv N c (Record.Stop recs) { ring with head := reg } out taken k seenTail :=
        ⟨hreg, hring.tail, by omega, hring.seen, hring.bytes, by rw [hprod]; trivial,
          hring.consumer⟩
      simp only [hring.tail.latest, hfree] at heq
      split at heq
      · rename_i hfits
        simp only [Prod.mk.injEq] at heq
        obtain ⟨rfl, rfl, rfl⟩ := heq
        -- the record is known from here on
        obtain ⟨r, hframe, hbody⟩ : ∃ r : Record,
            r.frame = junk.header fd (UInt32.ofNat buf.length) ∧ r.body = buf :=
          ⟨Record.ofResponses junk fd buf (by omega), rfl, rfl⟩
        have hinv : IoInv N c { ring with head := reg }
            (.header (junk.header fd (UInt32.ofNat buf.length)) buf) (recs ++ [r]) out taken k
            seenTail :=
          ⟨hring'.mono fun m hm => hm.append [r], recs, r, rfl, hframe, hbody, hne, hout, by omega,
            by rw [hprod]; trivial⟩
        refine ⟨[r], k, seenTail, Nat.le_refl _, (List.append_nil out).symm ▸ hinv,
          fun _ fd' => ?_, Or.inr fun _ => rfl⟩
        simp [IoPhase.pendingFor, IoEvent.producedFor, IoEvent.wroteTo, Record.bodies, Record.fd,
          Record.bodyBytes, hframe, hbody, ResponseBytes.clientFd_header]
      · simp only [Prod.mk.injEq] at heq
        obtain ⟨rfl, rfl, rfl⟩ := heq
        refine next_of_quiet rfl ⟨hring', hout, hprod, ?_⟩ fun _ fd' => ?_
        · rw [ResponseBytes.length_flatten]
          have := List.length_pos_of_ne_nil hne
          omega
        · simp [IoPhase.pendingFor, IoEvent.producedFor, IoEvent.wroteTo, Record.bodies]
  | _ => cases hstep

/-- The push of a header. -/
theorem next_header {frame : ResponseBytes} {buf : List ResponseBytes} (hN : N.toNat = 2 ^ j)
    (h : IoInv N c ring (.header frame buf) recs out taken seenHead seenTail)
    (hstep : ioStep N ring (.header frame buf) i = some (ring', io', ev)) :
    Next N c ring' (.header frame buf) io' i ev recs out taken seenTail := by
  obtain ⟨recs₀, r, rfl, hframe, hbody, hne, hout, hroom, hall⟩ := h.inIo
  cases i with
  | next view =>
      simp only [NebulaX.ioStep, Option.map_eq_some_iff] at hstep
      obtain ⟨⟨s', e⟩, hpush, heq⟩ := hstep
      have hlen := frame.2
      obtain ⟨seenHead', seenTail', hle, hle', hinv, ⟨rfl, -, hall'⟩ | ⟨hprod, free, rfl⟩⟩ :=
        h.inRing.pushNext_fits hN (List.ne_nil_of_length_pos (by omega)) (by omega) hall
          (hout ▸ (Record.stop_stream recs₀).append [r])
          (by rw [hlen, hout]; exact Record.stop_frame recs₀ r) hpush
      · obtain ⟨rfl, rfl, rfl⟩ : s' = ring' ∧ IoPhase.header frame buf = io' ∧
            IoEvent.quiet = ev := by simpa using heq
        exact next_of_push hle' ⟨hinv, recs₀, r, rfl, hframe, hbody, hne,
          (List.append_nil out).trans hout,
          by simp only [IoEvent.bytes_quiet, List.append_nil]; omega, hall'⟩ fun _ _ => rfl
      · simp only [Prod.mk.injEq] at heq
        obtain ⟨rfl, rfl, rfl⟩ := heq
        refine next_of_push hle' ⟨hinv, recs₀, r, rfl, hframe, hbody, hne, ?_, ?_,
          by rw [hprod]; trivial⟩ fun _ _ => rfl
        · rw [IoEvent.bytes_pushed, List.take_length, hout]
        · rw [IoEvent.bytes_pushed, List.take_length, List.length_append, hlen]
          omega
  | _ => cases hstep

/-- The push of the responses. -/
theorem next_body {frame : ResponseBytes} {buf : List ResponseBytes} (hN : N.toNat = 2 ^ j)
    (h : IoInv N c ring (.body frame buf) recs out taken seenHead seenTail)
    (hstep : ioStep N ring (.body frame buf) i = some (ring', io', ev)) :
    Next N c ring' (.body frame buf) io' i ev recs out taken seenTail := by
  obtain ⟨recs₀, r, rfl, rfl, rfl, hne, hout, hroom, hall⟩ := h.inIo
  cases i with
  | next view =>
      simp only [NebulaX.ioStep, Option.map_eq_some_iff] at hstep
      obtain ⟨⟨s', e⟩, hpush, heq⟩ := hstep
      have hlen := ResponseBytes.length_flatten r.body
      have hpos := List.length_pos_of_ne_nil hne
      have hwhole : out ++ ResponseBytes.flatten r.body = Record.stream (recs₀ ++ [r]) := by
        rw [hout, Record.stream_append, Record.stream_singleton, Record.bytes, List.append_assoc]
        rfl
      have hstop : out.length = (Record.stream recs₀).length + 48 := by
        rw [hout, List.length_append, r.frame.2]
      obtain ⟨seenHead', seenTail', hle, hle', hinv, ⟨rfl, -, hall'⟩ | ⟨hprod, free, rfl⟩⟩ :=
        h.inRing.pushNext_fits hN (List.ne_nil_of_length_pos (by omega)) (by omega) hall
          (hstop ▸ Record.stop_frame recs₀ r)
          (by rw [← List.length_append, hwhole]; exact Record.stop_stream _) hpush
      · obtain ⟨rfl, rfl, rfl⟩ : s' = ring' ∧ IoPhase.body r.frame r.body = io' ∧
            IoEvent.quiet = ev := by simpa using heq
        exact next_of_push hle' ⟨hinv, recs₀, r, rfl, rfl, rfl, hne,
          (List.append_nil out).trans hout,
          by simp only [IoEvent.bytes_quiet, List.append_nil]; omega, hall'⟩ fun _ _ => rfl
      · simp only [Prod.mk.injEq] at heq
        obtain ⟨rfl, rfl, rfl⟩ := heq
        refine next_of_push hle' ⟨hinv, ?_, hprod⟩ fun _ _ => rfl
        rw [IoEvent.bytes_pushed, List.take_length, hwhole]
  | _ => cases hstep

/-- An answer to a direct send. -/
theorem next_direct {fd : UInt32} {data : List UInt8} {sent spins : Nat}
    (h : IoInv N c ring (.direct fd data sent spins) recs out taken seenHead seenTail)
    (hstep : ioStep N ring (.direct fd data sent spins) i = some (ring', io', ev)) :
    Next N c ring' (.direct fd data sent spins) io' i ev recs out taken seenTail := by
  obtain ⟨hout, hprod, hlt⟩ := h.inIo
  have hring := h.inRing
  cases i with
  | sent r =>
      cases r with
      | sent n =>
          simp only [NebulaX.ioStep] at hstep
          split at hstep
          · rename_i hzero
            obtain ⟨rfl, rfl, rfl⟩ : ring = ring' ∧ IoPhase.idle = io' ∧ IoEvent.quiet = ev := by
              simpa using hstep
            exact next_of_quiet rfl ⟨hring, hout, hprod⟩ fun hpos => absurd hzero
              (Nat.ne_of_gt hpos)
          · split at hstep
            · rename_i hle
              simp only [Option.some.injEq, Prod.mk.injEq] at hstep
              obtain ⟨rfl, rfl, rfl⟩ := hstep
              split
              · rename_i hmore
                refine next_of_quiet rfl ⟨hring, hout, hprod, hmore⟩ fun _ fd' => ?_
                by_cases hfd : fd = fd'
                · simp [IoPhase.pendingFor, IoEvent.producedFor, IoEvent.wroteTo, Record.bodies,
                    onlyFor, hfd, ← List.drop_drop, List.take_append_drop]
                · simp [IoPhase.pendingFor, IoEvent.producedFor, IoEvent.wroteTo, Record.bodies,
                    onlyFor, hfd]
              · rename_i hdone
                refine next_of_quiet rfl ⟨hring, hout, hprod⟩ fun _ fd' => ?_
                have hall : (data.drop sent).take n = data.drop sent :=
                  List.take_of_length_le (by rw [List.length_drop]; omega)
                simp [IoPhase.pendingFor, IoEvent.producedFor, IoEvent.wroteTo, Record.bodies,
                  hall]
            · cases hstep
      | failed errno =>
          simp only [NebulaX.ioStep] at hstep
          split at hstep
          · simp only [Option.some.injEq, Prod.mk.injEq] at hstep
            obtain ⟨rfl, rfl, rfl⟩ := hstep
            split
            · rename_i hspins
              exact next_of_quiet rfl ⟨hring, hout, hprod⟩ fun hkeep => absurd hkeep.2
                (by omega)
            · refine next_of_quiet rfl ⟨hring, hout, hprod, hlt⟩ fun _ fd' => ?_
              simp [IoPhase.pendingFor, IoEvent.producedFor, IoEvent.wroteTo, Record.bodies]
          · rename_i hne
            obtain ⟨rfl, rfl, rfl⟩ : ring = ring' ∧ IoPhase.idle = io' ∧ IoEvent.quiet = ev := by
              simpa using hstep
            exact next_of_quiet rfl ⟨hring, hout, hprod⟩ fun hkeep => absurd hkeep.1 hne
  | _ => cases hstep

/-- The push of a close frame. -/
theorem next_closing {frame : ResponseBytes} {retries : Nat} (hN : N.toNat = 2 ^ j)
    (h : IoInv N c ring (.closing frame retries) recs out taken seenHead seenTail)
    (hfits : CloseFits N ring (.closing frame retries) i)
    (hstep : ioStep N ring (.closing frame retries) i = some (ring', io', ev)) :
    Next N c ring' (.closing frame retries) io' i ev recs out taken seenTail := by
  have hring := h.inRing
  obtain ⟨htype, hio⟩ := h.inIo
  cases i with
  | next view =>
      simp only [NebulaX.ioStep, Option.map_eq_some_iff] at hstep
      obtain ⟨⟨s', e⟩, hpush, heq⟩ := hstep
      have hlen := frame.2
      obtain ⟨hout, hprod⟩ | ⟨recs₀, r, rfl, rfl, hbody, hout, hprod, hall⟩ := hio
      · simp only [pushNext, hprod] at hpush
        obtain ⟨head, reg, k, hload, hlow, hk, hfree, hinv, -, hcase⟩ :=
          hring.push_load hN hpush
        have hfit := hfits hprod (head, reg) hload
        rw [hfree] at hfit
        obtain ⟨hzero, hprod', rfl⟩ | ⟨hpos, rfl, hprod'⟩ := hcase
        · -- no room at all: the call tries again or gives up
          simp only [if_true, Prod.mk.injEq] at heq
          obtain ⟨rfl, rfl, rfl⟩ := heq
          refine next_of_quiet rfl ⟨hinv, ?_⟩ fun _ fd' => ?_
          · split
            · exact ⟨hout, hprod'⟩
            · exact ⟨htype, Or.inl ⟨hout, hprod'⟩⟩
          · split <;> rfl
        · -- the frame will be written as a whole, so its record begins here
          obtain ⟨rfl, rfl, rfl⟩ : s' = ring' ∧ IoPhase.closing frame retries = io' ∧
              IoEvent.quiet = ev := by simpa using heq
          have hinv' : IoInv N c s' (.closing frame retries)
              (recs ++ [Record.ofClose frame htype]) out taken k seenTail :=
            ⟨hinv.mono fun m hm => hm.append _, htype, Or.inr ⟨recs, _, rfl, rfl, rfl, hout,
              by simp [hprod'], by rw [hprod']; exact ⟨rfl, by simp only; omega⟩⟩⟩
          exact ⟨[_], k, seenTail, Nat.le_refl _, (List.append_nil out).symm ▸ hinv',
            fun _ fd' => by simp [IoPhase.pendingFor, IoEvent.producedFor, IoEvent.wroteTo,
              Record.bodies, Record.bodyBytes, Record.ofClose, ResponseBytes.flatten, onlyFor],
            Or.inr fun _ => rfl⟩
      · have hwhole : out ++ r.frame.1 = Record.stream (recs₀ ++ [r]) := by
          rw [hout, Record.stream_append, Record.stream_singleton, Record.bytes, Record.bodyBytes,
            hbody]
          exact (congrArg _ (List.append_nil _)).symm
        obtain ⟨seenHead', seenTail', hle, hle', hinv,
            ⟨rfl, hgo, hall'⟩ | ⟨hdone, free, rfl⟩⟩ :=
          hring.pushNext_going hN hprod hall (hout ▸ (Record.stop_stream recs₀).append [r])
            (by rw [← List.length_append, hwhole]; exact Record.stop_stream _) hpush
        · obtain ⟨rfl, rfl, rfl⟩ : s' = ring' ∧ IoPhase.closing r.frame retries = io' ∧
              IoEvent.quiet = ev := by simpa using heq
          exact next_of_push hle' ⟨hinv, htype, Or.inr ⟨recs₀, r, rfl, rfl, hbody,
            (List.append_nil out).trans hout, hgo, hall'⟩⟩ fun _ _ => rfl
        · simp only [hlen, show ¬(48 = 0) by decide, if_false, Prod.mk.injEq] at heq
          obtain ⟨rfl, rfl, rfl⟩ := heq
          have htake : r.frame.1.take 48 = r.frame.1 := List.take_of_length_le (Nat.le_of_eq hlen)
          rw [hlen] at hinv
          refine next_of_push hle' ⟨hinv, ?_, hdone⟩ fun _ _ => rfl
          rw [IoEvent.bytes_pushed, htake, hwhole]
  | _ => cases hstep

/-- Every step of the IO thread keeps the invariant. -/
protected theorem ioStep (hN : N.toNat = 2 ^ j) (hsize : N.toNat ≤ 2 ^ 32)
    (h : IoInv N c ring io recs out taken seenHead seenTail) (hfits : CloseFits N ring io i)
    (hstep : ioStep N ring io i = some (ring', io', ev)) :
    Next N c ring' io io' i ev recs out taken seenTail := by
  cases io with
  | idle => exact h.next_idle hstep
  | check fd buf junk => exact h.next_check hN hsize hstep
  | header frame buf => exact h.next_header hN hstep
  | body frame buf => exact h.next_body hN hstep
  | direct fd data sent spins => exact h.next_direct hstep
  | closing frame retries => exact h.next_closing hN hfits hstep

end IoInv

/-! ### Every run -/

namespace SPSCByteRing

/-- The four steps of a push that writes `n` bytes. -/
theorem pushNext_run {N : UInt64} {ring : Threads} (data : List UInt8) {v : UInt64}
    {reg : Register UInt64} {n : Nat} (hprod : ring.producer = .idle)
    (hload : ring.head.load 0 = some (v, reg)) (hlen : pushLen N ring.tail.latest v data.length = n)
    (hpos : n ≠ 0) :
    ∃ r₁ r₂ r₃ r₄ free, pushNext N ring data 0 = some (r₁, .quiet) ∧
      pushNext N r₁ data 0 = some (r₂, .quiet) ∧ pushNext N r₂ data 0 = some (r₃, .quiet) ∧
      pushNext N r₃ data 0 = some (r₄, .pushed data free n) ∧ r₄.producer = .idle ∧
      r₄.head = reg ∧ r₄.tail = ring.tail.store (ring.tail.latest + UInt64.ofNat n) := by
  have hfirst : pushNext N ring data 0 = some ({ ring with
      head := reg
      producer := .loaded ⟨data, freeSpace N ring.tail.latest v, n⟩ }, .quiet) := by
    simp only [pushNext, hprod, SPSCByteRing.step, hload, Option.map_some, hlen, hpos, if_false]
  exact ⟨_, _, _, _, _, hfirst, rfl, rfl, rfl, rfl, rfl, rfl⟩

end SPSCByteRing

theorem IoInv.start (N c : UInt64) (buf : Nat → UInt8) :
    IoInv N c (SPSCByteRing.start buf c) .idle [] [] 0 0 0 :=
  ⟨Inv.start N c buf (Record.stop_stream []), rfl, rfl⟩

theorem ringSize_pow : ringSize.toNat = 2 ^ 23 := by decide

namespace ResponseRing

/-- A step at which the push of a close frame, if it is one, sees no room or enough. -/
def Fits (N : UInt64) (s : ResponseRing) : Input → Prop
  | .io i => CloseFits N s.ring s.io i
  | .consume _ => True

instance (N : UInt64) (s : ResponseRing) (i : Input) : Decidable (s.Fits N i) := by
  unfold Fits
  split <;> infer_instance

/-- All bytes pushed into the ring. -/
def pushed (h : List (Input × IoEvent)) : List UInt8 := (h.map fun x => x.2.bytes).flatten

/-- **The ring carries whole records.** In every state of a run in which no close frame meets a
ring with some room but not enough, the bytes pushed are complete records, and the header of
the next one while `pushResponses` is pushing its responses. -/
theorem ring_carries_records (c : UInt64) (buf : Nat → UInt8) {h : List (Input × IoEvent)}
    {s : ResponseRing} (t : Trace (step ringSize) (fun _ s i => s.Fits ringSize i)
      ⟨SPSCByteRing.start buf c, .idle⟩ h s) :
    ∃ recs, pushed h = Record.stream recs ++ s.io.openFrame := by
  suffices hinv : ∃ recs taken seenHead seenTail,
      IoInv ringSize c s.ring s.io recs (pushed h) taken seenHead seenTail by
    obtain ⟨recs, taken, seenHead, seenTail, hinv⟩ := hinv
    obtain ⟨recs₀, -, -, -, hout⟩ := hinv.inIo.whole
    exact ⟨recs₀, hout⟩
  refine t.invariant (fun h s => ∃ recs taken seenHead seenTail,
    IoInv ringSize c s.ring s.io recs (pushed h) taken seenHead seenTail)
    ⟨[], 0, 0, 0, IoInv.start ringSize c buf⟩ ?_
  rintro h s i s' ev - ⟨recs, taken, seenHead, seenTail, hinv⟩ hfits hstep
  have hpushed : pushed (h ++ [(i, ev)]) = pushed h ++ ev.bytes := by simp [pushed]
  rw [hpushed]
  cases i with
  | io i =>
      obtain ⟨⟨ring, io, ev'⟩, hio, heq⟩ := Option.map_eq_some_iff.mp hstep
      obtain ⟨rfl, rfl⟩ := Prod.mk.inj heq
      obtain ⟨new, seenHead', seenTail', -, hinv', -, -⟩ :=
        hinv.ioStep ringSize_pow (by decide) hfits hio
      exact ⟨recs ++ new, taken, seenHead', seenTail', hinv'⟩
  | consume a =>
      simp only [step] at hstep
      split at hstep
      · rename_i ha
        obtain ⟨⟨ring, e⟩, hring, heq⟩ := Option.map_eq_some_iff.mp hstep
        obtain ⟨rfl, rfl⟩ := Prod.mk.inj heq
        obtain ⟨hprod, hsent⟩ := step_ofConsumer ha hring
        obtain ⟨taken', seenHead', seenTail', hinv', -, ⟨-, -, hle, -⟩, -⟩ :=
          hinv.inRing.step ringSize_pow hring (by
            rw [hsent]
            exact hinv.inRing.tail.stop)
        refine ⟨recs, taken', seenHead', seenTail', ⟨?_, ?_⟩⟩
        · rwa [hsent] at hinv'
        · rw [IoEvent.bytes_quiet, List.append_nil]
          show s.io.Ok ringSize recs (pushed h) seenHead' ring.producer
          rw [hprod]
          exact hinv.inIo.mono hle
      · cases hstep

/-- Two responses and a close frame. -/
theorem ring_carries_records_close : ∃ h s, Trace (step ringSize) (fun _ s i => s.Fits ringSize i)
    ⟨SPSCByteRing.start (fun _ => 0) 0, .idle⟩ h s ∧ (pushed h).length = 4 * 48 ∧
    ∃ recs, pushed h = Record.stream recs ++ s.io.openFrame := by
  let frame : ResponseBytes := ⟨List.replicate 48 0, rfl⟩
  let acts : List Input := List.flatten [[.io (.responses 5 [frame, frame] frame)],
    List.replicate 9 (.io (.next 0)), [.io (.close 5 0 frame)],
    List.replicate 4 (.io (.next 0))]
  have hrun : (checked (fun _ s i => s.Fits ringSize i) (step ringSize) []
      ⟨SPSCByteRing.start (fun _ => 0) 0, .idle⟩ acts).map
        (fun r => (pushed r.2).length) = some (4 * 48) := by decide +kernel
  obtain ⟨⟨s, h⟩, hrun, hlen⟩ := Option.map_eq_some_iff.mp hrun
  have t := Trace.of_checked .nil hrun
  exact ⟨_, s, t, hlen, ring_carries_records 0 (fun _ => 0) t⟩

/-- 174761 responses leave 32 bytes free, and a close frame goes into the ring without its
end. -/
theorem close_frame_truncated : ∃ h s, Trace (step ringSize) (fun _ _ _ => True)
    ⟨SPSCByteRing.start (fun _ => 0) 0, .idle⟩ h s ∧ s.io = .idle ∧
    ¬∃ recs, pushed h = Record.stream recs := by
  obtain ⟨frame⟩ : Nonempty ResponseBytes := ⟨⟨List.replicate 48 0, rfl⟩⟩
  obtain ⟨buf, hbuf⟩ : ∃ buf : List ResponseBytes, buf.length = 174761 :=
    ⟨List.replicate 174761 frame, List.length_replicate⟩
  have hne : buf ≠ [] := List.ne_nil_of_length_pos (by omega)
  obtain ⟨n, hn⟩ : ∃ n, n = 8388528 := ⟨_, rfl⟩
  have hlen : (ResponseBytes.flatten buf).length = n := by
    rw [ResponseBytes.length_flatten, hbuf, hn]
  obtain ⟨header, hheader⟩ : ∃ b, frame.header 5 (UInt32.ofNat buf.length) = b := ⟨_, rfl⟩
  obtain ⟨close, hclose⟩ : ∃ b, frame.close 5 0 = b := ⟨_, rfl⟩
  obtain ⟨ring, hring⟩ : ∃ r, SPSCByteRing.start (fun _ => 0) 0 = r := ⟨_, rfl⟩
  have hload : ring.head.load 0 = some (0, ⟨0, []⟩) := hring ▸ rfl
  have htail : ring.tail = ⟨0, []⟩ := hring ▸ rfl
  -- the three pushes: the header, the responses, and 32 bytes of the close frame
  obtain ⟨a₁, a₂, a₃, a₄, _, ha₁, ha₂, ha₃, ha₄, haprod, hahead, hatail⟩ :=
    pushNext_run (N := ringSize) header.1 (n := 48) (hring ▸ rfl) hload
      (by rw [htail, header.2]; decide) (by decide)
  obtain ⟨b₁, b₂, b₃, b₄, _, hb₁, hb₂, hb₃, hb₄, hbprod, hbhead, hbtail⟩ :=
    pushNext_run (N := ringSize) (ResponseBytes.flatten buf) (n := n) haprod
      (by rw [hahead]; rfl) (by rw [hatail, htail, hlen, hn]; decide) (by omega)
  obtain ⟨c₁, c₂, c₃, c₄, _, hc₁, hc₂, hc₃, hc₄, -⟩ :=
    pushNext_run (N := ringSize) close.1 (n := 32) hbprod
      (by rw [hbhead]; rfl) (by rw [hbtail, hatail, htail, close.2, hn]; decide) (by decide)
  have hroom : freeSpace ringSize ring.tail.latest 0 ≥ 48 + buf.length * 48 := by
    rw [hbuf, htail]
    decide
  have hsame : { ring with head := ⟨0, []⟩ } = ring := hring ▸ rfl
  let acts : List Input := .io (.responses 5 buf frame) :: List.replicate 9 (.io (.next 0))
  let acts' : List Input := .io (.close 5 0 frame) :: List.replicate 4 (.io (.next 0))
  have hrun : run (step ringSize) ⟨ring, .idle⟩ acts = some (⟨b₄, .idle⟩,
      [.produced 5 (ResponseBytes.flatten buf), .quiet, .quiet, .quiet, .quiet,
        .pushed (header.1.take 48), .quiet, .quiet, .quiet,
        .pushed ((ResponseBytes.flatten buf).take n)]) := by
    simp only [acts, List.replicate, run_cons, runNext_mk, run_nil, step, ioStep, hne, if_false,
      hload, hroom, if_true, hsame, hheader, Option.map_some, Option.bind_some, ha₁, ha₂, ha₃, ha₄,
      hb₁, hb₂, hb₃, hb₄]
  have hrun' : run (step ringSize) ⟨b₄, .idle⟩ acts' = some (⟨c₄, .idle⟩,
      [.quiet, .quiet, .quiet, .quiet, .pushed (close.1.take 32)]) := by
    simp only [acts', List.replicate, run_cons, runNext_mk, run_nil, step, ioStep, hclose,
      Option.map_some, Option.bind_some, hc₁, hc₂, hc₃, hc₄, show ¬(32 = 0) by decide, if_false]
  obtain ⟨os, hall, hos⟩ : ∃ os, run (step ringSize) ⟨ring, .idle⟩ (acts ++ acts') =
      some (⟨c₄, .idle⟩, os) ∧ os = _ ++ _ := by
    rw [run_append, hrun, Option.bind_some, hrun', Option.map_some]
    exact ⟨_, rfl, rfl⟩
  refine ⟨_, _, hring ▸ (Trace.of_run (fun _ _ => trivial) hall).2, rfl, ?_⟩
  rintro ⟨recs, hrecs⟩
  have hdvd := Record.dvd_length_stream recs
  rw [← hrecs] at hdvd
  simp only [hos, pushed, acts, acts', List.replicate, List.cons_append, List.nil_append,
    List.zip_cons_cons, List.zip_nil_left, List.map_cons, List.map_nil, IoEvent.bytes,
    List.flatten_cons, List.flatten_nil, List.length_append, List.length_take, List.length_nil,
    hlen, header.2, close.2] at hdvd
  omega

end ResponseRing

end NebulaX
