import NebulaX.Proofs.Delivery
import NebulaX.Proofs.Framing
import NebulaX.Server.ItchServer

/-!
# `NebulaX.Proofs.ItchServer`: every client gets its answers

The ITCH server from socket to socket. The requests of all connections make one serial history of
the engine, and `Inv` says where its parts are: the messages of a connection are the frames of what
it sent, and what was produced for it is the stream of their answers. What becomes of that stream is
`ResponsePath.Kept`. A client that cuts what it gets into 48 bytes reads the answers back.
-/

set_option autoImplicit false

namespace NebulaX

open NebulaX.Lib

/-! ### The layout of a response -/

namespace ResponseBytes

section
variable (b : ResponseBytes) {off off' k k' n : Nat}

theorem get_put_self (h : off + k ≤ 48) (hn : n < 256 ^ k) :
    get (b.put off k n h).1 off k = n := by
  rw [get, put, slice_set _ _ (length_leBytes k n), ofLe_leBytes hn]

theorem get_put_of_disjoint (h : off + k ≤ 48) (hd : off' + k' ≤ off ∨ off + k ≤ off') :
    get (b.put off k n h).1 off' k' = get b.1 off' k' := by
  rw [get, put, slice_set_of_disjoint _ _ (by rwa [length_leBytes]), ← get]

theorem get_put_uint8 (x : UInt8) (h : off + 1 ≤ 48) :
    get (b.put off 1 x.toNat h).1 off 1 = x.toNat := get_put_self b h x.toNat_lt

theorem ofNat_get_put_uint16 (x : UInt16) (h : off + 2 ≤ 48) :
    UInt16.ofNat (get (b.put off 2 x.toNat h).1 off 2) = x := by
  rw [get_put_self b h x.toNat_lt, UInt16.ofNat_toNat]

theorem ofNat_get_put_uint32 (x : UInt32) (h : off + 4 ≤ 48) :
    UInt32.ofNat (get (b.put off 4 x.toNat h).1 off 4) = x := by
  rw [get_put_self b h x.toNat_lt, UInt32.ofNat_toNat]

theorem ofNat_get_put_uint64 (x : UInt64) (h : off + 8 ≤ 48) :
    UInt64.ofNat (get (b.put off 8 x.toNat h).1 off 8) = x := by
  rw [get_put_self b h x.toNat_lt, UInt64.ofNat_toNat]

end

end ResponseBytes

theorem Side.ofWire_wire (s : Side) : Side.ofWire s.wire = s := by
  cases s with
  | invalid => rfl
  | buy => rfl
  | sell => rfl
  | other n =>
      have hnat : (UInt8.ofNat (n + 3)).toNat = n + 3 :=
        UInt8.toNat_ofNat_of_lt' (show _ < 256 by omega)
      have hne : ∀ b : UInt8, b.toNat < 3 → UInt8.ofNat (n + 3) ≠ b := by
        rintro b hb rfl
        omega
      rw [Side.wire, Side.ofWire, if_neg (hne 0 (by decide)), if_neg (hne 1 (by decide)),
        if_neg (hne 2 (by decide)), hnat, Nat.add_sub_cancel, Fin.ofNat_val_eq_self]

theorem ErrorCode.ofValue_value (c : ErrorCode) : ErrorCode.ofValue c.value = some c := by
  cases c <;> rfl

namespace BinaryResponse

open ResponseBytes

/-- A client reads the response that was sent. -/
theorem decode_encode (r : BinaryResponse) : decode r.encode.1 = some r := by
  cases r with
  | trade t =>
      have htype : get (encode (.trade t)).1 0 1 = rspTrade.toNat := by
        simp (disch := decide) only [encode, get_put_of_disjoint, get_put_uint8]
      rw [decode, if_pos htype]
      simp (disch := decide) only [encode, get_put_of_disjoint, get_put_uint8, ofNat_get_put_uint32,
        ofNat_get_put_uint64, UInt8.ofNat_toNat, Side.ofWire_wire]
  | error code =>
      have htype : get (encode (.error code)).1 0 1 = rspError.toNat := by
        simp (disch := decide) only [encode, get_put_of_disjoint, get_put_uint8]
      rw [decode, htype, if_neg (by decide), if_neg (by decide), if_neg (by decide),
        if_neg (by decide), if_pos rfl, encode, ofNat_get_put_uint16, ErrorCode.ofValue_value]
      rfl
  | ok orderId =>
      have htype : get (encode (.ok orderId)).1 0 1 = rspOk.toNat := by
        simp (disch := decide) only [encode, get_put_of_disjoint, get_put_uint8]
      rw [decode, htype, if_neg (by decide), if_pos rfl, encode, ofNat_get_put_uint64]
  | filled orderId =>
      have htype : get (encode (.filled orderId)).1 0 1 = rspFilled.toNat := by
        simp (disch := decide) only [encode, get_put_of_disjoint, get_put_uint8]
      rw [decode, htype, if_neg (by decide), if_neg (by decide), if_pos rfl, encode,
        ofNat_get_put_uint64]
  | cancelled orderId =>
      have htype : get (encode (.cancelled orderId)).1 0 1 = rspCancelled.toNat := by
        simp (disch := decide) only [encode, get_put_of_disjoint, get_put_uint8]
      rw [decode, htype, if_neg (by decide), if_neg (by decide), if_neg (by decide), if_pos rfl,
        encode, ofNat_get_put_uint64]
  | book b =>
      have htype : get (encode (.book b)).1 0 1 = rspBook.toNat := by
        simp (disch := decide) only [encode, get_put_of_disjoint, get_put_uint8]
      rw [decode, htype, if_neg (by decide), if_neg (by decide), if_neg (by decide),
        if_neg (by decide), if_neg (by decide), if_pos rfl]
      simp (disch := decide) only [encode, get_put_of_disjoint, ofNat_get_put_uint32,
        ofNat_get_put_uint64]

end BinaryResponse

/-! ### What a client reads -/

/-- The responses in a stream, 48 bytes each. -/
def responses : Splitter UInt8 BinaryResponse where
  next b := if b.length < 48 then none else some (BinaryResponse.decode (b.take 48), b.drop 48)
  shorter := by
    intro b item rest h
    split at h
    · cases h
    · obtain ⟨-, rfl⟩ := Prod.mk.inj (Option.some.inj h)
      rw [List.length_drop]
      omega
  stable := by
    intro b item rest h x
    split at h
    · cases h
    · cases h
      rw [if_neg (by rw [List.length_append]; omega), List.take_append_of_le_length (by omega),
        List.drop_append_of_le_length (by omega)]

/-- The stream of some responses. -/
def responseStream (rs : List BinaryResponse) : List UInt8 :=
  ResponseBytes.flatten (rs.map BinaryResponse.encode)

theorem responseStream_append (rs rs' : List BinaryResponse) :
    responseStream (rs ++ rs') = responseStream rs ++ responseStream rs' := by
  simp [responseStream, ResponseBytes.flatten]

/-- A client that gets all of a stream reads its responses. -/
theorem split_responseStream (rs : List BinaryResponse) :
    responses.split (responseStream rs) = (rs, []) := by
  rw [responseStream, ResponseBytes.flatten, List.map_map]
  refine Splitter.split_flatten (fun r _ x => ?_) rfl
  have hlen : (Subtype.val ∘ BinaryResponse.encode) r = r.encode.1 := rfl
  have h48 := r.encode.2
  show (if _ then none else some _) = _
  rw [if_neg (by rw [List.length_append, hlen]; omega), hlen,
    List.take_append_of_le_length (by omega), List.drop_append_of_le_length (by omega),
    List.take_of_length_le (by omega), List.drop_of_length_le (by omega), List.nil_append,
    BinaryResponse.decode_encode]

/-- A client that gets a part of a stream reads the first of its responses. -/
theorem split_prefix {rs : List BinaryResponse} {b : List UInt8} (h : b <+: responseStream rs) :
    (responses.split b).1 <+: rs := by
  obtain ⟨x, hx⟩ := h
  have hall := split_responseStream rs
  rw [← hx, Splitter.split_append] at hall
  exact ⟨_, (Prod.mk.inj hall).1⟩

/-! ### The threads at rest -/

/-- Only a call of `pushResponses` brings new responses. -/
theorem ioStep_producedFor {N : UInt64} {ring ring' : SPSCByteRing.Threads} {io io' : IoPhase}
    {i : IoInput} {ev : IoEvent} (hi : ∀ fd buf junk, i ≠ .responses fd buf junk)
    (hstep : ioStep N ring io i = some (ring', io', ev)) (fd : UInt32) :
    ev.producedFor fd = [] := by
  unfold ioStep at hstep
  split at hstep
  case h_1 => exact absurd rfl (hi _ _ _)
  case h_2 =>
      obtain ⟨-, -, rfl⟩ := by simpa using hstep
      rfl
  case h_3 =>
      obtain ⟨⟨head, reg⟩, -, heq⟩ := Option.map_eq_some_iff.mp hstep
      simp only at heq
      split at heq
      all_goals
        obtain ⟨-, -, rfl⟩ := by simpa using heq
        rfl
  case h_4 | h_5 =>
      obtain ⟨⟨s', e⟩, -, heq⟩ := Option.map_eq_some_iff.mp hstep
      cases e
      all_goals
        obtain ⟨-, -, rfl⟩ := by simpa using heq
        rfl
  case h_6 =>
      split at hstep
      · obtain ⟨-, -, rfl⟩ := by simpa using hstep
        rfl
      · split at hstep
        · obtain ⟨-, -, rfl⟩ := by simpa using hstep
          rfl
        · cases hstep
  case h_7 =>
      split at hstep
      all_goals
        obtain ⟨-, -, rfl⟩ := by simpa using hstep
        rfl
  case h_8 =>
      obtain ⟨⟨s', e⟩, -, heq⟩ := Option.map_eq_some_iff.mp hstep
      cases e with
      | pushed data free n =>
          simp only at heq
          split at heq
          all_goals
            obtain ⟨-, -, rfl⟩ := by simpa using heq
            rfl
      | _ =>
          obtain ⟨-, -, rfl⟩ := by simpa using heq
          rfl
  case h_9 => cases hstep

namespace ResponsePath

/-- A call of `pushResponses` begins when the one before it has returned. -/
theorem step_responses {N : UInt64} {s s' : ResponsePath} {ev : Event} {fd : UInt32}
    {buf : List ResponseBytes} {junk : ResponseBytes}
    (hstep : step N s (.io (.responses fd buf junk)) = some (s', ev)) :
    s.io = .idle ∧ ev = .io (.produced fd (ResponseBytes.flatten buf)) := by
  obtain ⟨⟨ring, io, e⟩, hio, heq⟩ := Option.map_eq_some_iff.mp hstep
  obtain ⟨-, rfl⟩ := Prod.mk.inj heq
  cases hphase : s.io with
  | idle =>
      rw [hphase] at hio
      obtain ⟨-, -, rfl⟩ := by simpa [ioStep] using hio
      exact ⟨rfl, rfl⟩
  | _ =>
      rw [hphase] at hio
      cases hio

/-- Both threads are between two records, and the ring is empty. -/
def AtRest (s : ResponsePath) : Prop :=
  s.io = .idle ∧ s.send.phase = .top ∧ s.ring.consumer = .idle ∧
    s.ring.head.latest = s.ring.tail.latest

instance (p : IoPhase) : Decidable (p = .idle) :=
  match p with
  | .idle => .isTrue rfl
  | .check .. | .header .. | .body .. | .direct .. | .closing .. => .isFalse nofun

instance (c : SPSCByteRing.Consumer) : Decidable (c = .idle) :=
  match c with
  | .idle => .isTrue rfl
  | .held _ | .popping .. | .popMore .. => .isFalse nofun

instance (s : ResponsePath) : Decidable s.AtRest :=
  inferInstanceAs (Decidable (_ ∧ _ ∧ _ ∧ _))

/-- At rest nothing is on its way. -/
theorem Kept.written_eq {c : UInt64} {h : List (Input × Event)} {s : ResponsePath}
    {recs : List Record} {out : List UInt8} {taken seenHead seenTail : Nat} {p : SendPos}
    (hk : Kept ringSize c h s recs out taken seenHead seenTail p) (hrest : s.AtRest) (fd : UInt32) :
    written h fd = produced h fd := by
  obtain ⟨hidle, htop, hcons, hempty⟩ := hrest
  have hring := hk.io.inRing
  -- all bytes of the ring are taken
  have htaken : taken = out.length := by
    have hle := hring.taken_le
    have hroom := hring.room
    have hseen := hring.head.le
    have hsub : out.length - taken < 2 ^ 64 := by
      have : ringSize.toNat = 2 ^ 23 := ringSize_pow
      omega
    rw [hring.head.latest, hring.tail.latest] at hempty
    have hdist := count_sub c hle hsub
    rw [hempty, UInt64.sub_self, UInt64.toNat_zero] at hdist
    omega
  -- so the Send thread has no record before it
  have hout : out = Record.stream recs := by
    have hio := hk.io.inIo
    rw [hidle] at hio
    exact hio.1
  have hsend := hk.send.inSend
  rw [htop, hcons] at hsend
  obtain ⟨hmid, hbase⟩ := hsend
  have hnone : p.rest = [] := by
    cases hr : p.rest with
    | nil => rfl
    | cons r rest =>
        have hlen := congrArg List.length hout
        rw [hk.send.split, hr, Record.stream_append, List.length_append, ← htaken,
          show taken = (Record.stream p.done).length from hbase] at hlen
        have hpos : 48 ≤ (Record.stream (r :: rest)).length := by
          rw [← List.singleton_append, Record.stream_append, Record.stream_singleton, Record.bytes,
            List.length_append, List.length_append, r.frame.2]
          omega
        omega
  have hqueued : p.queued fd = [] := by
    rw [SendPos.queued, hmid, hnone]
    rfl
  have hkept := hk.kept fd
  rw [hqueued, hidle] at hkept
  simpa [IoPhase.pendingFor] using hkept

end ResponsePath

/-! ### The requests of all connections -/

/-- A message and its answer, with the connection it came on. -/
structure Request where
  fd : UInt32
  message : List UInt8
  answer : List BinaryResponse

namespace Request

/-- The messages of a connection. -/
def messagesOf (fd : UInt32) (reqs : List Request) : List (List UInt8) :=
  (reqs.filter fun r => r.fd = fd).map message

/-- The answers to a connection. -/
def answersOf (fd : UInt32) (reqs : List Request) : List BinaryResponse :=
  ((reqs.filter fun r => r.fd = fd).map answer).flatten

/-- The requests of one `recv`. -/
def ofRecv (fd : UInt32) (msgs : List (List UInt8)) (answers : List (List BinaryResponse)) :
    List Request :=
  (msgs.zip answers).map fun x => ⟨fd, x.1, x.2⟩

section
variable {fd : UInt32} {msgs : List (List UInt8)} {answers : List (List BinaryResponse)}

theorem map_message_ofRecv (hlen : msgs.length = answers.length) :
    (ofRecv fd msgs answers).map message = msgs := by
  rw [ofRecv, List.map_map]
  exact List.map_fst_zip (Nat.le_of_eq hlen)

theorem map_answer_ofRecv (hlen : msgs.length = answers.length) :
    (ofRecv fd msgs answers).map answer = answers := by
  rw [ofRecv, List.map_map]
  exact List.map_snd_zip (Nat.le_of_eq hlen.symm)

theorem filter_ofRecv (fd' : UInt32) :
    (ofRecv fd msgs answers).filter (fun r => r.fd = fd')
      = if fd = fd' then ofRecv fd msgs answers else [] := by
  by_cases h : fd = fd'
  · rw [if_pos h, List.filter_eq_self]
    intro r hr
    obtain ⟨x, -, rfl⟩ := List.mem_map.mp hr
    exact decide_eq_true h
  · rw [if_neg h, List.filter_eq_nil_iff]
    intro r hr
    obtain ⟨x, -, rfl⟩ := List.mem_map.mp hr
    simpa using h

theorem messagesOf_append_ofRecv (hlen : msgs.length = answers.length) (reqs : List Request)
    (fd' : UInt32) : messagesOf fd' (reqs ++ ofRecv fd msgs answers)
      = messagesOf fd' reqs ++ if fd = fd' then msgs else [] := by
  rw [messagesOf, List.filter_append, List.map_append, filter_ofRecv]
  split
  · rw [map_message_ofRecv hlen]
    rfl
  · rfl

theorem answersOf_append_ofRecv (hlen : msgs.length = answers.length) (reqs : List Request)
    (fd' : UInt32) : answersOf fd' (reqs ++ ofRecv fd msgs answers)
      = answersOf fd' reqs ++ if fd = fd' then answers.flatten else [] := by
  rw [answersOf, List.filter_append, List.map_append, List.flatten_append, filter_ofRecv]
  split
  · rw [map_answer_ofRecv hlen]
    rfl
  · rfl

end

end Request

namespace ItchServer

/-- The steps on the way to the sockets. -/
def pathHistory (h : List (Input × Event)) : List (ResponsePath.Input × ResponsePath.Event) :=
  h.map fun x => x.2.path

/-- The bytes received on `fd`. -/
def received (h : List (Input × Event)) (fd : UInt32) : List UInt8 :=
  (h.map fun x => match x.1 with
    | .recv fd' bytes _ => onlyFor fd fd' bytes
    | _ => []).flatten

/-- The bytes written to `fd`. -/
def written (h : List (Input × Event)) (fd : UInt32) : List UInt8 :=
  ResponsePath.written (pathHistory h) fd

/-- The steps of the two threads keep the order, as in `ResponsePath.Orderly`. -/
def Orderly (h : List (Input × Event)) (s : ItchServer) : Input → Prop
  | .recv _ _ _ => True
  | .next view => ResponsePath.Orderly ringSize (pathHistory h) s.path (.io (.next view))
  | .sent r => ResponsePath.Orderly ringSize (pathHistory h) s.path (.io (.sent r))
  | .send i => ResponsePath.Orderly ringSize (pathHistory h) s.path (.send i)

/-- The server after the run `h` with the requests `reqs`. -/
structure Inv (s₀ : TcpServer) (h : List (Input × Event)) (s : ItchServer) (reqs : List Request) :
    Prop where
  serial : run TcpServer.processItchMessage s₀ (reqs.map Request.message)
    = some (s.server, reqs.map Request.answer)
  messages : ∀ fd, Request.messagesOf fd reqs = (ConnContext.frames.split (received h fd)).1
  conns : ∀ fd, s.conns fd = ConnContext.holding { fd := fd.toNat, bufIdx := 0 }
    (ConnContext.frames.split (received h fd)).2
  produced : ∀ fd, ResponsePath.produced (pathHistory h) fd
    = responseStream (Request.answersOf fd reqs)

section
variable {h : List (Input × Event)} {i : Input} {ev : Event} {s s' : ItchServer}

theorem pathHistory_snoc : pathHistory (h ++ [(i, ev)]) = pathHistory h ++ [ev.path] := by
  simp [pathHistory]

theorem received_recv {fd : UInt32} {bytes : List UInt8} {junk : ResponseBytes} (fd' : UInt32) :
    received (h ++ [(.recv fd bytes junk, ev)]) fd' = received h fd' ++ onlyFor fd' fd bytes := by
  simp [received]

/-- The `recv` of some bytes calls `pushResponses`. -/
theorem onRecv_path {N : UInt64} {fd : UInt32} {bytes : List UInt8} {junk : ResponseBytes}
    (hstep : s.onRecv N fd bytes junk = some (s', ev)) :
    ∃ buf, ev.path.1 = .io (.responses fd buf junk) ∧
      s.path.step N ev.path.1 = some (s'.path, ev.path.2) := by
  simp only [onRecv, Option.bind_eq_bind, Option.bind_eq_some_iff, pure, Option.some.injEq] at hstep
  obtain ⟨r, -, ⟨path, e⟩, hpath, heq⟩ := hstep
  cases heq
  exact ⟨_, rfl, hpath⟩

/-- A step that is no `recv` is a step on the way to the sockets. -/
theorem step_cases (hstep : step ringSize s i = some (s', ev)) :
    (∃ fd bytes junk, i = .recv fd bytes junk ∧ s.onRecv ringSize fd bytes junk = some (s', ev)) ∨
      ((∀ fd bytes junk, i ≠ .recv fd bytes junk) ∧ s'.server = s.server ∧ s'.conns = s.conns ∧
        s.path.step ringSize ev.path.1 = some (s'.path, ev.path.2) ∧
        (∀ fd buf junk, ev.path.1 ≠ .io (.responses fd buf junk)) ∧
        (Orderly h s i → ResponsePath.Orderly ringSize (pathHistory h) s.path ev.path.1)) := by
  have hpath {j : ResponsePath.Input} (hj : s.pathStep ringSize j = some (s', ev)) :
      s'.server = s.server ∧ s'.conns = s.conns ∧
        s.path.step ringSize j = some (s'.path, ev.path.2) ∧ ev.path.1 = j := by
    obtain ⟨⟨path, e⟩, hp, heq⟩ := Option.map_eq_some_iff.mp hj
    cases heq
    exact ⟨rfl, rfl, hp, rfl⟩
  cases i with
  | recv fd bytes junk =>
      simp only [step] at hstep
      split at hstep
      · cases hstep
      · exact Or.inl ⟨fd, bytes, junk, rfl, hstep⟩
  | next view | sent r | send i =>
      obtain ⟨hserver, hconns, hp, hj⟩ := hpath hstep
      rw [hj]
      exact Or.inr ⟨nofun, hserver, hconns, hp, nofun, id⟩

/-- A step that is no `recv` receives nothing. -/
theorem received_other (hi : ∀ fd bytes junk, i ≠ .recv fd bytes junk) (fd : UInt32) :
    received (h ++ [(i, ev)]) fd = received h fd := by
  cases i with
  | recv fd bytes junk => exact absurd rfl (hi fd bytes junk)
  | _ => simp [received]

end

namespace Inv

variable {s₀ : TcpServer} {h : List (Input × Event)} {i : Input} {ev : Event} {s s' : ItchServer}
  {reqs : List Request}

protected theorem start (s₀ : TcpServer) (ring : SPSCByteRing.Threads) (zcOk : Bool) :
    Inv s₀ [] (ItchServer.start s₀ ring zcOk) [] where
  serial := rfl
  messages := fun _ => by
    rw [received, List.map_nil, List.flatten_nil, Splitter.split_of_none rfl]
    rfl
  conns := fun _ => by
    rw [received, List.map_nil, List.flatten_nil, Splitter.split_of_none rfl]
    rfl
  produced := fun _ => rfl

/-- What was received is cut into messages, the engine answers them in turn, and the answers are on
their way to the connection. -/
theorem onRecv (hi : Inv s₀ h s reqs) {fd : UInt32} {bytes : List UInt8} {junk : ResponseBytes}
    (hstep : s.onRecv ringSize fd bytes junk = some (s', ev)) :
    ∃ new, Inv s₀ (h ++ [(.recv fd bytes junk, ev)]) s' (reqs ++ new) := by
  have hsplit := Splitter.split_append ConnContext.frames (received h fd) bytes
  -- the connection holds what was left of the bytes before
  obtain ⟨left, hleft⟩ : ∃ left, (ConnContext.frames.split (received h fd)).2 = left := ⟨_, rfl⟩
  have hconn := hi.conns fd
  rw [hleft] at hsplit hconn
  obtain ⟨msgs, hmsgs⟩ : ∃ msgs, (ConnContext.frames.split (left ++ bytes)).1 = msgs := ⟨_, rfl⟩
  have hdrain : ConnContext.receive TcpServer.processItchMessage s.server (s.conns fd) bytes =
      (run TcpServer.processItchMessage s.server msgs).map fun r =>
        (r.1, ConnContext.holding { fd := fd.toNat, bufIdx := 0 }
          (ConnContext.frames.split (left ++ bytes)).2, r.2) := by
    rw [hconn, ← hmsgs]
    exact ConnContext.drainBuffered_spec s.server { fd := fd.toNat, bufIdx := 0 } (left ++ bytes)
  rw [hmsgs] at hsplit
  simp only [ItchServer.onRecv, hdrain, Option.bind_eq_bind, Option.bind_eq_some_iff,
    Option.map_eq_some_iff, pure, Option.some.injEq] at hstep
  obtain ⟨-, ⟨⟨server, answers⟩, hrun, rfl⟩, ⟨path, e⟩, hpath, heq⟩ := hstep
  cases heq
  have hlen : msgs.length = answers.length :=
    (Trace.of_run (Q := fun _ => True) (fun _ _ => trivial) hrun).1.symm
  refine ⟨Request.ofRecv fd msgs answers, ?_, fun fd' => ?_, fun fd' => ?_, fun fd' => ?_⟩
  · rw [List.map_append, List.map_append, Request.map_message_ofRecv hlen,
      Request.map_answer_ofRecv hlen, run_append, hi.serial, Option.bind_some, hrun]
    rfl
  · rw [Request.messagesOf_append_ofRecv hlen, received_recv, hi.messages]
    by_cases hfd : fd = fd'
    · subst hfd
      rw [if_pos rfl, onlyFor, if_pos rfl, hsplit]
    · rw [if_neg hfd, onlyFor, if_neg hfd, List.append_nil, List.append_nil]
  · rw [received_recv]
    by_cases hfd : fd = fd'
    · subst hfd
      rw [onlyFor, if_pos rfl, hsplit]
      exact Function.update_self ..
    · rw [onlyFor, if_neg hfd, List.append_nil, ← hi.conns fd']
      exact Function.update_of_ne (Ne.symm hfd) ..
  · obtain ⟨-, rfl⟩ := ResponsePath.step_responses hpath
    rw [Request.answersOf_append_ofRecv hlen, pathHistory_snoc, responseStream_append,
      ← hi.produced, ResponsePath.produced_snoc]
    show _ ++ onlyFor fd' fd _ = _
    unfold onlyFor
    split <;> rfl

/-- Any other step leaves the requests alone. -/
theorem path (hinv : Inv s₀ h s reqs) (hi : ∀ fd bytes junk, i ≠ .recv fd bytes junk)
    (hserver : s'.server = s.server) (hconns : s'.conns = s.conns)
    (hresp : ∀ fd buf junk, ev.path.1 ≠ .io (.responses fd buf junk))
    (hpath : s.path.step ringSize ev.path.1 = some (s'.path, ev.path.2)) :
    Inv s₀ (h ++ [(i, ev)]) s' reqs where
  serial := by rw [hserver, hinv.serial]
  messages := fun fd => by rw [received_other hi, hinv.messages]
  conns := fun fd => by rw [hconns, received_other hi, hinv.conns]
  produced := fun fd => by
    have hnone : ev.path.2.producedFor fd = [] := by
      obtain ⟨answers, j | j, e⟩ := ev
      · obtain ⟨⟨ring, io, e'⟩, hio, heq⟩ := Option.map_eq_some_iff.mp hpath
        obtain ⟨-, rfl⟩ := Prod.mk.inj heq
        refine ioStep_producedFor (fun fd' buf junk hj => ?_) hio fd
        exact hresp fd' buf junk (congrArg ResponsePath.Input.io hj)
      · obtain ⟨x, -, heq⟩ := Option.map_eq_some_iff.mp hpath
        obtain ⟨-, rfl⟩ := Prod.mk.inj heq
        rfl
    rw [pathHistory_snoc, ResponsePath.produced_snoc, hnone, List.append_nil, hinv.produced]

end Inv

/-- Both threads, the connections and the requests, in every state of a run. -/
theorem inv_of_trace (s₀ : TcpServer) (c : UInt64) (buf : Nat → UInt8) (zcOk : Bool)
    {h : List (Input × Event)} {s : ItchServer}
    (t : Trace (step ringSize) Orderly (start s₀ (SPSCByteRing.start buf c) zcOk) h s) :
    (∃ reqs, Inv s₀ h s reqs) ∧ ∃ recs out taken seenHead seenTail p,
      ResponsePath.Kept ringSize c (pathHistory h) s.path recs out taken seenHead seenTail p := by
  refine t.invariant (fun h s => (∃ reqs, Inv s₀ h s reqs) ∧ ∃ recs out taken seenHead seenTail p,
    ResponsePath.Kept ringSize c (pathHistory h) s.path recs out taken seenHead seenTail p)
    ⟨⟨[], Inv.start s₀ _ zcOk⟩, [], [], 0, 0, 0, ⟨[], [], none⟩,
      ResponsePath.Kept.start ringSize c buf zcOk⟩ ?_
  rintro h s i s' ev - ⟨⟨reqs, hinv⟩, recs, out, taken, seenHead, seenTail, p, hk⟩ hok hstep
  -- whatever the step is, it is an orderly step of the two threads
  have hkept (hord : ResponsePath.Orderly ringSize (pathHistory h) s.path ev.path.1)
      (hpath : s.path.step ringSize ev.path.1 = some (s'.path, ev.path.2)) :
      ∃ recs out taken seenHead seenTail p, ResponsePath.Kept ringSize c
        (pathHistory (h ++ [(i, ev)])) s'.path recs out taken seenHead seenTail p := by
    rw [pathHistory_snoc]
    obtain ⟨answers, j | j, e⟩ := ev
    · exact hk.io_step ringSize_pow (by decide) hord hpath
    · exact hk.send_step ringSize_pow (by decide) hord hpath
  obtain ⟨fd, bytes, junk, rfl, hrecv⟩ | ⟨hi, hserver, hconns, hpath, hresp, hord⟩ :=
    step_cases (h := h) hstep
  · obtain ⟨new, hnew⟩ := hinv.onRecv hrecv
    obtain ⟨buf, hcall, hpath⟩ := onRecv_path hrecv
    refine ⟨⟨_, hnew⟩, hkept ?_ hpath⟩
    rw [hcall] at hpath ⊢
    obtain ⟨hidle, -⟩ := ResponsePath.step_responses hpath
    show CloseFits ringSize s.path.ring s.path.io _ ∧ s.path.io.Keeps _ ∧ ∀ fd, _ → _
    rw [hidle]
    exact ⟨trivial, trivial, fun _ hfalse => hfalse.elim⟩
  · exact ⟨⟨reqs, hinv.path hi hserver hconns hresp hpath⟩, hkept (hord hok) hpath⟩

/-- **Every client gets its answers.** However the bytes of the clients arrive and however the two
threads take turns, as long as they keep the order: the engine handled some requests one after the
other; the messages of each client among them are the frames of what it sent, in order; and what the
client reads in the bytes written to it are the answers to them, from the first on. When the threads
are at rest it has read all of them. -/
theorem clients_served (s₀ : TcpServer) (c : UInt64) (buf : Nat → UInt8) (zcOk : Bool)
    {h : List (Input × Event)} {s : ItchServer}
    (t : Trace (step ringSize) Orderly (start s₀ (SPSCByteRing.start buf c) zcOk) h s) :
    ∃ reqs : List Request,
      run TcpServer.processItchMessage s₀ (reqs.map Request.message)
        = some (s.server, reqs.map Request.answer) ∧
      ∀ fd, Request.messagesOf fd reqs = (ConnContext.frames.split (received h fd)).1 ∧
        (responses.split (written h fd)).1 <+: Request.answersOf fd reqs ∧
        (s.path.AtRest → responses.split (written h fd) = (Request.answersOf fd reqs, [])) := by
  obtain ⟨⟨reqs, hinv⟩, recs, out, taken, seenHead, seenTail, p, hk⟩ := inv_of_trace s₀ c buf zcOk t
  refine ⟨reqs, hinv.serial, fun fd => ⟨hinv.messages fd, ?_, fun hrest => ?_⟩⟩
  · apply split_prefix
    rw [← hinv.produced fd, written, ← hk.kept fd]
    exact List.prefix_append _ _
  · rw [written, hk.written_eq hrest, hinv.produced fd, split_responseStream]

/-- A step that keeps the order because the ring has room. -/
def Roomy (s : ItchServer) : Input → Prop
  | .recv _ _ _ => True
  | .next view => s.path.Roomy ringSize (.io (.next view))
  | .sent r => s.path.Roomy ringSize (.io (.sent r))
  | .send i => s.path.Roomy ringSize (.send i)

instance (s : ItchServer) : (i : Input) → Decidable (s.Roomy i)
  | .recv .. => .isTrue trivial
  | .next view => inferInstanceAs (Decidable (s.path.Roomy ringSize (.io (.next view))))
  | .sent r => inferInstanceAs (Decidable (s.path.Roomy ringSize (.io (.sent r))))
  | .send i => inferInstanceAs (Decidable (s.path.Roomy ringSize (.send i)))

theorem Roomy.orderly {s : ItchServer} {i : Input} (hroom : s.Roomy i) (h : List (Input × Event)) :
    Orderly h s i := by
  cases i with
  | recv fd bytes junk => trivial
  | next view => exact ResponsePath.Roomy.orderly (i := .io (.next view)) hroom (pathHistory h)
  | sent r => exact ResponsePath.Roomy.orderly (i := .io (.sent r)) hroom (pathHistory h)
  | send i => exact ResponsePath.Roomy.orderly (i := .send i) hroom (pathHistory h)

/-- Two clients ask for orders that do not exist. The message of the first one arrives in two parts,
with the message of the other between them. -/
theorem clients_served_two : ∃ (s₀ : TcpServer) (h : List (Input × Event)) (s : ItchServer),
    Trace (step ringSize) Orderly (start s₀ (SPSCByteRing.start (fun _ => 0) 0) false) h s ∧
      s.path.AtRest ∧ (written h 5).length = 48 ∧ (written h 6).length = 48 ∧
      ∃ reqs : List Request,
        run TcpServer.processItchMessage s₀ (reqs.map Request.message)
          = some (s.server, reqs.map Request.answer) ∧
        responses.split (written h 5) = (Request.answersOf 5 reqs, []) ∧
        responses.split (written h 6) = (Request.answersOf 6 reqs, []) := by
  let junk : ResponseBytes := ⟨List.replicate 48 7, rfl⟩
  let delete (ref : UInt8) := ConnContext.frameOf (68 :: List.replicate 17 0 ++ [ref])
  let push : List Input := List.replicate 9 (.next 0)
  let send : List Input :=
    [.send (.next 2), .send (.next 0), .send (.next 0), .send (.sent (.sent 48))]
  let acts : List Input := .recv 5 ((delete 9).take 10) junk :: .recv 6 (delete 8) junk :: push ++
    send ++ .recv 5 ((delete 9).drop 10) junk :: push ++ send
  have hrun : ((MatchingEngine.ofCapacity 4 none none none).bind fun engine =>
      (checked (fun _ s i => Roomy s i) (step ringSize) []
        (start ⟨engine, {}⟩ (SPSCByteRing.start (fun _ => 0) 0) false) acts).map fun r =>
          (decide r.1.path.AtRest, (written r.2 5).length, (written r.2 6).length))
      = some (true, 48, 48) := by decide +kernel
  obtain ⟨engine, -, hrun⟩ := Option.bind_eq_some_iff.mp hrun
  obtain ⟨⟨s, h⟩, hrun, hlens⟩ := Option.map_eq_some_iff.mp hrun
  obtain ⟨hrest, h5, h6⟩ : decide s.path.AtRest = true ∧ _ ∧ _ := by simpa using hlens
  have t := (Trace.of_checked .nil hrun).mono fun h _ _ _ hroom => hroom.orderly h
  obtain ⟨reqs, hreqs, hserved⟩ := clients_served ⟨engine, {}⟩ 0 (fun _ => 0) false t
  have hrest : s.path.AtRest := of_decide_eq_true hrest
  exact ⟨_, _, s, t, hrest, h5, h6, reqs, hreqs, (hserved 5).2.2 hrest, (hserved 6).2.2 hrest⟩

end ItchServer

end NebulaX
