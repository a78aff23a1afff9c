import NebulaX.Lib.Trace
import NebulaX.Server.SpscByteRing

/-!
# `NebulaX.Proofs.ByteRing`: the byte ring loses nothing

`Inv` says what the ring is in every state the two threads can reach: the counters are those of
the bytes sent and the bytes taken, wrapped or not; the cells in between hold the bytes that
are not taken yet; and what each thread saw of the other one's counter, however old, leaves
the producer room and the consumer bytes. `Inv.step` keeps it, one case per step.
-/

set_option autoImplicit false

namespace NebulaX

open NebulaX.Lib

namespace SPSCByteRing

/-! ### Calls in terms of counts -/

section
variable {N : UInt64} {j : Nat} (hN : N.toNat = 2 ^ j) (c : UInt64)
include hN

theorem size_pos : 0 < N.toNat := by
  rw [hN]
  exact Nat.two_pow_pos j

theorem offset_count (k : Nat) : offset N (count c k) = cell N.toNat c k := count_mask c k hN

/-- The free space between two counts. -/
theorem freeSpace_count {a b : Nat} (hle : a ≤ b) (hroom : b ≤ a + N.toNat) :
    freeSpace N (count c b) (count c a) = a + N.toNat - b := by
  have hsub := count_sub c hle (by have := N.toNat_lt; omega)
  rw [freeSpace, UInt64.toNat_sub_of_le _ _ (by rw [UInt64.le_iff_toNat_le, hsub]; omega), hsub]
  omega

/-- `push` writes as much as there is and as fits. -/
theorem pushLen_count {a b : Nat} (hle : a ≤ b) (hroom : b ≤ a + N.toNat) (len : Nat) :
    pushLen N (count c b) (count c a) len = min len (a + N.toNat - b) := by
  simp only [pushLen, freeSpace_count hN c hle hroom]
  split
  · omega
  · split <;> omega

/-- `read_acquire` gives as much as is asked for, is there, and lies before the end. -/
theorem readAcquire_count {a b : Nat} (hle : a ≤ b) (hlt : b - a < 2 ^ 64) (request : Nat) :
    readAcquire N (count c a) (count c b) request
      = min (min request (b - a)) (N.toNat - cell N.toNat c a) := by
  have hcell := cell_lt (c := c) (size_pos hN) a
  simp only [readAcquire, count_sub c hle hlt, offset_count hN]
  split
  · omega
  · split <;> split <;> omega

/-- The first part of a copy ends before the end of the buffer or with the data, and if it
does not end with the data then the second part starts in the first cell. -/
theorem firstLen_spec (n actual : Nat) :
    firstLen N (count c n) actual ≤ actual ∧
      cell N.toNat c n + firstLen N (count c n) actual ≤ N.toNat ∧
      (firstLen N (count c n) actual < actual →
        cell N.toNat c (n + firstLen N (count c n) actual) = 0) := by
  have hcell := cell_lt (c := c) (size_pos hN) n
  have hwrap := cell_wrap (c := c) (size_pos hN) n
  simp only [firstLen, offset_count hN]
  split
  · exact ⟨Nat.le_refl _, by omega, by omega⟩
  · exact ⟨by omega, by omega, fun _ => hwrap⟩

section copy
variable (buf : Nat → UInt8) {n actual i : Nat} {data : List UInt8} (hdata : actual ≤ data.length)
  (hsize : actual ≤ N.toNat) (hroom : n + actual ≤ i + N.toNat) (hi : i < n + N.toNat)
include hdata hroom hi

/-- What the first `memcpy` does to the cells within reach. -/
theorem copyFirst_cell : copyFirst N buf (count c n) data actual (cell N.toNat c i) =
    if n ≤ i ∧ i < n + firstLen N (count c n) actual then data.getD (i - n) 0
      else buf (cell N.toNat c i) := by
  obtain ⟨hle, hfit, -⟩ := firstLen_spec hN c n actual
  simp only [copyFirst, offset_count hN]
  generalize firstLen N (count c n) actual = f at *
  have hlen : (data.take f).length = f := by
    rw [List.length_take]
    omega
  split
  · rw [writeBlock_cell (by omega) (by omega) hi, hlen]
    split
    · rw [List.getD_eq_getElem?_getD, List.getD_eq_getElem?_getD, List.getElem?_take,
        if_pos (by omega), List.getElem?_eq_getElem (by omega)]
      rfl
    · rfl
  · rw [if_neg (by omega)]

include hsize in
/-- What the second `memcpy` does to the cells within reach. -/
theorem copySecond_cell : copySecond N buf (count c n) data actual (cell N.toNat c i) =
    if n + firstLen N (count c n) actual ≤ i ∧ i < n + actual then data.getD (i - n) 0
      else buf (cell N.toNat c i) := by
  obtain ⟨hle, hfit, hzero⟩ := firstLen_spec hN c n actual
  simp only [copySecond]
  generalize firstLen N (count c n) actual = f at *
  have hlen : ((data.drop f).take (actual - f)).length = actual - f := by
    rw [List.length_take, List.length_drop]
    omega
  split
  · -- the block starts in cell 0, which is the cell of element `n + f`
    have hz := hzero (by omega)
    rw [show writeBlock buf 0 _ = writeBlock buf (cell N.toNat c (n + f)) _ by rw [hz],
      writeBlock_cell (by omega) (by omega) (by omega), hlen,
      show n + f + (actual - f) = n + actual by omega]
    split
    · rw [List.getD_eq_getElem?_getD, List.getD_eq_getElem?_getD, List.getElem?_take,
        if_pos (by omega), List.getElem?_drop, show f + (i - (n + f)) = i - n by omega,
        List.getElem?_eq_getElem (by omega)]
      rfl
    · rfl
  · rw [if_neg (by omega)]

end copy

end

/-! ### Calls that nobody disturbs -/

/-- The ring without its threads. -/
def Threads.ring (s : Threads) : SPSCByteRing := ⟨s.buf, s.head.latest, s.tail.latest⟩

section
variable (N : UInt64) {s : Threads}

/-- A `push` that has loaded `head`, run to its end, is `push` at that head. -/
theorem run_push (hidle : s.producer = .idle) (data : List UInt8) {view : Nat} {head : UInt64}
    {reg : Register UInt64} (hload : s.head.load view = some (head, reg)) :
    let steps := if pushLen N s.tail.latest head data.length = 0 then [.push data view]
      else [.push data view, .copyFirst, .copySecond, .publish]
    ∃ s' evs, run (step N) s steps = some (s', evs) ∧
      s'.ring = (push N s.ring head data).1 ∧ s'.producer = .idle ∧
      evs.getLast? = some (.pushed data (freeSpace N s.tail.latest head)
        (push N s.ring head data).2) := by
  have hlatest := Register.latest_of_load hload
  simp only [push, Threads.ring]
  split <;> simp [run, step, *]

/-- `read_release`. -/
theorem ring_of_release {s' : Threads} {bytes : Nat} {ev : Event}
    (hstep : step N s (.release bytes) = some (s', ev)) :
    s'.ring = s.ring.readRelease bytes := by
  cases hpc : s.consumer with
  | held n =>
      simp only [step, hpc] at hstep
      split at hstep
      · obtain ⟨rfl, rfl⟩ := Prod.mk.inj (Option.some.inj hstep)
        simp [Threads.ring, readRelease]
      · cases hstep
  | _ => simp [step, hpc] at hstep

/-- A `pop` in a quiet ring. -/
theorem popAlone_eq (hfree : s.consumer.free = true) (len : Nat) :
    ∃ s', popAlone N s len = some (s', (pop N s.ring len).2) ∧
      s'.ring = (pop N s.ring len).1 := by
  obtain ⟨n1, hn1⟩ : ∃ n1, readAcquire N s.head.latest s.tail.latest len = n1 := ⟨_, rfl⟩
  simp only [popAlone, step, hfree, if_true, Register.load_latest, Option.map_some, pop,
    Threads.ring, readRelease, hn1]
  by_cases hzero : n1 = 0
  · simp [hzero]
  · simp only [hzero, if_false, Option.bind_eq_bind, Option.bind_some, List.nil_append, true_and]
    have hgot : readBlock s.buf (offset N s.head.latest) n1 ≠ [] :=
      List.ne_nil_of_length_pos (by rw [length_readBlock]; omega)
    by_cases hmore : len - n1 > 0
    · simp only [hmore, if_true, Option.bind_some, Register.latest_store, Register.latest_nil,
        length_readBlock]
      by_cases hsecond :
          readAcquire N (s.head.latest + UInt64.ofNat n1) s.tail.latest (len - n1) > 0
      · simp [hsecond, hgot]
      · simp [hsecond]
    · simp [hmore]

end

/-! ### The invariant -/

/-- All bytes sent. -/
def sent (h : List (Action × Event)) : List UInt8 := (h.map fun x => x.2.sent).flatten

/-- All bytes obtained, in order. -/
def obtained (h : List (Action × Event)) : List UInt8 := (h.map fun x => x.2.obtained).flatten

/-- The bytes a `pop` that is going on has copied and released. -/
def Consumer.got : Consumer → List UInt8
  | .popping _ got _ => got
  | .popMore _ got => got
  | _ => []

theorem Consumer.got_of_free {p : Consumer} (hfree : p.free = true) : p.got = [] := by
  cases p with
  | idle => rfl
  | held n => rfl
  | popping len got n => cases hfree
  | popMore len got => cases hfree

/-- What a `push` that is going on has decided. -/
structure Pushing.Ok (N : UInt64) (p : Pushing) (n seenHead : Nat) : Prop where
  pos : 0 < p.actual
  actual : p.actual = min p.data.length p.free
  room : n + p.actual ≤ seenHead + N.toNat

/-- The first `m` bytes of a `push` are in the cells behind the `n` bytes sent. -/
def Copied (N c : UInt64) (buf : Nat → UInt8) (data : List UInt8) (n m : Nat) : Prop :=
  ∀ i < m, buf (cell N.toNat c (n + i)) = data.getD i 0

/-- The producer, when `n` bytes are sent. -/
def Producer.Ok (N c : UInt64) (buf : Nat → UInt8) (n seenHead : Nat) : Producer → Prop
  | .idle => True
  | .loaded p => p.Ok N n seenHead
  | .half p => p.Ok N n seenHead ∧
      Copied N c buf p.data n (firstLen N (count c n) p.actual)
  | .copied p => p.Ok N n seenHead ∧ Copied N c buf p.data n p.actual

/-- `n` bytes behind the `taken` ones are acquired. -/
structure Acquired (N c : UInt64) (taken seenTail n : Nat) : Prop where
  there : taken + n ≤ seenTail
  contig : cell N.toNat c taken + n ≤ N.toNat

/-- The consumer, when `taken` bytes are released. -/
def Consumer.Ok (N c : UInt64) (taken seenTail : Nat) : Consumer → Prop
  | .idle => True
  | .held n => Acquired N c taken seenTail n
  | .popping len got n => Acquired N c taken seenTail n ∧ 0 < n ∧ got.length + n ≤ len
  | .popMore len got => got.length ≤ len

/-- The ring with the bytes `out` sent, of which `taken` are released. `seenHead` and `seenTail`
are what the producer and the consumer know of the other one's count. The tail only stops at
counts that meet `Q`. -/
structure Inv (N c : UInt64) (Q : Nat → Prop) (s : Threads) (out : List UInt8)
    (taken seenHead seenTail : Nat) : Prop where
  head : s.head.Tracks (count c) (fun _ => True) seenHead taken
  tail : s.tail.Tracks (count c) Q seenTail out.length
  room : out.length ≤ seenHead + N.toNat
  seen : taken ≤ seenTail
  bytes : ∀ i, taken ≤ i → i < out.length → s.buf (cell N.toNat c i) = out.getD i 0
  producer : s.producer.Ok N c s.buf out.length seenHead
  consumer : s.consumer.Ok N c taken seenTail

namespace Inv

variable {N c : UInt64} {j : Nat} {Q : Nat → Prop} {s s' : Threads} {out : List UInt8}
  {taken seenHead seenTail : Nat} {ev : Event}

theorem mono {Q' : Nat → Prop} (hQ : ∀ k, Q k → Q' k)
    (h : Inv N c Q s out taken seenHead seenTail) : Inv N c Q' s out taken seenHead seenTail :=
  ⟨h.head, h.tail.mono hQ, h.room, h.seen, h.bytes, h.producer, h.consumer⟩

theorem taken_le (h : Inv N c Q s out taken seenHead seenTail) : taken ≤ out.length :=
  Nat.le_trans h.seen h.tail.le

theorem start (N c : UInt64) (buf : Nat → UInt8) (hQ : Q 0) :
    Inv N c Q (start buf c) [] 0 0 0 where
  head := by
    have := Register.tracks_init (Q := fun _ => True) (n := 0) (count c) trivial
    rwa [count_zero] at this
  tail := by
    have := Register.tracks_init (count c) hQ
    rwa [count_zero] at this
  room := Nat.zero_le _
  seen := Nat.le_refl 0
  bytes := fun i _ hi => absurd hi (Nat.not_lt_zero i)
  producer := trivial
  consumer := trivial

/-- A block of acquired bytes is the next bytes sent. -/
theorem readBlock (hN : N.toNat = 2 ^ j) (h : Inv N c Q s out taken seenHead seenTail) {n m : Nat}
    (ha : Acquired N c taken seenTail n) (hm : m ≤ n) :
    Lib.readBlock s.buf (offset N s.head.latest) m = (out.drop taken).take m := by
  have htail := h.tail.le
  have hthere := ha.there
  have hcontig := ha.contig
  rw [h.head.latest, offset_count hN, readBlock_cell (by omega)]
  refine List.ext_getElem (by simp; omega) fun i hi hi' => ?_
  rw [List.length_map, List.length_range] at hi
  rw [List.getElem_map, List.getElem_range, List.getElem_take, List.getElem_drop,
    h.bytes (taken + i) (by omega) (by omega), List.getD_eq_getElem?_getD,
    List.getElem?_eq_getElem (by omega), Option.getD_some]

/-- Releasing bytes the consumer has seen. -/
theorem release (h : Inv N c Q s out taken seenHead seenTail) {m : Nat}
    (hm : taken + m ≤ seenTail) {k : Consumer} (hk : k.Ok N c (taken + m) seenTail) :
    Inv N c Q { s with head := s.head.store (s.head.latest + UInt64.ofNat m), consumer := k }
      out (taken + m) seenHead seenTail where
  head := by
    rw [h.head.latest, count_add]
    exact h.head.store (Nat.le_add_right taken m) trivial
  tail := h.tail
  room := h.room
  seen := hm
  bytes := fun i hi => h.bytes i (by omega)
  producer := h.producer
  consumer := hk

/-- What a step comes to: the invariant holds with what was sent and taken by it. -/
def Next (N c : UInt64) (Q : Nat → Prop) (s s' : Threads) (out : List UInt8)
    (taken seenHead seenTail : Nat) (ev : Event) : Prop :=
  ∃ taken' seenHead' seenTail', Inv N c Q s' (out ++ ev.sent) taken' seenHead' seenTail' ∧
    s.consumer.got ++ (out.drop taken).take (taken' - taken) = ev.obtained ++ s'.consumer.got ∧
    (taken ≤ taken' ∧ taken' ≤ out.length ∧ seenHead ≤ seenHead' ∧ seenTail ≤ seenTail') ∧
    ∀ data free n, ev = .pushed data free n → n = min data.length free

/-- A step that leaves the consumer where it is takes nothing. -/
theorem Next.of_producer (hn : Next N c Q s s' out taken seenHead seenTail ev)
    (hcons : s'.consumer = s.consumer) (hobt : ev.obtained = []) :
    ∃ seenHead' seenTail', Inv N c Q s' (out ++ ev.sent) taken seenHead' seenTail' ∧
      seenHead ≤ seenHead' ∧ seenTail ≤ seenTail' := by
  obtain ⟨taken', seenHead', seenTail', hinv, hgot, ⟨hle, hle', hhead, htail⟩, -⟩ := hn
  rw [hcons, hobt, List.nil_append, List.append_right_eq_self] at hgot
  have hlen := congrArg List.length hgot
  rw [List.length_take, List.length_drop, List.length_nil] at hlen
  have heq : taken' = taken := by omega
  exact ⟨seenHead', seenTail', heq ▸ hinv, hhead, htail⟩

/-- A step that sends and takes nothing. -/
theorem next_of_quiet {seenHead' seenTail' : Nat} (hle : taken ≤ out.length)
    (hhead : seenHead ≤ seenHead') (htail : seenTail ≤ seenTail')
    (h' : Inv N c Q s' out taken seenHead' seenTail')
    (hgot : s.consumer.got = ev.obtained ++ s'.consumer.got) (hsent : ev.sent = [])
    (hpush : ∀ data free n, ev = .pushed data free n → n = min data.length free) :
    Next N c Q s s' out taken seenHead seenTail ev := by
  refine ⟨taken, seenHead', seenTail', ?_, ?_, ⟨Nat.le_refl _, hle, hhead, htail⟩, hpush⟩
  · rwa [hsent, List.append_nil]
  · rw [Nat.sub_self, List.take_zero, List.append_nil, hgot]

section
variable (hN : N.toNat = 2 ^ j) (h : Inv N c Q s out taken seenHead seenTail)
include hN h

/-- The load of a `push`: what it sees, and what it decides. -/
theorem push_load {data : List UInt8} {view : Nat}
    (hstep : step N s (.push data view) = some (s', ev)) :
    ∃ v reg k, s.head.load view = some (v, reg) ∧ seenHead ≤ k ∧ k ≤ out.length ∧
      freeSpace N s.tail.latest v = k + N.toNat - out.length ∧
      Inv N c Q s' out taken k seenTail ∧ s'.consumer = s.consumer ∧
      ((min data.length (k + N.toNat - out.length) = 0 ∧ s'.producer = .idle ∧
          ev = .pushed data (k + N.toNat - out.length) 0) ∨
        (0 < min data.length (k + N.toNat - out.length) ∧ ev = .quiet ∧
          s'.producer = .loaded ⟨data, k + N.toNat - out.length,
            min data.length (k + N.toNat - out.length)⟩)) := by
  cases hprod : s.producer with
  | idle =>
      simp only [SPSCByteRing.step, hprod, Option.map_eq_some_iff] at hstep
      obtain ⟨⟨v, reg⟩, hload, heq⟩ := hstep
      obtain ⟨k, hlow, hhigh, rfl, hreg⟩ := h.head.load hload
      have hle := h.taken_le
      have hroom := h.room
      have hfree := freeSpace_count hN c (show k ≤ out.length by omega) (by omega)
      have hlen := pushLen_count hN c (show k ≤ out.length by omega) (by omega) data.length
      simp only [h.tail.latest, hfree, hlen] at heq
      refine ⟨_, reg, k, hload, hlow, by omega, by rw [h.tail.latest, hfree], ?_⟩
      split at heq
      · rename_i hzero
        obtain ⟨rfl, rfl⟩ := Prod.mk.inj heq
        exact ⟨⟨hreg, h.tail, by omega, h.seen, h.bytes, trivial, h.consumer⟩, rfl,
          Or.inl ⟨hzero, rfl, rfl⟩⟩
      · rename_i hpos
        have hpos := Nat.pos_of_ne_zero hpos
        obtain ⟨rfl, rfl⟩ := Prod.mk.inj heq
        exact ⟨⟨hreg, h.tail, by omega, h.seen, h.bytes, ⟨hpos, rfl, by simp only; omega⟩,
          h.consumer⟩, rfl, Or.inr ⟨hpos, rfl, rfl⟩⟩
  | _ => simp [SPSCByteRing.step, hprod] at hstep

theorem step_push {data : List UInt8} {view : Nat}
    (hstep : step N s (.push data view) = some (s', ev)) :
    Next N c Q s s' out taken seenHead seenTail ev := by
  obtain ⟨-, -, k, -, hlow, -, -, hinv, hcons, ⟨hzero, -, rfl⟩ | ⟨-, rfl, -⟩⟩ :=
    h.push_load hN hstep
  · refine next_of_quiet h.taken_le hlow (Nat.le_refl _) hinv (by rw [hcons]; rfl)
      (by rw [Event.sent, List.take_zero]) fun data' free n he => ?_
    obtain ⟨rfl, rfl, rfl⟩ := Event.pushed.inj he
    exact hzero.symm
  · exact next_of_quiet h.taken_le hlow (Nat.le_refl _) hinv (by rw [hcons]; rfl) rfl (by simp)

/-- What a `push` that is going on may write. -/
theorem pushing_fits {p : Pushing} (hp : p.Ok N out.length seenHead) :
    p.actual ≤ p.data.length ∧ p.actual ≤ N.toNat ∧
      ∀ i, taken ≤ i → out.length + p.actual ≤ i + N.toNat := by
  have hle := h.taken_le
  have hhead := h.head.le
  have hactual := hp.actual
  have hroom := hp.room
  exact ⟨by omega, by omega, fun i hi => by omega⟩

theorem step_copyFirst (hstep : step N s .copyFirst = some (s', ev)) :
    Next N c Q s s' out taken seenHead seenTail ev := by
  have hprod := h.producer
  cases hpc : s.producer with
  | loaded p =>
      simp only [SPSCByteRing.step, hpc, Option.some.injEq, Prod.mk.injEq] at hstep
      obtain ⟨rfl, rfl⟩ := hstep
      rw [hpc] at hprod
      obtain ⟨hdata, -, hfit⟩ := h.pushing_fits hN hprod
      have hle := h.taken_le
      have hpos := size_pos hN
      refine next_of_quiet hle (Nat.le_refl _) (Nat.le_refl _)
        ⟨h.head, h.tail, h.room, h.seen, ?_, ⟨hprod, ?_⟩, h.consumer⟩ rfl rfl (by simp)
      · intro i hi hlt
        simp only [h.tail.latest]
        rw [copyFirst_cell hN c s.buf hdata (hfit i hi) (by omega), if_neg (by omega)]
        exact h.bytes i hi hlt
      · intro i hi
        obtain ⟨hfirst, hend, -⟩ := firstLen_spec hN c out.length p.actual
        simp only [h.tail.latest]
        rw [copyFirst_cell hN c s.buf hdata (hfit _ (by omega)) (by omega),
          if_pos (by omega), Nat.add_sub_cancel_left]
  | _ => simp [SPSCByteRing.step, hpc] at hstep

theorem step_copySecond (hstep : step N s .copySecond = some (s', ev)) :
    Next N c Q s s' out taken seenHead seenTail ev := by
  have hprod := h.producer
  cases hpc : s.producer with
  | half p =>
      simp only [SPSCByteRing.step, hpc, Option.some.injEq, Prod.mk.injEq] at hstep
      obtain ⟨rfl, rfl⟩ := hstep
      rw [hpc] at hprod
      obtain ⟨hdata, hsize, hfit⟩ := h.pushing_fits hN hprod.1
      have hle := h.taken_le
      have hpos := hprod.1.pos
      refine next_of_quiet hle (Nat.le_refl _) (Nat.le_refl _) ⟨h.head, h.tail, h.room, h.seen, ?_,
        ⟨hprod.1, ?_⟩, h.consumer⟩ rfl rfl (by simp)
      · intro i hi hlt
        simp only [h.tail.latest]
        rw [copySecond_cell hN c s.buf hdata hsize (hfit i hi) (by omega),
          if_neg (by omega)]
        exact h.bytes i hi hlt
      · intro i hi
        simp only [h.tail.latest]
        rw [copySecond_cell hN c s.buf hdata hsize (hfit _ (by omega)) (by omega)]
        -- the first part was copied before
        by_cases hfirst : i < firstLen N (count c out.length) p.actual
        · rw [if_neg (by omega)]
          exact hprod.2 i hfirst
        · rw [if_pos (by omega), Nat.add_sub_cancel_left]
  | _ => simp [SPSCByteRing.step, hpc] at hstep

/-- The store of a `push`. -/
theorem step_publish (hstep : step N s .publish = some (s', ev))
    (hQ : Q (out.length + ev.sent.length)) :
    Next N c Q s s' out taken seenHead seenTail ev := by
  have hprod := h.producer
  cases hpc : s.producer with
  | copied p =>
      simp only [SPSCByteRing.step, hpc, Option.some.injEq, Prod.mk.injEq] at hstep
      obtain ⟨rfl, rfl⟩ := hstep
      rw [hpc] at hprod
      obtain ⟨hdata, -, -⟩ := h.pushing_fits hN hprod.1
      have hlen : (out ++ p.data.take p.actual).length = out.length + p.actual := by
        rw [List.length_append, List.length_take]
        omega
      refine ⟨taken, seenHead, seenTail, ⟨h.head, ?_, ?_, h.seen, ?_, trivial, h.consumer⟩, ?_,
        ⟨Nat.le_refl _, h.taken_le, Nat.le_refl _, Nat.le_refl _⟩, ?_⟩
      · rw [← List.length_append, Event.sent, hlen] at hQ
        rw [Event.sent, hlen, h.tail.latest, count_add]
        exact h.tail.store (Nat.le_add_right _ _) hQ
      · rw [Event.sent, hlen]
        exact hprod.1.room
      · intro i hi hlt
        rw [Event.sent, hlen] at hlt
        rw [Event.sent, List.getD_eq_getElem?_getD]
        by_cases hold : i < out.length
        · rw [List.getElem?_append_left hold, ← List.getD_eq_getElem?_getD]
          exact h.bytes i hi hold
        · have hcopied := hprod.2 (i - out.length) (by omega)
          rw [Nat.add_sub_cancel' (by omega)] at hcopied
          rw [List.getElem?_append_right (by omega), List.getElem?_take, if_pos (by omega),
            ← List.getD_eq_getElem?_getD]
          exact hcopied
      · simp [Event.obtained]
      · intro data free n he
        obtain ⟨rfl, rfl, rfl⟩ := Event.pushed.inj he
        exact hprod.1.actual
  | _ => simp [SPSCByteRing.step, hpc] at hstep

/-- What a load of the tail acquires. -/
theorem acquired {view : Nat} {v : UInt64} {reg : Register UInt64}
    (hload : s.tail.load view = some (v, reg)) (request : Nat) :
    ∃ k, seenTail ≤ k ∧ taken ≤ k ∧ reg.Tracks (count c) Q k out.length ∧
      readAcquire N s.head.latest v request
        = min (min request (k - taken)) (N.toNat - cell N.toNat c taken) ∧
      Acquired N c taken k (readAcquire N s.head.latest v request) := by
  obtain ⟨k, hlow, hhigh, rfl, hreg⟩ := h.tail.load hload
  have hseen := h.seen
  have hroom := h.room
  have hhead := h.head.le
  have hcell := cell_lt (c := c) (size_pos hN) taken
  have hread := readAcquire_count hN c (show taken ≤ k by omega)
    (by have := N.toNat_lt; omega) request
  rw [← h.head.latest] at hread
  exact ⟨k, hlow, by omega, hreg, hread, ⟨by omega, by omega⟩⟩

omit hN in
/-- The consumer after a load of the tail. -/
theorem saw {k : Nat} {reg : Register UInt64} {p : Consumer} (hle : taken ≤ k)
    (hreg : reg.Tracks (count c) Q k out.length) (hp : p.Ok N c taken k) :
    Inv N c Q { s with tail := reg, consumer := p } out taken seenHead k :=
  ⟨h.head, hreg, h.room, hle, h.bytes, h.producer, hp⟩

/-- `read_acquire`: what it sees and what it gives. -/
theorem acquire_load {request view : Nat}
    (hstep : step N s (.acquire request view) = some (s', ev)) :
    ∃ k n, seenTail ≤ k ∧ Inv N c Q s' out taken seenHead k ∧ s.consumer.free = true ∧
      n = min (min request (k - taken)) (N.toNat - cell N.toNat c taken) ∧
      s'.consumer = .held n ∧ ev = .acquired n := by
  simp only [SPSCByteRing.step] at hstep
  split at hstep
  · rename_i hfree
    obtain ⟨⟨v, reg⟩, hload, heq⟩ := Option.map_eq_some_iff.mp hstep
    obtain ⟨k, hlow, hle, hreg, hread, ha⟩ := h.acquired hN hload request
    obtain ⟨rfl, rfl⟩ := Prod.mk.inj heq
    exact ⟨k, _, hlow, h.saw hle hreg ha, hfree, hread, rfl, rfl⟩
  · cases hstep

theorem step_acquire {request view : Nat}
    (hstep : step N s (.acquire request view) = some (s', ev)) :
    Next N c Q s s' out taken seenHead seenTail ev := by
  obtain ⟨k, n, hlow, hinv, hfree, -, hcons, rfl⟩ := h.acquire_load hN hstep
  exact next_of_quiet h.taken_le (Nat.le_refl _) hlow hinv
    (by rw [Consumer.got_of_free hfree, hcons]; rfl) rfl (by simp)

/-- Acquired bytes are released. -/
theorem next_of_release {n m : Nat} {k : Consumer} (ha : Acquired N c taken seenTail n) (hm : m ≤ n)
    (hk : k.Ok N c (taken + m) seenTail) (hsent : ev.sent = [])
    (hgot : s.consumer.got ++ Lib.readBlock s.buf (offset N s.head.latest) m
      = ev.obtained ++ k.got)
    (hpush : ∀ data free n, ev ≠ .pushed data free n) :
    Next N c Q s { s with head := s.head.store (s.head.latest + UInt64.ofNat m), consumer := k }
      out taken seenHead seenTail ev := by
  have hthere := ha.there
  have htail := h.tail.le
  refine ⟨taken + m, seenHead, seenTail, ?_, ?_,
    ⟨Nat.le_add_right _ _, by omega, Nat.le_refl _, Nat.le_refl _⟩,
    fun data free n he => absurd he (hpush data free n)⟩
  · rw [hsent, List.append_nil]
    exact h.release (by omega) hk
  · rw [Nat.add_sub_cancel_left, ← h.readBlock hN ha hm]
    exact hgot

/-- `read_release`. -/
theorem step_release {bytes : Nat} (hstep : step N s (.release bytes) = some (s', ev)) :
    Next N c Q s s' out taken seenHead seenTail ev := by
  have hcons := h.consumer
  cases hpc : s.consumer with
  | held n =>
      rw [hpc] at hcons
      simp only [SPSCByteRing.step, hpc] at hstep
      split at hstep
      · rename_i hle
        obtain ⟨rfl, rfl⟩ := Prod.mk.inj (Option.some.inj hstep)
        have hthere := hcons.there
        have hcontig := hcons.contig
        refine h.next_of_release hN hcons hle ⟨by omega, ?_⟩ rfl
          (by simp [hpc, Consumer.got, Event.obtained]) (by simp)
        rcases Nat.lt_or_ge (cell N.toNat c taken + bytes) N.toNat with hlt | hge
        · rw [cell_add hlt]
          omega
        · -- nothing is held any more
          have hcell := cell_lt (c := c) (size_pos hN) (taken + bytes)
          omega
      · cases hstep
  | _ => simp [SPSCByteRing.step, hpc] at hstep

/-- The load of a `pop`: what it sees and what it takes. -/
theorem pop_load {len view : Nat} (hstep : step N s (.pop len view) = some (s', ev)) :
    ∃ k n, seenTail ≤ k ∧ Inv N c Q s' out taken seenHead k ∧ s.consumer.free = true ∧
      n = min (min len (k - taken)) (N.toNat - cell N.toNat c taken) ∧
      ((n = 0 ∧ s'.consumer = .idle ∧ ev = .popped len []) ∨
        (0 < n ∧ s'.consumer = .popping len [] n ∧ ev = .quiet)) := by
  simp only [SPSCByteRing.step] at hstep
  split at hstep
  · rename_i hfree
    obtain ⟨⟨v, reg⟩, hload, heq⟩ := Option.map_eq_some_iff.mp hstep
    obtain ⟨k, hlow, hle, hreg, hread, ha⟩ := h.acquired hN hload len
    simp only at heq
    split at heq
    · rename_i hzero
      obtain ⟨rfl, rfl⟩ := Prod.mk.inj heq
      exact ⟨k, _, hlow, h.saw hle hreg trivial, hfree, hread, Or.inl ⟨hzero, rfl, rfl⟩⟩
    · rename_i hpos
      have hpos := Nat.pos_of_ne_zero hpos
      obtain ⟨rfl, rfl⟩ := Prod.mk.inj heq
      exact ⟨k, _, hlow, h.saw hle hreg ⟨ha, hpos, by simp only [List.length_nil]; omega⟩, hfree,
        hread, Or.inr ⟨hpos, rfl, rfl⟩⟩
  · cases hstep

theorem step_pop {len view : Nat} (hstep : step N s (.pop len view) = some (s', ev)) :
    Next N c Q s s' out taken seenHead seenTail ev := by
  obtain ⟨k, n, hlow, hinv, hfree, -, ⟨-, hcons, rfl⟩ | ⟨-, hcons, rfl⟩⟩ := h.pop_load hN hstep <;>
  exact next_of_quiet h.taken_le (Nat.le_refl _) hlow hinv
    (by rw [Consumer.got_of_free hfree, hcons]; rfl) rfl (by simp)

/-- The copy and the release of a round of `pop`. -/
theorem popCopy_spec (hstep : step N s .popCopy = some (s', ev)) :
    ∃ len got n, s.consumer = .popping len got n ∧
      Inv N c Q s' out (taken + n) seenHead seenTail ∧
      ((got = [] ∧ len - n > 0 ∧ ev = .quiet ∧
          s'.consumer = .popMore len (got ++ (out.drop taken).take n)) ∨
        (¬(got = [] ∧ len - n > 0) ∧ s'.consumer = .idle ∧
          ev = .popped len (got ++ (out.drop taken).take n))) := by
  have hcons := h.consumer
  cases hpc : s.consumer with
  | popping len got n =>
      rw [hpc] at hcons
      obtain ⟨ha, hn, hlen⟩ := hcons
      have hblock := h.readBlock hN ha (Nat.le_refl n)
      have hsize : (Lib.readBlock s.buf (offset N s.head.latest) n).length = n :=
        length_readBlock _ _ _
      rw [hblock] at hsize
      simp only [SPSCByteRing.step, hpc, hblock] at hstep
      refine ⟨len, got, n, rfl, ?_⟩
      split at hstep
      · rename_i hmore
        obtain ⟨rfl, rfl⟩ := Prod.mk.inj (Option.some.inj hstep)
        refine ⟨h.release ha.there ?_, Or.inl ⟨hmore.1, hmore.2, rfl, rfl⟩⟩
        show (got ++ _).length ≤ len
        rwa [List.length_append, hsize]
      · rename_i hlast
        obtain ⟨rfl, rfl⟩ := Prod.mk.inj (Option.some.inj hstep)
        exact ⟨h.release ha.there trivial, Or.inr ⟨hlast, rfl, rfl⟩⟩
  | _ => simp [SPSCByteRing.step, hpc] at hstep

theorem step_popCopy (hstep : step N s .popCopy = some (s', ev)) :
    Next N c Q s s' out taken seenHead seenTail ev := by
  obtain ⟨len, got, n, hpc, hinv, hcase⟩ := h.popCopy_spec hN hstep
  have hle := hinv.taken_le
  refine ⟨taken + n, seenHead, seenTail, ?_, ?_,
    ⟨Nat.le_add_right _ _, hle, Nat.le_refl _, Nat.le_refl _⟩, ?_⟩
  · obtain ⟨-, -, rfl, -⟩ | ⟨-, -, rfl⟩ := hcase <;> simpa [Event.sent] using hinv
  · rw [Nat.add_sub_cancel_left, hpc]
    obtain ⟨-, -, rfl, hcons⟩ | ⟨-, hcons, rfl⟩ := hcase <;>
      simp [hcons, Consumer.got, Event.obtained]
  · obtain ⟨-, -, rfl, -⟩ | ⟨-, -, rfl⟩ := hcase <;> simp

/-- The second load of a `pop`. -/
theorem popAgain_load {view : Nat} (hstep : step N s (.popAgain view) = some (s', ev)) :
    ∃ len got k n, s.consumer = .popMore len got ∧ seenTail ≤ k ∧
      Inv N c Q s' out taken seenHead k ∧
      n = min (min (len - got.length) (k - taken)) (N.toNat - cell N.toNat c taken) ∧
      ((0 < n ∧ s'.consumer = .popping len got n ∧ ev = .quiet) ∨
        (n = 0 ∧ s'.consumer = .idle ∧ ev = .popped len got)) := by
  have hcons := h.consumer
  cases hpc : s.consumer with
  | popMore len got =>
      rw [hpc] at hcons
      simp only [SPSCByteRing.step, hpc, Option.map_eq_some_iff] at hstep
      obtain ⟨⟨v, reg⟩, hload, heq⟩ := hstep
      obtain ⟨k, hlow, hle, hreg, hread, ha⟩ := h.acquired hN hload (len - got.length)
      have hlen : got.length ≤ len := hcons
      refine ⟨len, got, k, _, rfl, hlow, ?_, hread, ?_⟩
      all_goals
        simp only at heq
        split at heq <;> obtain ⟨rfl, rfl⟩ := Prod.mk.inj heq
      · rename_i hpos
        exact h.saw hle hreg ⟨ha, hpos, by omega⟩
      · exact h.saw hle hreg trivial
      · rename_i hpos
        exact Or.inl ⟨hpos, rfl, rfl⟩
      · rename_i hzero
        exact Or.inr ⟨Nat.eq_zero_of_not_pos hzero, rfl, rfl⟩
  | _ => simp [SPSCByteRing.step, hpc] at hstep

theorem step_popAgain {view : Nat} (hstep : step N s (.popAgain view) = some (s', ev)) :
    Next N c Q s s' out taken seenHead seenTail ev := by
  obtain ⟨len, got, k, n, hpc, hlow, hinv, -, ⟨-, hcons, rfl⟩ | ⟨-, hcons, rfl⟩⟩ :=
    h.popAgain_load hN hstep <;>
  exact next_of_quiet h.taken_le (Nat.le_refl _) hlow hinv
    (by simp [hpc, hcons, Consumer.got, Event.obtained]) rfl (by simp)

/-- Every step keeps the invariant. -/
protected theorem step {a : Action} (hstep : SPSCByteRing.step N s a = some (s', ev))
    (hQ : Q (out.length + ev.sent.length)) :
    Next N c Q s s' out taken seenHead seenTail ev := by
  cases a with
  | push data view => exact h.step_push hN hstep
  | copyFirst => exact h.step_copyFirst hN hstep
  | copySecond => exact h.step_copySecond hN hstep
  | publish => exact h.step_publish hN hstep hQ
  | acquire request view => exact h.step_acquire hN hstep
  | release bytes => exact h.step_release hN hstep
  | pop len view => exact h.step_pop hN hstep
  | popCopy => exact h.step_popCopy hN hstep
  | popAgain view => exact h.step_popAgain hN hstep

/-- `pop` gives all that is there, up to what was asked for. -/
theorem length_pop (len : Nat) :
    (SPSCByteRing.pop N s.ring len).2.length = min len (out.length - taken) := by
  have hle := h.taken_le
  have hroom := h.room
  have hhead := h.head.le
  have hsize := size_pos hN
  have hused : out.length - taken < 2 ^ 64 := by
    have := N.toNat_lt
    omega
  have hcell := cell_lt (c := c) hsize taken
  have hfirst := readAcquire_count hN c hle hused len
  simp only [SPSCByteRing.pop, Threads.ring, SPSCByteRing.readRelease, h.head.latest,
    h.tail.latest, hfirst]
  generalize hn1 : min (min len (out.length - taken)) (N.toNat - cell N.toNat c taken) = n1
  split
  · simp only [List.length_nil]
    omega
  · split
    · -- the second round starts in the first cell, or there is nothing left
      have hnext : n1 = out.length - taken ∨ cell N.toNat c (taken + n1) = 0 := by
        rcases Nat.lt_or_ge (out.length - taken) (N.toNat - cell N.toNat c taken) with hlt | hge
        · exact Or.inl (by omega)
        · refine Or.inr ?_
          rw [show n1 = N.toNat - cell N.toNat c taken by omega, cell_wrap hsize]
      have hsecond := readAcquire_count hN c (show taken + n1 ≤ out.length by omega) (by omega)
        (len - n1)
      have hcell' := cell_lt (c := c) hsize (taken + n1)
      rw [count_add, hsecond]
      split
      · rw [List.length_append, length_readBlock, length_readBlock]
        omega
      · rw [length_readBlock]
        omega
    · rw [length_readBlock]
      omega

end

end Inv

/-! ### What a `push` has seen -/

/-- The `push` that is going on. -/
def Producer.pushing : Producer → Option Pushing
  | .idle => none
  | .loaded p | .half p | .copied p => some p

section
variable (N c : UInt64) (buf : Nat → UInt8)

/-- `head_` had the value `v` at a moment of the run. -/
def Published (h : List (Action × Event)) (v : UInt64) : Prop :=
  ∃ s, Passed (step N) (fun _ _ _ => True) (start buf c) h s ∧ s.head.latest = v

/-- What the producer can see of `head_`, and what a `push` that is going on saw of it, are
values it had. -/
structure Views (h : List (Action × Event)) (s : Threads) : Prop where
  head : ∀ v ∈ s.head.values, Published N c buf h v
  free : ∀ p, s.producer.pushing = some p →
    ∃ v, Published N c buf h v ∧ p.free = freeSpace N s.tail.latest v

/-- A finished `push` saw the free space above a value of `head_`. -/
def Saw (h : List (Action × Event)) (s : Threads) (ev : Event) : Prop :=
  ∀ data free n, ev = .pushed data free n →
    ∃ v, Published N c buf h v ∧ free = freeSpace N s.tail.latest v

end

namespace Views

variable {N c : UInt64} {buf : Nat → UInt8} {h : List (Action × Event)} {s s' : Threads}
  {x : Action × Event}

theorem start : Views N c buf [] (start buf c) where
  head v hv := ⟨_, Trace.nil.passed, (List.mem_singleton.mp hv).symm⟩
  free p hp := by cases hp

theorem published_snoc {v : UInt64} (hv : Published N c buf h v) :
    Published N c buf (h ++ [x]) v := by
  obtain ⟨s, hs, rfl⟩ := hv
  exact ⟨s, hs.snoc x, rfl⟩

/-- A step that stores nothing, and after which no other `push` is going on. -/
theorem of_quiet (hv : Views N c buf h s) (hhead : s'.head = s.head)
    (htail : s'.tail.latest = s.tail.latest)
    (hprod : ∀ p, s'.producer.pushing = some p → s.producer.pushing = some p) :
    Views N c buf (h ++ [x]) s' where
  head v hmem := published_snoc (hv.head v (hhead ▸ hmem))
  free p hp := by
    obtain ⟨v, hpub, hfree⟩ := hv.free p (hprod p hp)
    exact ⟨v, published_snoc hpub, by rw [hfree, htail]⟩

/-- A step of the consumer that stores `head_`. -/
theorem of_store (hv : Views N c buf h s)
    (t : Trace (step N) (fun _ _ _ => True) (SPSCByteRing.start buf c) (h ++ [x]) s') {v : UInt64}
    (hhead : s'.head = s.head.store v) (htail : s'.tail = s.tail)
    (hprod : s'.producer = s.producer) : Views N c buf (h ++ [x]) s' where
  head w hmem := by
    rw [hhead, Register.values_store, List.mem_append, List.mem_singleton] at hmem
    rcases hmem with hmem | rfl
    · exact published_snoc (hv.head w hmem)
    · exact ⟨s', t.passed, by rw [hhead, Register.latest_store]⟩
  free p hp := by
    obtain ⟨w, hpub, hfree⟩ := hv.free p (hprod ▸ hp)
    exact ⟨w, published_snoc hpub, by rw [hfree, htail]⟩

/-- The load of a `push`. -/
theorem step_push (hv : Views N c buf h s) {data : List UInt8} {view : Nat} {ev : Event}
    (hstep : step N s (.push data view) = some (s', ev)) :
    Views N c buf (h ++ [(.push data view, ev)]) s' ∧ Saw N c buf h s ev := by
  cases hprod : s.producer with
  | idle =>
      simp only [step, hprod, Option.map_eq_some_iff] at hstep
      obtain ⟨⟨head, reg⟩, hload, heq⟩ := hstep
      obtain ⟨hseen, hsuffix⟩ := Register.suffix_of_load hload
      have hpub : Published N c buf h head :=
        hv.head head (hsuffix.subset (hseen ▸ List.mem_cons_self))
      have hreg : ∀ v ∈ reg.values, Published N c buf (h ++ [(.push data view, ev)]) v :=
        fun v hmem => published_snoc (hv.head v (hsuffix.subset hmem))
      simp only at heq
      split at heq
      · obtain ⟨rfl, rfl⟩ := Prod.mk.inj heq
        refine ⟨⟨hreg, fun p hp => ?_⟩, fun data' free n he => ?_⟩
        · cases hp
        · obtain ⟨-, rfl, -⟩ := Event.pushed.inj he
          exact ⟨head, hpub, rfl⟩
      · obtain ⟨rfl, rfl⟩ := Prod.mk.inj heq
        refine ⟨⟨hreg, fun p hp => ?_⟩, fun data' free n he => by cases he⟩
        obtain rfl := Option.some.inj hp
        exact ⟨head, published_snoc hpub, rfl⟩
  | _ => simp [step, hprod] at hstep

/-- The store of a `push`. -/
theorem step_publish (hv : Views N c buf h s) {ev : Event}
    (hstep : step N s .publish = some (s', ev)) :
    Views N c buf (h ++ [(.publish, ev)]) s' ∧ Saw N c buf h s ev := by
  cases hprod : s.producer with
  | copied p =>
      simp only [step, hprod, Option.some.injEq, Prod.mk.injEq] at hstep
      obtain ⟨rfl, rfl⟩ := hstep
      refine ⟨⟨fun v hmem => published_snoc (hv.head v hmem), fun q hq => by cases hq⟩, ?_⟩
      intro data free n he
      obtain ⟨-, rfl, -⟩ := Event.pushed.inj he
      exact hv.free p (by rw [hprod]; rfl)
  | _ => simp [step, hprod] at hstep

/-- Only the two steps that end a `push` say what it saw. -/
theorem saw_of_ne {ev : Event} (hne : ∀ data free n, ev ≠ .pushed data free n) :
    Saw N c buf h s ev := fun data free n he => absurd he (hne data free n)

/-- Every step. -/
protected theorem step (hv : Views N c buf h s) {a : Action} {ev : Event}
    (t : Trace (SPSCByteRing.step N) (fun _ _ _ => True) (SPSCByteRing.start buf c) h s)
    (hstep : SPSCByteRing.step N s a = some (s', ev)) :
    Views N c buf (h ++ [(a, ev)]) s' ∧ Saw N c buf h s ev := by
  have t' := t.snoc trivial hstep
  cases a with
  | push data view => exact hv.step_push hstep
  | publish => exact hv.step_publish hstep
  | copyFirst =>
      cases hpc : s.producer with
      | loaded p =>
          simp only [SPSCByteRing.step, hpc, Option.some.injEq, Prod.mk.injEq] at hstep
          obtain ⟨rfl, rfl⟩ := hstep
          exact ⟨hv.of_quiet rfl rfl (by simp [hpc, Producer.pushing]), saw_of_ne (by simp)⟩
      | _ => simp [SPSCByteRing.step, hpc] at hstep
  | copySecond =>
      cases hpc : s.producer with
      | half p =>
          simp only [SPSCByteRing.step, hpc, Option.some.injEq, Prod.mk.injEq] at hstep
          obtain ⟨rfl, rfl⟩ := hstep
          exact ⟨hv.of_quiet rfl rfl (by simp [hpc, Producer.pushing]), saw_of_ne (by simp)⟩
      | _ => simp [SPSCByteRing.step, hpc] at hstep
  | acquire request view =>
      simp only [SPSCByteRing.step] at hstep
      split at hstep
      · obtain ⟨⟨v, reg⟩, hload, heq⟩ := Option.map_eq_some_iff.mp hstep
        obtain ⟨rfl, rfl⟩ := Prod.mk.inj heq
        exact ⟨hv.of_quiet rfl (Register.latest_of_load hload) fun p hp => hp,
          saw_of_ne (by simp)⟩
      · cases hstep
  | release bytes =>
      cases hpc : s.consumer with
      | held n =>
          simp only [SPSCByteRing.step, hpc] at hstep
          split at hstep
          · obtain ⟨rfl, rfl⟩ := Prod.mk.inj (Option.some.inj hstep)
            exact ⟨hv.of_store t' rfl rfl rfl, saw_of_ne (by simp)⟩
          · cases hstep
      | _ => simp [SPSCByteRing.step, hpc] at hstep
  | pop len view =>
      simp only [SPSCByteRing.step] at hstep
      split at hstep
      · obtain ⟨⟨v, reg⟩, hload, heq⟩ := Option.map_eq_some_iff.mp hstep
        have hlatest := Register.latest_of_load hload
        simp only at heq
        split at heq <;> obtain ⟨rfl, rfl⟩ := Prod.mk.inj heq <;>
          exact ⟨hv.of_quiet rfl hlatest fun p hp => hp, saw_of_ne (by simp)⟩
      · cases hstep
  | popCopy =>
      cases hpc : s.consumer with
      | popping len got n =>
          simp only [SPSCByteRing.step, hpc] at hstep
          split at hstep <;> obtain ⟨rfl, rfl⟩ := Prod.mk.inj (Option.some.inj hstep) <;>
            exact ⟨hv.of_store t' rfl rfl rfl, saw_of_ne (by simp)⟩
      | _ => simp [SPSCByteRing.step, hpc] at hstep
  | popAgain view =>
      cases hpc : s.consumer with
      | popMore len got =>
          simp only [SPSCByteRing.step, hpc, Option.map_eq_some_iff] at hstep
          obtain ⟨⟨v, reg⟩, hload, heq⟩ := hstep
          have hlatest := Register.latest_of_load hload
          simp only at heq
          split at heq <;> obtain ⟨rfl, rfl⟩ := Prod.mk.inj heq <;>
            exact ⟨hv.of_quiet rfl hlatest fun p hp => hp, saw_of_ne (by simp)⟩
      | _ => simp [SPSCByteRing.step, hpc] at hstep

/-- Every `push` of a run saw a value `head_` had before. -/
theorem saw_of_prefix
    (t : Trace (SPSCByteRing.step N) (fun _ _ _ => True) (SPSCByteRing.start buf c) h s)
    {g : List (Action × Event)} {a : Action} {data : List UInt8} {free n : Nat}
    (hg : g ++ [(a, Event.pushed data free n)] <+: h) : ∃ head s₁, Published N c buf g head ∧
      Trace (SPSCByteRing.step N) (fun _ _ _ => True) (SPSCByteRing.start buf c) g s₁ ∧
      free = (N - (s₁.tail.latest - head)).toNat := by
  -- With the views goes what every `push` before has seen.
  suffices hall : Views N c buf h s ∧ ∀ g a data free n,
      g ++ [(a, Event.pushed data free n)] <+: h → ∃ head s₁, Published N c buf g head ∧
        Trace (SPSCByteRing.step N) (fun _ _ _ => True) (SPSCByteRing.start buf c) g s₁ ∧
        free = (N - (s₁.tail.latest - head)).toNat from hall.2 g a data free n hg
  refine t.invariant (fun h s => Views N c buf h s ∧ ∀ g a data free n,
    g ++ [(a, Event.pushed data free n)] <+: h → ∃ head s₁, Published N c buf g head ∧
      Trace (SPSCByteRing.step N) (fun _ _ _ => True) (SPSCByteRing.start buf c) g s₁ ∧
      free = (N - (s₁.tail.latest - head)).toNat) ⟨.start, ?_⟩ ?_
  · intro g a data free n hg
    simp at hg
  · rintro h s a s' ev t ⟨hv, hsaw⟩ - hstep
    obtain ⟨hv', hnew⟩ := hv.step t hstep
    refine ⟨hv', fun g b data free n hg => ?_⟩
    rcases List.prefix_concat_iff.mp hg with heq | hg
    · obtain ⟨rfl, hlast⟩ := List.append_inj' heq rfl
      obtain ⟨-, rfl⟩ := Prod.mk.inj (List.cons.inj hlast).1
      obtain ⟨head, hpub, hfree⟩ := hnew data free n rfl
      exact ⟨head, s, hpub, t, hfree⟩
    · exact hsaw g b data free n hg

end Views

/-! ### Every run -/

/-- The invariant in every state of a run, with the bytes that were obtained and what the `push`
calls returned. -/
theorem exists_inv {N : UInt64} {j : Nat} (hN : N.toNat = 2 ^ j) (c : UInt64)
    (buf : Nat → UInt8) {h : List (Action × Event)} {s : Threads}
    (t : Trace (step N) (fun _ _ _ => True) (start buf c) h s) : ∃ taken seenHead seenTail,
      Inv N c (fun _ => True) s (sent h) taken seenHead seenTail ∧
      obtained h ++ s.consumer.got = (sent h).take taken ∧
      ∀ a data free n, (a, Event.pushed data free n) ∈ h → n = min data.length free := by
  refine t.invariant (fun h s => ∃ taken seenHead seenTail,
    Inv N c (fun _ => True) s (sent h) taken seenHead seenTail ∧
    obtained h ++ s.consumer.got = (sent h).take taken ∧
    ∀ a data free n, (a, Event.pushed data free n) ∈ h → n = min data.length free)
    ⟨0, 0, 0, Inv.start N c buf trivial, rfl, by simp⟩ ?_
  rintro h s a s' ev - ⟨taken, seenHead, seenTail, hinv, hgot, hpush⟩ - hstep
  obtain ⟨taken', seenHead', seenTail', hinv', hev, ⟨hle, hle', -, -⟩, hret⟩ :=
    hinv.step hN hstep trivial
  have hsent : sent (h ++ [(a, ev)]) = sent h ++ ev.sent := by simp [sent]
  have hobt : obtained (h ++ [(a, ev)]) = obtained h ++ ev.obtained := by simp [obtained]
  refine ⟨taken', seenHead', seenTail', hsent ▸ hinv', ?_, fun b data free n hmem => ?_⟩
  · -- what was taken by this step follows what was taken before it
    rw [hobt, hsent, List.append_assoc, ← hev, ← List.append_assoc, hgot,
      List.take_append_of_le_length hle', ← Nat.add_sub_cancel' hle, List.take_add,
      Nat.add_sub_cancel_left]
  · rcases List.mem_append.mp hmem with hmem | hmem
    · exact hpush b data free n hmem
    · exact hret data free n (Prod.mk.inj (List.mem_singleton.mp hmem)).2.symm

/-- **The ring is a lossless byte FIFO.** `N` is a power of two and both counters start at any
value. In every state one producer and one consumer reach, each with any view of the other
one's counter that is not older than its last one: the counters are at most `N` apart; every
`push` returned the smaller of its length and the free space it saw, which is `N` less the
distance of the tail from a value `head_` had before, and that many bytes of its data count as
sent; the bytes obtained are a prefix of the bytes sent; all bytes that are not released are in
their cells, in order; and a `pop` in a quiet ring gives all that is there, up to what was asked
for. -/
theorem lossless_fifo {N : UInt64} {j : Nat} (hN : N.toNat = 2 ^ j) (c : UInt64)
    (buf : Nat → UInt8) {h : List (Action × Event)} {s : Threads}
    (t : Trace (step N) (fun _ _ _ => True) (start buf c) h s) :
    (s.tail.latest - s.head.latest).toNat ≤ N.toNat ∧
    (∀ g a data free n, g ++ [(a, Event.pushed data free n)] <+: h →
      n = min data.length free ∧ ∃ head s₁, Published N c buf g head ∧
        Trace (step N) (fun _ _ _ => True) (start buf c) g s₁ ∧
        free = (N - (s₁.tail.latest - head)).toNat) ∧
    obtained h <+: sent h ∧
    (∃ released, released <+: sent h ∧ released = obtained h ++ s.consumer.got ∧
      released.length + (s.tail.latest - s.head.latest).toNat = (sent h).length ∧
      ∀ i < (s.tail.latest - s.head.latest).toNat, (sent h)[released.length + i]? =
        some (s.buf (offset N (s.head.latest + UInt64.ofNat i)))) ∧
    (s.producer = .idle → s.consumer.free = true → ∀ len, ∃ s' bytes,
      popAlone N s len = some (s', bytes) ∧
        bytes.length = min len (s.tail.latest - s.head.latest).toNat) := by
  obtain ⟨taken, seenHead, seenTail, hinv, hgot, hpush⟩ := exists_inv hN c buf t
  have hle := hinv.taken_le
  have hhead := hinv.head.le
  have hroom := hinv.room
  have hused : (s.tail.latest - s.head.latest).toNat = (sent h).length - taken := by
    rw [hinv.tail.latest, hinv.head.latest]
    exact count_sub c hle (by have := N.toNat_lt; omega)
  have htaken : ((sent h).take taken).length = taken := by
    rw [List.length_take]
    omega
  rw [hused]
  refine ⟨by omega, fun g a data free n hg => ⟨?_, Views.saw_of_prefix t hg⟩, ?_,
    ⟨_, List.take_prefix taken _, hgot.symm, by omega, fun i hi => ?_⟩,
    fun _ hfree len => ?_⟩
  · exact hpush a data free n (hg.subset (List.mem_append_right g List.mem_cons_self))
  · exact (List.prefix_append _ _).trans (hgot ▸ List.take_prefix taken _)
  · have hbyte := hinv.bytes (taken + i) (by omega) (by omega)
    rw [htaken, hinv.head.latest, count_add, offset_count hN, hbyte, List.getD_eq_getElem?_getD,
      List.getElem?_eq_getElem (by omega), Option.getD_some]
  · obtain ⟨s', hpop, -⟩ := popAlone_eq N hfree len
    exact ⟨s', _, hpop, hinv.length_pop hN len⟩

/-- Four cells and counters that start two below the wrap: a push, a stale read, a push that
finds less room than it asks for, and the bytes through a zero-copy read and a `pop`. The second
push has seen `head_` as it was at the start. -/
theorem lossless_fifo_wrap : ∃ h s g head s₁,
    Trace (step 4) (fun _ _ _ => True) (start (fun _ => 0) (0 - 2)) h s ∧
    sent h = [1, 2, 3, 4] ∧ obtained h = [1, 2, 3] ∧
    (s.tail.latest - s.head.latest).toNat ≤ 4 ∧ obtained h <+: sent h ∧
    g ++ [(.publish, .pushed [4, 5] 1 1)] <+: h ∧ Published 4 (0 - 2) (fun _ => 0) g head ∧
    Trace (step 4) (fun _ _ _ => True) (start (fun _ => 0) (0 - 2)) g s₁ ∧
    1 = ((4 : UInt64) - (s₁.tail.latest - head)).toNat := by
  let acts : List Action := [.push [1, 2, 3] 0, .copyFirst, .copySecond, .acquire 4 0, .publish,
    .push [4, 5] 0, .copyFirst, .acquire 4 1, .copySecond, .publish, .release 1, .pop 2 0,
    .popCopy, .popAgain 1, .popCopy]
  have hrun : (run (step 4) (start (fun _ => 0) (0 - 2)) acts).map
      (fun r => (sent (acts.zip r.2), obtained (acts.zip r.2), r.2[9]?)) =
      some ([1, 2, 3, 4], [1, 2, 3], some (.pushed [4, 5] 1 1)) := by decide +kernel
  obtain ⟨⟨s, os⟩, hrun, hfold⟩ := Option.map_eq_some_iff.mp hrun
  obtain ⟨hsent, hobt, hsecond⟩ : sent (acts.zip os) = _ ∧ obtained (acts.zip os) = _ ∧
      os[9]? = _ := by
    simpa only [Prod.mk.injEq] using hfold
  have t := (Trace.of_run (fun _ _ => trivial) hrun).2
  have hg : (acts.zip os).take 9 ++ [(.publish, .pushed [4, 5] 1 1)] <+: acts.zip os := by
    have hat : (acts.zip os)[9]? = some (.publish, .pushed [4, 5] 1 1) :=
      List.getElem?_zip_eq_some.mpr ⟨rfl, hsecond⟩
    obtain ⟨hlt, hat⟩ := List.getElem?_eq_some_iff.mp hat
    rw [← hat, List.take_append_getElem]
    exact List.take_prefix _ _
  obtain ⟨hused, hpush, hprefix, -, -⟩ := lossless_fifo (j := 2) (by decide) (0 - 2) (fun _ => 0) t
  obtain ⟨-, head, s₁, hpub, t₁, hfree⟩ := hpush _ _ _ _ _ hg
  exact ⟨_, s, _, head, s₁, t, hsent, hobt, hused, hprefix, hg, hpub, t₁, hfree⟩

end SPSCByteRing

end NebulaX
