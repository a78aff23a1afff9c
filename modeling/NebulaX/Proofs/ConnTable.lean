import NebulaX.Lib.Trace
import NebulaX.Server.ConnTable

/-!
# `NebulaX.Proofs.ConnTable`: the table of connections and the reuse of descriptors

`conns_` is keyed by the descriptor. The Send thread closes the descriptor before
`drainPendingClose` takes the entry out, and in between the kernel can give its number to a new
connection. `onAccept` then writes over the entry of the old connection, and `drainPendingClose`,
which erases by the number, takes out the entry of the new one (`reused_fd_loses_its_entry`).

`ReusesNone` asks that `onAccept` finds no entry under the number it gets. In a run in which it
always does, the entries of `conns_` are exactly the contexts that are not deleted (`Inv.table`),
and erasing by the number is erasing the entry of the connection itself. `Inv` is over the events
so far: the connections that were accepted, acknowledged and released.
-/

set_option autoImplicit false

namespace NebulaX.ConnTable

open NebulaX.Lib

variable {σ ω : Type} {process : σ → List UInt8 → Option (σ × ω)} {s s' : ConnTable σ}

/-! ### What has happened -/

/-- The connections that were accepted, with their descriptors. -/
def accepts (h : List (ConnInput × ConnEvent)) : List (Nat × Nat) :=
  h.filterMap fun x => match x.2 with
    | .accepted conn fd => some (conn, fd)
    | _ => none

/-- The connections whose close was acknowledged. -/
def acks (h : List (ConnInput × ConnEvent)) : List Nat :=
  h.filterMap fun x => match x.2 with
    | .acked conn => some conn
    | _ => none

/-- The connections whose descriptor the Send thread closed. -/
def closes (h : List (ConnInput × ConnEvent)) : List Nat :=
  h.filterMap fun x => match x.2 with
    | .closed conn => some conn
    | _ => none

/-- The connections that `drainPendingClose` released. -/
def releases (h : List (ConnInput × ConnEvent)) : List Nat :=
  h.flatMap fun x => match x.2 with
    | .released conns => conns
    | _ => []

/-- A descriptor that a connection gets is not in the table. -/
def ReusesNone (s : ConnTable σ) : ConnInput → Prop
  | .accept => ∀ fd, s.completed = some fd → s.conns fd = none
  | _ => True

/-! ### Contexts -/

/-- The context of `conn` is there and has the property. -/
def Has (s : ConnTable σ) (conn : Nat) (p : ConnContext → Prop) : Prop :=
  ∃ ctx, s.contexts conn = some ctx ∧ p ctx

section
variable {conn c : Nat} {ctx ctx' : ConnContext} {p q : ConnContext → Prop}

theorem has_iff (hctx : s.contexts conn = some ctx) : s.Has conn p ↔ p ctx := by
  simp [Has, hctx]

theorem has_update (hcontexts : s'.contexts = Function.update s.contexts conn (some ctx)) :
    s'.Has c p ↔ if c = conn then p ctx else s.Has c p := by
  rw [Has, hcontexts]
  by_cases hc : c = conn
  · subst hc
    simp
  · simp [hc, Has]

theorem has_keep (hcontexts : s'.contexts = Function.update s.contexts conn (some ctx'))
    (hctx : s.contexts conn = some ctx) (hp : p ctx' ↔ p ctx) : s'.Has c p ↔ s.Has c p := by
  rw [has_update hcontexts]
  split
  · subst c
    rw [has_iff hctx, hp]
  · rfl

theorem has_delete (hcontexts : s'.contexts = Function.update s.contexts conn none) :
    s'.Has c p ↔ c ≠ conn ∧ s.Has c p := by
  rw [Has, hcontexts]
  by_cases hc : c = conn
  · subst hc
    simp
  · simp [hc, Has]

end

/-! ### The invariant -/

/-- The closes that the Send thread still has to acknowledge. -/
def unacked (s : ConnTable σ) : List Nat := s.acking.toList ++ s.ring.map Prod.snd

/-- The receive buffers: each is free or belongs to one connection. -/
structure Buffers (s : ConnTable σ) : Prop where
  nodup : s.bufFreeStack.Nodup
  small : ∀ idx ∈ s.bufFreeStack, idx.toNat < maxBuffers
  used : ∀ conn idx, s.Has conn (·.bufIdx = idx) →
    idx ∉ s.bufFreeStack ∧ idx.toNat < maxBuffers
  own : ∀ conn conn' idx, s.Has conn (·.bufIdx = idx) → s.Has conn' (·.bufIdx = idx) → conn = conn'

/-- The table when `acc` were accepted, `ack` acknowledged and `rel` released. `pend` are the
connections that wait for their release. -/
structure Inv (acc : List (Nat × Nat)) (ack rel pend : List Nat) (s : ConnTable σ) : Prop where
  table : ∀ fd conn, s.conns fd = some conn ↔ s.Has conn (·.fd = fd)
  accepted : ∀ conn fd, ((conn, fd) ∈ acc ∧ conn ∉ rel) ↔ s.Has conn (·.fd = fd)
  acked : ∀ conn, (conn ∈ ack ∧ conn ∉ rel) ↔ s.Has conn (·.closeAcked = true)
  pending : ∀ conn, conn ∈ pend ↔ s.Has conn (·.closing = true)
  pendingNodup : pend.Nodup
  waits : ∀ conn ∈ s.unacked, s.Has conn fun ctx => ctx.closing = true ∧ ctx.closeAcked = false
  waitsNodup : s.unacked.Nodup
  closing : ∀ conn, s.Has conn (·.closeAcked = true) → s.Has conn (·.closing = true)
  acceptedOld : ∀ x ∈ acc, x.1 < s.next
  ackedOld : ∀ conn ∈ ack, conn < s.next
  released : ∀ conn ∈ rel, conn ∈ ack
  buffers : s.Buffers

section
variable {acc : List (Nat × Nat)} {ack rel pend : List Nat} {conn : Nat} {ctx : ConnContext}

theorem Inv.releasedOld (hi : Inv acc ack rel pend s) : ∀ conn ∈ rel, conn < s.next :=
  fun conn hc => hi.ackedOld conn (hi.released conn hc)

theorem Inv.lt_next (hi : Inv acc ack rel pend s) {p : ConnContext → Prop} (h : s.Has conn p) :
    conn < s.next := by
  obtain ⟨ctx, hctx, -⟩ := h
  exact hi.acceptedOld _ ((hi.accepted conn ctx.fd).mpr ⟨ctx, hctx, rfl⟩).1

theorem Buffers.congr (hb : s.Buffers) (hfree : s'.bufFreeStack = s.bufFreeStack)
    (hhas : ∀ c idx, s'.Has c (·.bufIdx = idx) ↔ s.Has c (·.bufIdx = idx)) : s'.Buffers where
  nodup := hfree ▸ hb.nodup
  small := hfree ▸ hb.small
  used c idx h := hfree ▸ hb.used c idx ((hhas c idx).mp h)
  own c c' idx h h' := hb.own c c' idx ((hhas c idx).mp h) ((hhas c' idx).mp h')

/-- A step that leaves alone what the table and the close protocol read. -/
theorem Inv.congr (hi : Inv acc ack rel pend s) (hconns : s'.conns = s.conns)
    (hnext : s'.next = s.next) (hfree : s'.bufFreeStack = s.bufFreeStack)
    (hunacked : s'.unacked = s.unacked)
    (hhas : ∀ c (p : Nat → UInt32 → Bool → Bool → Prop),
      s'.Has c (fun x => p x.fd x.bufIdx x.closing x.closeAcked) ↔
        s.Has c fun x => p x.fd x.bufIdx x.closing x.closeAcked) :
    Inv acc ack rel pend s' where
  table fd conn := by
    rw [hconns]
    exact (hi.table fd conn).trans (hhas conn fun f _ _ _ => f = fd).symm
  accepted conn fd := (hi.accepted conn fd).trans (hhas conn fun f _ _ _ => f = fd).symm
  acked conn := (hi.acked conn).trans (hhas conn fun _ _ _ a => a = true).symm
  pending conn := (hi.pending conn).trans (hhas conn fun _ _ cl _ => cl = true).symm
  pendingNodup := hi.pendingNodup
  waits conn hc := (hhas conn fun _ _ cl a => cl = true ∧ a = false).mpr
    (hi.waits conn (hunacked ▸ hc))
  waitsNodup := hunacked ▸ hi.waitsNodup
  closing conn h := (hhas conn fun _ _ cl _ => cl = true).mpr
    (hi.closing conn ((hhas conn fun _ _ _ a => a = true).mp h))
  acceptedOld := hnext ▸ hi.acceptedOld
  ackedOld := hnext ▸ hi.ackedOld
  released := hi.released
  buffers := hi.buffers.congr hfree fun c idx => hhas c fun _ b _ _ => b = idx

/-- The stack at the start. -/
theorem freshStack : ((List.range maxBuffers).map UInt32.ofNat).Nodup ∧
    ∀ idx ∈ (List.range maxBuffers).map UInt32.ofNat, idx.toNat < maxBuffers := by
  have htoNat : ∀ i ∈ List.range maxBuffers, (UInt32.ofNat i).toNat = i := fun i hi =>
    UInt32.toNat_ofNat_of_lt' ((List.mem_range.mp hi).trans (by decide))
  constructor
  · refine List.Nodup.map_on ?_ List.nodup_range
    intro i hi j hj heq
    rw [← htoNat i hi, ← htoNat j hj, heq]
  · intro idx hidx
    obtain ⟨i, hi, rfl⟩ := List.mem_map.mp hidx
    rw [htoNat i hi]
    exact List.mem_range.mp hi

theorem Inv.init (server : σ) (opened : Nat → Bool) :
    Inv [] [] [] [] (ConnTable.init server opened) := by
  have hno : ∀ c p, ¬ (ConnTable.init server opened).Has c p := by
    rintro c p ⟨ctx, hctx, -⟩
    cases hctx
  constructor
  case table => exact fun fd conn => ⟨nofun, fun h => absurd h (hno _ _)⟩
  case accepted => exact fun conn fd => ⟨fun h => by simp at h, fun h => absurd h (hno _ _)⟩
  case acked => exact fun conn => ⟨fun h => by simp at h, fun h => absurd h (hno _ _)⟩
  case pending => exact fun conn => ⟨fun h => by simp at h, fun h => absurd h (hno _ _)⟩
  case pendingNodup => exact List.nodup_nil
  case waits => exact fun conn h => by cases h
  case waitsNodup => exact List.nodup_nil
  case closing => exact fun conn h => absurd h (hno _ _)
  case acceptedOld => exact fun x hx => by cases hx
  case ackedOld => exact fun x hx => by cases hx
  case released => exact fun x hx => by cases hx
  case buffers =>
    exact { nodup := freshStack.1
            small := freshStack.2
            used := fun conn idx h => absurd h (hno _ _)
            own := fun conn conn' idx h => absurd h (hno _ _) }

/-! ### A connection comes -/

theorem onAccept_nil {fd : Nat} (hfree : s.bufFreeStack = []) :
    s.onAccept fd = (s.close fd, .refused fd) := by
  unfold ConnTable.onAccept
  split
  · rfl
  · rename_i heq
    cases hfree.symm.trans heq

theorem onAccept_cons {fd : Nat} {bufIdx : UInt32} {rest : List UInt32}
    (hfree : s.bufFreeStack = bufIdx :: rest) :
    s.onAccept fd = ({ s with
      bufFreeStack := rest
      next := s.next + 1
      contexts := Function.update s.contexts s.next (some { fd := fd, bufIdx := bufIdx })
      conns := Function.update s.conns fd (some s.next) }, .accepted s.next fd) := by
  unfold ConnTable.onAccept
  split
  · rename_i heq
    cases hfree.symm.trans heq
  · rename_i heq
    cases hfree.symm.trans heq
    rfl

theorem Inv.onAccept (hi : Inv acc ack rel pend s) {fd : Nat} {bufIdx : UInt32} {rest : List UInt32}
    (hfree : s.bufFreeStack = bufIdx :: rest) (hnone : s.conns fd = none) :
    Inv (acc ++ [(s.next, fd)]) ack rel pend (s.onAccept fd).1 := by
  rw [onAccept_cons hfree]
  have hold : ∀ {p : ConnContext → Prop}, ¬ s.Has s.next p := fun h =>
    absurd (hi.lt_next h) (by simp)
  have hnotin : bufIdx ∉ rest ∧ rest.Nodup := List.nodup_cons.mp (hfree ▸ hi.buffers.nodup)
  constructor
  case table =>
    intro fd' conn
    rw [has_update rfl]
    by_cases hfd : fd' = fd
    · -- the number of the new connection: no other context has it
      subst hfd
      have hno : ¬ s.Has conn (·.fd = fd') := by
        rw [← hi.table, hnone]
        exact fun h => by cases h
      by_cases hc : conn = s.next
      · simp [hc]
      · simp [hc, hno, Ne.symm hc]
    · by_cases hc : conn = s.next
      · simp [hc, hfd, Ne.symm hfd, hi.table, hold]
      · simp [hc, hfd, hi.table]
  case accepted =>
    intro conn fd'
    rw [has_update rfl, List.mem_append, List.mem_singleton, Prod.mk.injEq]
    by_cases hc : conn = s.next
    · subst hc
      have hacc : (s.next, fd') ∉ acc := fun h => absurd (hi.acceptedOld _ h) (by simp)
      have hrel : s.next ∉ rel := fun h => absurd (hi.releasedOld _ h) (by simp)
      simp [hacc, hrel, eq_comm]
    · simp [hc, hi.accepted]
  case acked =>
    intro conn
    rw [has_update rfl]
    by_cases hc : conn = s.next
    · have hack : s.next ∉ ack := fun h => absurd (hi.ackedOld _ h) (by simp)
      simp [hc, hack]
    · simp [hc, hi.acked]
  case pending =>
    intro conn
    rw [has_update rfl, hi.pending]
    by_cases hc : conn = s.next
    · simp [hc, hold]
    · simp [hc]
  case pendingNodup => exact hi.pendingNodup
  case waits =>
    intro conn hc
    have h := hi.waits conn hc
    rw [has_update rfl, if_neg (hi.lt_next h).ne]
    exact h
  case waitsNodup => exact hi.waitsNodup
  case closing =>
    intro conn h
    rw [has_update rfl] at h ⊢
    by_cases hc : conn = s.next
    · simp [hc] at h
    · rw [if_neg hc] at h ⊢
      exact hi.closing conn h
  case acceptedOld =>
    intro x hx
    rcases List.mem_append.mp hx with hx | hx
    · exact (hi.acceptedOld x hx).trans (Nat.lt_succ_self _)
    · rw [List.mem_singleton.mp hx]
      exact Nat.lt_succ_self _
  case ackedOld => exact fun conn hc => (hi.ackedOld conn hc).trans (Nat.lt_succ_self _)
  case released => exact hi.released
  case buffers =>
    have hmem : bufIdx ∈ s.bufFreeStack := hfree ▸ List.mem_cons_self
    have hsub : ∀ idx ∈ rest, idx ∈ s.bufFreeStack := fun idx h =>
      hfree ▸ List.mem_cons_of_mem _ h
    constructor
    case nodup => exact hnotin.2
    case small => exact fun idx h => hi.buffers.small idx (hsub idx h)
    case used =>
      intro conn idx h
      rw [has_update rfl] at h
      split at h
      · subst h
        exact ⟨hnotin.1, hi.buffers.small _ hmem⟩
      · obtain ⟨hno, hlt⟩ := hi.buffers.used conn idx h
        exact ⟨fun hin => hno (hsub idx hin), hlt⟩
    case own =>
      -- the buffer of the new connection was free, so no other connection has it
      have hother : ∀ c, ¬ s.Has c (·.bufIdx = bufIdx) := fun c h =>
        (hi.buffers.used c bufIdx h).1 hmem
      intro conn conn' idx h h'
      rw [has_update rfl] at h h'
      split at h <;> split at h'
      · simp_all
      · subst h
        exact absurd h' (hother _)
      · subst h'
        exact absurd h (hother _)
      · exact hi.buffers.own conn conn' idx h h'

/-! ### A connection is received from -/

/-- What the table and the close protocol read of a context. -/
structure SameConn (ctx ctx' : ConnContext) : Prop where
  fd : ctx'.fd = ctx.fd
  bufIdx : ctx'.bufIdx = ctx.bufIdx
  closing : ctx'.closing = ctx.closing
  closeAcked : ctx'.closeAcked = ctx.closeAcked

theorem SameConn.trans {ctx ctx' ctx'' : ConnContext} (h : SameConn ctx ctx')
    (h' : SameConn ctx' ctx'') : SameConn ctx ctx'' :=
  ⟨h'.fd.trans h.fd, h'.bufIdx.trans h.bufIdx, h'.closing.trans h.closing,
    h'.closeAcked.trans h.closeAcked⟩

theorem sameConn_compact (ctx : ConnContext) : SameConn ctx ctx.compact := by
  rw [ConnContext.compact]
  split <;> exact ⟨rfl, rfl, rfl, rfl⟩

theorem sameConn_drainLoop {fuel p avail : Nat} {srv srv' : σ} {ctx ctx' : ConnContext}
    {os : List ω}
    (h : ConnContext.drainLoop process fuel srv ctx p avail = some (srv', ctx', os)) :
    SameConn ctx ctx' := by
  induction fuel generalizing srv ctx p avail os with
  | zero => cases h
  | succ fuel ih =>
      rw [ConnContext.drainLoop] at h
      split at h
      · cases h
        exact ⟨rfl, rfl, rfl, rfl⟩
      · dsimp only at h
        split at h
        · obtain ⟨hfd, hbuf, hclosing, hacked⟩ := ih h
          exact ⟨hfd, hbuf, hclosing, hacked⟩
        · split at h
          · cases h
            exact ⟨rfl, rfl, rfl, rfl⟩
          · simp only [Option.bind_eq_bind, Option.bind_eq_some_iff, pure, Option.some.injEq,
              Prod.exists, Prod.mk.injEq] at h
            obtain ⟨_, _, -, _, _, _, hrest, rfl, rfl, -⟩ := h
            obtain ⟨hfd, hbuf, hclosing, hacked⟩ := ih hrest
            exact ⟨hfd, hbuf, hclosing, hacked⟩

theorem sameConn_receive {srv srv' : σ} {ctx ctx' : ConnContext} {bytes : List UInt8}
    {os : List ω} (h : ConnContext.receive process srv ctx bytes = some (srv', ctx', os)) :
    SameConn ctx ctx' := by
  simp only [ConnContext.receive, ConnContext.drainBuffered, Option.bind_eq_bind,
    Option.bind_eq_some_iff, pure, Option.some.injEq, Prod.exists, Prod.mk.injEq] at h
  obtain ⟨_, _, _, hloop, -, rfl, -⟩ := h
  obtain ⟨hfd, hbuf, hclosing, hacked⟩ := (sameConn_drainLoop hloop).trans (sameConn_compact _)
  exact ⟨hfd, hbuf, hclosing, hacked⟩

/-- Bytes are received. -/
theorem Inv.store_same (hi : Inv acc ack rel pend s) {ctx' : ConnContext} {server : σ}
    (hctx : s.contexts conn = some ctx) (hsame : SameConn ctx ctx') :
    Inv acc ack rel pend ({ s with server := server }.store conn ctx') := by
  refine hi.congr rfl rfl rfl rfl fun c p => has_keep rfl hctx ?_
  rw [hsame.fd, hsame.bufIdx, hsame.closing, hsame.closeAcked]

theorem Inv.closeConnection (hi : Inv acc ack rel pend s) (hctx : s.contexts conn = some ctx)
    (hopen : ctx.closing = false) (pushed : Bool) :
    Inv acc ack rel (pend ++ [conn]) (s.closeConnection conn ctx pushed) := by
  have hnotAcked : ctx.closeAcked = false := by
    cases hacked : ctx.closeAcked with
    | false => rfl
    | true =>
        have := (has_iff hctx).mp (hi.closing conn ((has_iff hctx).mpr hacked))
        rw [hopen] at this
        cases this
  -- only `closing` changes
  have hup : (s.closeConnection conn ctx pushed).contexts = Function.update s.contexts conn
      (some { ctx with closing := true, closeAcked := false }) := rfl
  have hacked : ∀ c, (s.closeConnection conn ctx pushed).Has c (·.closeAcked = true) ↔
      s.Has c (·.closeAcked = true) := fun c => has_keep hup hctx (by simp [hnotAcked])
  have hpend : conn ∉ pend := by
    rw [hi.pending, has_iff hctx, hopen]
    exact Bool.false_ne_true
  have hunacked : (s.closeConnection conn ctx pushed).unacked
      = s.unacked ++ if pushed then [conn] else [] := by
    cases pushed <;> simp [unacked, ConnTable.closeConnection, store]
  constructor
  case table => exact fun fd c => (hi.table fd c).trans (has_keep hup hctx .rfl).symm
  case accepted => exact fun c fd => (hi.accepted c fd).trans (has_keep hup hctx .rfl).symm
  case acked => exact fun c => (hi.acked c).trans (hacked c).symm
  case pending =>
    intro c
    rw [has_update hup, List.mem_append, List.mem_singleton, hi.pending]
    by_cases hc : c = conn
    · simp [hc]
    · simp [hc]
  case pendingNodup =>
    rw [List.nodup_append]
    refine ⟨hi.pendingNodup, List.nodup_singleton _, ?_⟩
    intro c hc d hd hcd
    rw [List.mem_singleton] at hd
    exact hpend (hd ▸ hcd ▸ hc)
  case waits =>
    intro c hc
    rw [hunacked, List.mem_append] at hc
    rw [has_update hup]
    by_cases heq : c = conn
    · simp [heq]
    · rw [if_neg heq]
      rcases hc with hc | hc
      · exact hi.waits c hc
      · cases pushed <;> simp_all
  case waitsNodup =>
    have hno : conn ∉ s.unacked := fun h => by
      have := (has_iff hctx).mp (hi.waits conn h)
      rw [hopen] at this
      cases this.1
    rw [hunacked]
    cases pushed with
    | false => simpa using hi.waitsNodup
    | true =>
        rw [if_pos rfl, List.nodup_append]
        refine ⟨hi.waitsNodup, List.nodup_singleton _, ?_⟩
        intro c hc d hd hcd
        rw [List.mem_singleton] at hd
        exact hno (hd ▸ hcd ▸ hc)
  case closing =>
    intro c h
    have h' := (hacked c).mp h
    rw [has_update hup]
    split
    · rfl
    · exact hi.closing c h'
  case acceptedOld => exact hi.acceptedOld
  case ackedOld => exact hi.ackedOld
  case released => exact hi.released
  case buffers => exact hi.buffers.congr rfl fun c idx => has_keep hup hctx .rfl

/-! ### The Send thread -/

/-- The acknowledgement is stored. -/
theorem Inv.sendAck (hi : Inv acc ack rel pend s) (hacking : s.acking = some conn)
    (hctx : s.contexts conn = some ctx) :
    Inv acc (ack ++ [conn]) rel pend
      { s.store conn { ctx with closeAcked := true } with acking := none } := by
  have hmem : conn ∈ s.unacked := by simp [unacked, hacking]
  obtain ⟨hclosing, hnotAcked⟩ := (has_iff hctx).mp (hi.waits conn hmem)
  have hunacked : s.unacked = conn :: s.ring.map Prod.snd := by simp [unacked, hacking]
  have hnodup := List.nodup_cons.mp (hunacked ▸ hi.waitsNodup)
  have hup : ({ s.store conn { ctx with closeAcked := true } with acking := none } :
      ConnTable σ).contexts = Function.update s.contexts conn
        (some { ctx with closeAcked := true }) := rfl
  have hlive : conn ∉ rel := ((hi.accepted conn ctx.fd).mpr ⟨ctx, hctx, rfl⟩).2
  constructor
  case table => exact fun fd c => (hi.table fd c).trans (has_keep hup hctx .rfl).symm
  case accepted => exact fun c fd => (hi.accepted c fd).trans (has_keep hup hctx .rfl).symm
  case acked =>
    intro c
    rw [has_update hup, List.mem_append, List.mem_singleton]
    by_cases hc : c = conn
    · simp [hc, hlive]
    · simp [hc, hi.acked]
  case pending => exact fun c => (hi.pending c).trans (has_keep hup hctx .rfl).symm
  case pendingNodup => exact hi.pendingNodup
  case waits =>
    intro c hc
    replace hc : c ∈ s.ring.map Prod.snd := by simpa [unacked, store] using hc
    have hne : c ≠ conn := fun heq => hnodup.1 (heq ▸ hc)
    rw [has_update hup, if_neg hne]
    exact hi.waits c (hunacked ▸ List.mem_cons_of_mem _ hc)
  case waitsNodup => exact hnodup.2
  case closing =>
    intro c h
    refine (has_keep hup hctx .rfl).mpr ?_
    rw [has_update hup] at h
    split at h
    · subst c
      exact (has_iff hctx).mpr hclosing
    · exact hi.closing c h
  case acceptedOld => exact hi.acceptedOld
  case ackedOld =>
    intro c hc
    rcases List.mem_append.mp hc with hc | hc
    · exact hi.ackedOld c hc
    · rw [List.mem_singleton.mp hc]
      exact hi.lt_next ⟨ctx, hctx, rfl⟩
  case released => exact fun c hc => List.mem_append_left _ (hi.released c hc)
  case buffers => exact hi.buffers.congr rfl fun c idx => has_keep hup hctx .rfl

/-! ### The release -/

/-- A buffer that is used is not on the stack, so there is room for it. -/
theorem Buffers.freeBuffer (hb : s.Buffers) (hctx : s.contexts conn = some ctx) :
    (s.freeBuffer ctx.bufIdx).bufFreeStack = ctx.bufIdx :: s.bufFreeStack := by
  obtain ⟨hno, hlt⟩ := hb.used conn ctx.bufIdx ⟨ctx, hctx, rfl⟩
  have hnodup : ((ctx.bufIdx :: s.bufFreeStack).map UInt32.toNat).Nodup :=
    (List.nodup_cons.mpr ⟨hno, hb.nodup⟩).map fun a b h => UInt32.toNat_inj.mp h
  have hsub : (ctx.bufIdx :: s.bufFreeStack).map UInt32.toNat ⊆ List.range maxBuffers := by
    intro n hn
    obtain ⟨idx, hidx, rfl⟩ := List.mem_map.mp hn
    rw [List.mem_range]
    rcases List.mem_cons.mp hidx with rfl | hidx
    · exact hlt
    · exact hb.small idx hidx
  have hlen := (hnodup.subperm hsub).length_le
  rw [List.length_map, List.length_cons, List.length_range] at hlen
  rw [ConnTable.freeBuffer, if_pos (by omega)]

theorem release_contexts : (s.release conn ctx).contexts = Function.update s.contexts conn none :=
  rfl

theorem release_conns : (s.release conn ctx).conns = Function.update s.conns ctx.fd none := rfl

theorem release_next : (s.release conn ctx).next = s.next := by
  simp only [release, ConnTable.freeBuffer]
  split <;> rfl

theorem release_unacked : (s.release conn ctx).unacked = s.unacked := by
  simp only [unacked, release, ConnTable.freeBuffer]
  split <;> rfl

theorem release_bufFreeStack (hb : s.Buffers) (hctx : s.contexts conn = some ctx) :
    (s.release conn ctx).bufFreeStack = ctx.bufIdx :: s.bufFreeStack := hb.freeBuffer hctx

/-- A connection is released. -/
theorem Inv.release {pre post : List Nat} (hi : Inv acc ack rel (pre ++ conn :: post) s)
    (hctx : s.contexts conn = some ctx) (hacked : ctx.closeAcked = true) :
    Inv acc ack (rel ++ [conn]) (pre ++ post) (s.release conn ctx) := by
  have hhas : ∀ c (p : ConnContext → Prop), (s.release conn ctx).Has c p ↔ c ≠ conn ∧ s.Has c p :=
    fun c p => has_delete rfl
  have hmem : ∀ c, c ∉ rel ++ [conn] ↔ c ≠ conn ∧ c ∉ rel := fun c => by simp [and_comm]
  have hpre : (conn :: (pre ++ post)).Nodup :=
    (List.perm_middle.nodup_iff).mp hi.pendingNodup
  have hfree := release_bufFreeStack hi.buffers hctx
  constructor
  case table =>
    intro fd c
    rw [hhas, release_conns, ← hi.table]
    by_cases hfd : fd = ctx.fd
    · -- the entry under this number is that of `conn` itself
      subst hfd
      have hself : s.conns ctx.fd = some conn := (hi.table _ _).mpr ⟨ctx, hctx, rfl⟩
      simp [hself, eq_comm]
    · rw [Function.update_of_ne hfd]
      refine ⟨fun h => ⟨?_, h⟩, fun h => h.2⟩
      rintro rfl
      exact hfd (((has_iff hctx).mp ((hi.table fd c).mp h)).symm)
  case accepted =>
    intro c fd
    rw [hhas, hmem, ← hi.accepted]
    tauto
  case acked =>
    intro c
    rw [hhas, hmem, ← hi.acked]
    tauto
  case pending =>
    intro c
    rw [hhas, ← hi.pending, List.mem_append, List.mem_append, List.mem_cons]
    have hno := (List.nodup_cons.mp hpre).1
    rw [List.mem_append] at hno
    by_cases hc : c = conn
    · subst hc
      simpa using hno
    · simp [hc]
  case pendingNodup => exact (List.nodup_cons.mp hpre).2
  case waits =>
    intro c hc
    rw [release_unacked] at hc
    have h := hi.waits c hc
    refine (hhas c _).mpr ⟨?_, h⟩
    rintro rfl
    have := ((has_iff hctx).mp h).2
    rw [hacked] at this
    cases this
  case waitsNodup => exact release_unacked (s := s) ▸ hi.waitsNodup
  case closing =>
    intro c h
    obtain ⟨hne, h⟩ := (hhas c _).mp h
    exact (hhas c _).mpr ⟨hne, hi.closing c h⟩
  case acceptedOld => exact release_next (s := s) ▸ hi.acceptedOld
  case ackedOld => exact release_next (s := s) ▸ hi.ackedOld
  case released =>
    intro c hc
    rcases List.mem_append.mp hc with hc | hc
    · exact hi.released c hc
    · rw [List.mem_singleton.mp hc]
      exact ((hi.acked conn).mpr ⟨ctx, hctx, hacked⟩).1
  case buffers =>
    obtain ⟨hno, hlt⟩ := hi.buffers.used conn ctx.bufIdx ⟨ctx, hctx, rfl⟩
    constructor
    case nodup =>
      rw [hfree]
      exact List.nodup_cons.mpr ⟨hno, hi.buffers.nodup⟩
    case small =>
      rw [hfree]
      intro idx hidx
      rcases List.mem_cons.mp hidx with rfl | hidx
      · exact hlt
      · exact hi.buffers.small idx hidx
    case used =>
      intro c idx h
      obtain ⟨hne, h⟩ := (hhas c _).mp h
      obtain ⟨hno', hlt'⟩ := hi.buffers.used c idx h
      refine ⟨?_, hlt'⟩
      rw [hfree, List.mem_cons, not_or]
      refine ⟨?_, hno'⟩
      rintro rfl
      exact hne (hi.buffers.own c conn _ h ⟨ctx, hctx, rfl⟩)
    case own =>
      exact fun c c' idx h h' => hi.buffers.own c c' idx ((hhas c _).mp h).2 ((hhas c' _).mp h').2

/-- The buffers of these connections. -/
def bufs (s : ConnTable σ) (conns : List Nat) : List UInt32 :=
  conns.filterMap fun c => (s.contexts c).map (·.bufIdx)

/-- The loop of `drainPendingClose`. -/
theorem Inv.drainLoop (pre : List Nat) {conns : List Nat}
    (hi : Inv acc ack rel (pre ++ conns) s) :
    ∃ s' kept released, s.drainLoop conns = some (s', kept, released) ∧
      Inv acc ack (rel ++ released) (pre ++ kept) s' ∧
      (∀ c, c ∈ released ↔ c ∈ conns ∧ s.Has c (·.closeAcked = true)) ∧ released.Sublist conns ∧
      s'.bufFreeStack = (s.bufs released).reverse ++ s.bufFreeStack := by
  induction conns generalizing s pre rel with
  | nil => exact ⟨s, [], [], rfl, by simpa using hi, by simp, List.Sublist.refl _, rfl⟩
  | cons conn conns ih =>
      obtain ⟨ctx, hctx, -⟩ := (hi.pending conn).mp (by simp)
      have hnotin : conn ∉ conns :=
        (List.nodup_cons.mp (List.nodup_append.mp hi.pendingNodup).2.1).1
      cases hacked : ctx.closeAcked with
      | true =>
          obtain ⟨s', kept, released, hloop, hi', hmem, hsub, hfree⟩ :=
            ih pre (hi.release hctx hacked)
          have hother : ∀ c ∈ conns, c ≠ conn := fun c hc heq => hnotin (heq ▸ hc)
          refine ⟨s', kept, conn :: released, ?_, by simpa using hi', ?_, hsub.cons_cons _, ?_⟩
          · simp [ConnTable.drainLoop, hctx, hacked, hloop]
          · intro c
            rw [List.mem_cons, List.mem_cons, hmem, has_delete rfl]
            by_cases hc : c = conn
            · simp [hc, has_iff hctx, hacked]
            · simp [hc]
          · rw [hfree, release_bufFreeStack hi.buffers hctx]
            have hbufs : (s.release conn ctx).bufs released = s.bufs released := by
              refine List.filterMap_congr fun c hc => ?_
              rw [release_contexts, Function.update_of_ne (hother c (hsub.mem hc))]
            rw [hbufs]
            simp [bufs, hctx]
      | false =>
          have hi' : Inv acc ack rel ((pre ++ [conn]) ++ conns) s := by simpa using hi
          obtain ⟨s', kept, released, hloop, hi', hmem, hsub, hfree⟩ := ih (pre ++ [conn]) hi'
          refine ⟨s', conn :: kept, released, ?_, by simpa using hi', ?_, hsub.cons _, hfree⟩
          · simp [ConnTable.drainLoop, hctx, hacked, hloop]
          · intro c
            rw [hmem, List.mem_cons]
            by_cases hc : c = conn
            · simp [hc, has_iff hctx, hacked]
            · simp [hc]

/-! ### Runs -/

/-- What a completion of `recv` does: nothing, or it closes the connection, or bytes come. -/
theorem recvCqe_cases {fd : Nat} {res : Except Nat (List UInt8)} {pushed : Bool} {o : ConnEvent}
    (hstep : s.recvCqe process fd res pushed = some (s', o)) :
    (s' = s ∨ ∃ conn ctx, s.contexts conn = some ctx ∧ ctx.closing = false ∧
      (s' = s.closeConnection conn ctx pushed ∨
        ∃ server ctx', SameConn ctx ctx' ∧ s' = { s with server := server }.store conn ctx')) ∧
      ∃ n, o = .ignored n ∨ o = .received n := by
  rw [ConnTable.recvCqe] at hstep
  split at hstep
  · cases hstep
    exact ⟨Or.inl rfl, fd, Or.inl rfl⟩
  · rename_i conn _
    obtain ⟨ctx, hctx, hstep⟩ := Option.bind_eq_some_iff.mp hstep
    split at hstep
    · cases hstep
      exact ⟨Or.inl rfl, fd, Or.inl rfl⟩
    · rename_i hopen
      rw [onRecvCqe] at hstep
      split at hstep
      · cases hstep
        exact ⟨Or.inl rfl, conn, Or.inr rfl⟩
      · obtain ⟨s₁, hrecv, heq⟩ := Option.map_eq_some_iff.mp hstep
        cases heq
        refine ⟨Or.inr ⟨conn, ctx, hctx, by simpa using hopen, ?_⟩, conn, Or.inr rfl⟩
        unfold onRecv at hrecv
        split at hrecv
        · exact Or.inl (Option.some.inj hrecv).symm
        · exact Or.inl (Option.some.inj hrecv).symm
        · obtain ⟨⟨srv, ctx', os⟩, hreceive, hrecv⟩ := Option.bind_eq_some_iff.mp hrecv
          exact Or.inr ⟨srv, ctx', sameConn_receive hreceive, (Option.some.inj hrecv).symm⟩

section
variable {h : List (ConnInput × ConnEvent)} {i : ConnInput} {o : ConnEvent}

/-- An event that is not a step of the life of a connection. -/
theorem Inv.quiet (hi : Inv (accepts h) (acks h) (releases h) s'.pendingCloses s')
    (ho : accepts [(i, o)] = [] ∧ acks [(i, o)] = [] ∧ releases [(i, o)] = []) :
    Inv (accepts (h ++ [(i, o)])) (acks (h ++ [(i, o)])) (releases (h ++ [(i, o)]))
      s'.pendingCloses s' := by
  have haccepts : accepts (h ++ [(i, o)]) = accepts h ++ accepts [(i, o)] :=
    List.filterMap_append
  have hacks : acks (h ++ [(i, o)]) = acks h ++ acks [(i, o)] := List.filterMap_append
  have hreleases : releases (h ++ [(i, o)]) = releases h ++ releases [(i, o)] :=
    List.flatMap_append
  rw [haccepts, hacks, hreleases, ho.1, ho.2.1, ho.2.2, List.append_nil, List.append_nil,
    List.append_nil]
  exact hi

theorem Inv.step (hi : Inv (accepts h) (acks h) (releases h) s.pendingCloses s)
    (hreuse : s.ReusesNone i) (hstep : s.step process i = some (s', o)) :
    Inv (accepts (h ++ [(i, o)])) (acks (h ++ [(i, o)])) (releases (h ++ [(i, o)]))
      s'.pendingCloses s' := by
  cases i with
  | arrive fd =>
      simp only [ConnTable.step] at hstep
      split at hstep
      · obtain ⟨rfl, rfl⟩ := Prod.mk.inj (Option.some.inj hstep)
        refine Inv.quiet ?_ ⟨rfl, rfl, rfl⟩
        exact hi.congr rfl rfl rfl rfl fun _ _ => Iff.rfl
      · cases hstep
  | accept =>
      obtain ⟨fd, hfd, hstep⟩ := Option.map_eq_some_iff.mp hstep
      have hi' : Inv (accepts h) (acks h) (releases h) s.pendingCloses
          { s with completed := none } := hi.congr rfl rfl rfl rfl fun _ _ => Iff.rfl
      cases hfree : s.bufFreeStack with
      | nil =>
          rw [onAccept_nil (s := { s with completed := none }) hfree] at hstep
          obtain ⟨rfl, rfl⟩ := Prod.mk.inj hstep
          refine Inv.quiet ?_ ⟨rfl, rfl, rfl⟩
          exact hi.congr rfl rfl rfl rfl fun _ _ => Iff.rfl
      | cons bufIdx rest =>
          have hacc := hi'.onAccept hfree (hreuse fd hfd)
          rw [onAccept_cons (s := { s with completed := none }) hfree] at hstep hacc
          obtain ⟨rfl, rfl⟩ := Prod.mk.inj hstep
          simpa [accepts, acks, releases] using hacc
  | recv fd res pushed =>
      obtain ⟨hcases, n, ho⟩ := recvCqe_cases hstep
      refine Inv.quiet ?_ (by rcases ho with rfl | rfl <;> exact ⟨rfl, rfl, rfl⟩)
      rcases hcases with rfl | ⟨conn, ctx, hctx, hopen, rfl | ⟨server, ctx', hsame, rfl⟩⟩
      · exact hi
      · exact hi.closeConnection hctx hopen pushed
      · exact hi.store_same hctx hsame
  | drain =>
      obtain ⟨s₁, kept, released, hloop, hi', -⟩ := Inv.drainLoop [] hi
      simp only [ConnTable.step, drainPendingClose, hloop, Option.bind_eq_bind, Option.bind_some,
        pure, Option.some.injEq] at hstep
      obtain ⟨rfl, rfl⟩ := Prod.mk.inj hstep
      have hi'' : Inv (accepts h) (acks h) (releases h ++ released) kept
          { s₁ with pendingCloses := kept } := hi'.congr rfl rfl rfl rfl fun _ _ => Iff.rfl
      simpa [accepts, acks, releases] using hi''
  | sendClose =>
      simp only [ConnTable.step] at hstep
      split at hstep
      · rename_i fd conn ring hacking hring
        obtain ⟨rfl, rfl⟩ := Prod.mk.inj (Option.some.inj hstep)
        refine Inv.quiet ?_ ⟨rfl, rfl, rfl⟩
        refine hi.congr rfl rfl rfl ?_ fun _ _ => Iff.rfl
        simp [unacked, hacking, hring]
      · cases hstep
  | sendAck =>
      simp only [ConnTable.step] at hstep
      split at hstep
      · cases hstep
      · rename_i conn hacking
        obtain ⟨ctx, hctx, heq⟩ := Option.map_eq_some_iff.mp hstep
        obtain ⟨rfl, rfl⟩ := Prod.mk.inj heq
        simpa [accepts, acks, releases, store] using hi.sendAck hacking hctx

/-! ### The Send thread closes before it acknowledges -/

theorem release_acking {conn : Nat} {ctx : ConnContext} :
    (s.release conn ctx).acking = s.acking := by
  simp only [release, ConnTable.freeBuffer]
  split <;> rfl

theorem drainLoop_acking {conns kept released : List Nat}
    (hloop : s.drainLoop conns = some (s', kept, released)) : s'.acking = s.acking := by
  induction conns generalizing s kept released with
  | nil =>
      cases hloop
      rfl
  | cons conn conns ih =>
      obtain ⟨ctx, -, hloop⟩ := Option.bind_eq_some_iff.mp hloop
      split at hloop
      · obtain ⟨⟨s₁, kept₁, released₁⟩, hrest, heq⟩ := Option.bind_eq_some_iff.mp hloop
        cases heq
        exact (ih hrest).trans release_acking
      · obtain ⟨⟨s₁, kept₁, released₁⟩, hrest, heq⟩ := Option.bind_eq_some_iff.mp hloop
        cases heq
        exact ih hrest

/-- What a step does to the close the Send thread is at. -/
theorem step_acking (hstep : s.step process i = some (s', o)) :
    (s'.acking = s.acking ∧ acks [(i, o)] = []) ∨
      (∃ conn, s'.acking = some conn ∧ o = .closed conn) ∨
      ∃ conn, s.acking = some conn ∧ s'.acking = none ∧ o = .acked conn := by
  cases i with
  | arrive fd =>
      simp only [ConnTable.step] at hstep
      split at hstep
      · cases hstep
        exact Or.inl ⟨rfl, rfl⟩
      · cases hstep
  | accept =>
      obtain ⟨fd, -, hstep⟩ := Option.map_eq_some_iff.mp hstep
      unfold ConnTable.onAccept at hstep
      split at hstep
      · cases hstep
        exact Or.inl ⟨rfl, rfl⟩
      · cases hstep
        exact Or.inl ⟨rfl, rfl⟩
  | recv fd res pushed =>
      obtain ⟨hcases, n, ho⟩ := recvCqe_cases hstep
      refine Or.inl ⟨?_, by rcases ho with rfl | rfl <;> rfl⟩
      rcases hcases with rfl | ⟨conn, ctx, -, -, rfl | ⟨server, ctx', -, rfl⟩⟩
      · rfl
      · rfl
      · rfl
  | drain =>
      obtain ⟨⟨s₁, kept, released⟩, hloop, heq⟩ := Option.bind_eq_some_iff.mp hstep
      cases heq
      have hsame : s₁.acking = s.acking := drainLoop_acking hloop
      exact Or.inl ⟨hsame, rfl⟩
  | sendClose =>
      simp only [ConnTable.step] at hstep
      split at hstep
      · cases hstep
        exact Or.inr (Or.inl ⟨_, rfl, rfl⟩)
      · cases hstep
  | sendAck =>
      simp only [ConnTable.step] at hstep
      split at hstep
      · cases hstep
      · rename_i conn hacking
        obtain ⟨ctx, -, heq⟩ := Option.map_eq_some_iff.mp hstep
        cases heq
        exact Or.inr (Or.inr ⟨conn, hacking, rfl, rfl⟩)

theorem closes_of_acks {s₀ : ConnTable σ}
    {P : List (ConnInput × ConnEvent) → ConnTable σ → ConnInput → Prop}
    (hstart : s₀.acking = none) (t : Trace (ConnTable.step process) P s₀ h s) :
    (∀ conn ∈ acks h, conn ∈ closes h) ∧ ∀ conn, s.acking = some conn → conn ∈ closes h := by
  induction t with
  | nil =>
      refine ⟨nofun, fun conn hc => ?_⟩
      rw [hstart] at hc
      cases hc
  | @snoc h s s' i o t hp hstep ih =>
      have hacks : acks (h ++ [(i, o)]) = acks h ++ acks [(i, o)] := List.filterMap_append
      have hcloses : closes (h ++ [(i, o)]) = closes h ++ closes [(i, o)] := List.filterMap_append
      rw [hacks, hcloses]
      rcases step_acking hstep with
        ⟨hsame, hno⟩ | ⟨conn, hacking, rfl⟩ | ⟨conn, hacking, hnone, rfl⟩
      · rw [hno, hsame, List.append_nil]
        exact ⟨fun c hc => List.mem_append_left _ (ih.1 c hc),
          fun c hc => List.mem_append_left _ (ih.2 c hc)⟩
      · refine ⟨fun c hc => List.mem_append_left _ (ih.1 c (by simpa [acks] using hc)), ?_⟩
        intro c hc
        rw [hacking] at hc
        cases hc
        exact List.mem_append_right _ List.mem_cons_self
      · refine ⟨?_, fun c hc => by rw [hnone] at hc; cases hc⟩
        intro c hc
        rcases List.mem_append.mp hc with hc | hc
        · exact List.mem_append_left _ (ih.1 c hc)
        · obtain rfl : c = conn := List.mem_singleton.mp hc
          exact List.mem_append_left _ (ih.2 c hacking)

end

end

/-- A connection is in the table under its number, and its completions come to it. -/
def Registered (process : σ → List UInt8 → Option (σ × ω)) (s : ConnTable σ) (conn fd : Nat) :
    Prop :=
  s.conns fd = some conn ∧ ∃ ctx, s.contexts conn = some ctx ∧ ctx.fd = fd ∧
    (ctx.closing = false → ∀ res pushed,
      s.step process (.recv fd res pushed) = s.onRecvCqe process conn ctx res pushed)

/-- **Connections keep their entries.** In every run in which no connection gets a descriptor that
is still in the table, every connection that was accepted and whose descriptor is not closed is in
the table, and `drainPendingClose` takes out the entries and gives back the buffers of exactly the
connections whose close was acknowledged since its last call. -/
theorem connections_stay_registered {server : σ} {opened : Nat → Bool}
    {h : List (ConnInput × ConnEvent)}
    (t : Trace (step process) (fun _ s i => s.ReusesNone i) (init server opened) h s) :
    (∀ conn fd, (conn, fd) ∈ accepts h → conn ∉ closes h → s.Registered process conn fd) ∧
    ∃ s' conns, s.step process .drain = some (s', .released conns) ∧ conns.Nodup ∧
      (∀ conn, conn ∈ conns ↔ conn ∈ acks h ∧ conn ∉ releases h) ∧
      (∀ fd conn, s'.conns fd = some conn ↔ s.conns fd = some conn ∧ conn ∉ conns) ∧
      s'.bufFreeStack = (s.bufs conns).reverse ++ s.bufFreeStack := by
  have hi : Inv (accepts h) (acks h) (releases h) s.pendingCloses s := by
    refine Trace.invariant
      (fun h (s : ConnTable σ) => Inv (accepts h) (acks h) (releases h) s.pendingCloses s)
      ?_ ?_ t
    · exact Inv.init server opened
    intro h s i s' o _ hi hreuse hstep
    exact hi.step hreuse hstep
  constructor
  · intro conn fd hacc hclosed
    have hnotRel : conn ∉ releases h := fun hrel =>
      hclosed ((closes_of_acks rfl t).1 conn (hi.released conn hrel))
    obtain ⟨ctx, hctx, hfd⟩ := (hi.accepted conn fd).mp ⟨hacc, hnotRel⟩
    have hconns : s.conns fd = some conn := (hi.table fd conn).mpr ⟨ctx, hctx, hfd⟩
    refine ⟨hconns, ctx, hctx, hfd, fun hopen res pushed => ?_⟩
    simp [step, recvCqe, hconns, hctx, hopen]
  · obtain ⟨s₁, kept, released, hloop, hi', hmem, hsub, hfree⟩ := Inv.drainLoop [] hi
    refine ⟨{ s₁ with pendingCloses := kept }, released, ?_, hi.pendingNodup.sublist hsub, ?_, ?_,
      hfree⟩
    · simp [step, drainPendingClose, hloop]
    · intro conn
      rw [hmem, hi.acked]
      exact ⟨fun hc => hc.2, fun hc => ⟨(hi.pending conn).mpr (hi.closing conn hc), hc⟩⟩
    · intro fd conn
      change s₁.conns fd = some conn ↔ _
      rw [hi'.table, hi.table, ← hi'.accepted, ← hi.accepted, List.mem_append]
      tauto

/-- Two connections, and the first one is closed. -/
theorem connections_stay_registered_two :
    ∃ (server : TcpServer) (h : List (ConnInput × ConnEvent)) (s : ConnTable TcpServer),
      Trace (step TcpServer.processItchMessage) (fun _ s i => s.ReusesNone i)
        (init server fun _ => false) h s ∧ accepts h = [(0, 5), (1, 6)] ∧ acks h = [0] ∧
      (∀ conn fd, (conn, fd) ∈ accepts h → conn ∉ closes h →
        s.Registered TcpServer.processItchMessage conn fd) ∧
      ∃ s' conns, s.step TcpServer.processItchMessage .drain = some (s', .released conns) ∧
        conns.Nodup ∧ (∀ conn, conn ∈ conns ↔ conn ∈ acks h ∧ conn ∉ releases h) ∧
        (∀ fd conn, s'.conns fd = some conn ↔ s.conns fd = some conn ∧ conn ∉ conns) ∧
        s'.bufFreeStack = (s.bufs conns).reverse ++ s.bufFreeStack := by
  obtain ⟨engine, -⟩ : ∃ e, MatchingEngine.ofCapacity 4 none none none = some e :=
    Option.isSome_iff_exists.mp (by decide +kernel)
  have t₁ : Trace (step TcpServer.processItchMessage) (fun _ s i => s.ReusesNone i)
      (init ⟨engine, {}⟩ fun _ => false) _ _ :=
    Trace.nil.snoc (show ReusesNone _ (.arrive 5) from trivial) rfl
  have t₂ := t₁.snoc (show ReusesNone _ .accept from fun fd hfd => rfl) rfl
  have t₃ := t₂.snoc (show ReusesNone _ (.arrive 6) from trivial) rfl
  have t₄ := t₃.snoc (show ReusesNone _ .accept from fun fd hfd => by cases hfd; rfl) rfl
  have t₅ := t₄.snoc (show ReusesNone _ (.recv 5 (.ok []) true) from trivial) rfl
  have t₆ := t₅.snoc (show ReusesNone _ .sendClose from trivial) rfl
  have t₇ := t₆.snoc (show ReusesNone _ .sendAck from trivial) rfl
  exact ⟨_, _, _, t₇, rfl, rfl, connections_stay_registered t₇⟩

/-- A connection gets the number of one that is acknowledged and not yet released. It is open, but
`drainPendingClose` takes out its entry, and what comes for it is ignored. -/
theorem reused_fd_loses_its_entry :
    ∃ (server : TcpServer) (h : List (ConnInput × ConnEvent)) (s : ConnTable TcpServer),
      run (step TcpServer.processItchMessage) (init server fun _ => false) (h.map Prod.fst)
        = some (s, h.map Prod.snd) ∧
      h.map Prod.fst = [.arrive 5, .accept, .drain, .recv 5 (.ok []) true, .drain, .sendClose,
        .sendAck, .arrive 5, .accept, .drain] ∧
      (1, 5) ∈ accepts h ∧ 1 ∉ closes h ∧ s.conns 5 = none ∧
      ∀ res pushed, s.step TcpServer.processItchMessage (.recv 5 res pushed)
        = some (s, .ignored 5) := by
  obtain ⟨engine, -⟩ : ∃ e, MatchingEngine.ofCapacity 4 none none none = some e :=
    Option.isSome_iff_exists.mp (by decide +kernel)
  refine ⟨⟨engine, {}⟩, [(.arrive 5, .silent), (.accept, .accepted 0 5), (.drain, .released []),
    (.recv 5 (.ok []) true, .received 0), (.drain, .released []), (.sendClose, .closed 0),
    (.sendAck, .acked 0), (.arrive 5, .silent), (.accept, .accepted 1 5),
    (.drain, .released [0])], _, rfl, rfl, ?_, ?_, rfl, fun res pushed => rfl⟩
  · decide
  · decide

end NebulaX.ConnTable
