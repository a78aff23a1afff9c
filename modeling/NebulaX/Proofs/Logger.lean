import NebulaX.Proofs.MpscRing
import NebulaX.Server.Logger

/-!
# `NebulaX.Proofs.Logger`: the log file loses nothing

Runs of the logger in which no call of `log` begins once `shutdown` was called, and the slots of the
ring are claimed as the ring needs it (`Orderly`). The invariant has four parts. The ring is as
after the accesses made to it (`MpscRing.Inv`), and the file holds what its consumer saw. On the
side of the calls, the accepted entries are those committed with those still to be committed
(`Producers`). On the side of the readers, the thread that writes sleeps with an entry there only if
a `write` to the eventfd is still to come, and the same holds when it is to stop (`Consumers`).

`log_file_complete` puts them together. That the run ends after `shutdown` is by a measure: every
step that is left lowers `toDo`, and one is enabled until the file is closed.
-/

set_option autoImplicit false

namespace NebulaX

open NebulaX.Lib

/-! ### The ring -/

namespace MpscRing

variable {τ α : Type} {cap : Nat} {s s' : MpscRing τ α} {log seen : List (UInt64 × α)}

/-- The entry the consumer waits for is there. -/
def Ready (cap : Nat) (s : MpscRing τ α) : Prop :=
  (s.slots (readPlace cap s)).seq = s.readCursor

instance (cap : Nat) (s : MpscRing τ α) : Decidable (Ready cap s) :=
  inferInstanceAs (Decidable (_ = _))

/-- It is there exactly if its claim was made and no producer still has it. -/
theorem Inv.ready_iff (hi : Inv cap log seen s) :
    Ready cap s ↔ s.readCursor.toNat ≤ s.claimIdx.toNat ∧
      ∀ t, (s.producers t).idx? ≠ some (s.readCursor - 1) :=
  ⟨hi.of_seq, fun ⟨hle, hno⟩ => (hi.seq_eq hle hno).1⟩

section
variable (l : List (MpscAction τ α × MpscEvent α)) (a : MpscAction τ α) (idx : UInt64) (x : α)

@[simp] theorem commits_silent : commits (l ++ [(a, .silent)]) = commits l := by simp [commits]

@[simp] theorem commits_saw : commits (l ++ [(a, .saw idx x)]) = commits l := by simp [commits]

@[simp] theorem commits_committed :
    commits (l ++ [(a, .committed idx x)]) = commits l ++ [(idx, x)] := by simp [commits]

@[simp] theorem seen_silent : MpscRing.seen (l ++ [(a, .silent)]) = MpscRing.seen l := by
  simp [MpscRing.seen]

@[simp] theorem seen_committed :
    MpscRing.seen (l ++ [(a, .committed idx x)]) = MpscRing.seen l := by
  simp [MpscRing.seen]

@[simp] theorem seen_saw :
    MpscRing.seen (l ++ [(a, .saw idx x)]) = MpscRing.seen l ++ [(idx, x)] := by
  simp [MpscRing.seen]

end

/-- With no producer under way, the consumer that finds nothing has taken all that was committed. -/
theorem Inv.all_seen (hi : Inv cap log seen s) (hidle : ∀ t, s.producers t = .idle)
    (hnone : ¬ Ready cap s) (hc : s.consumer = .idle) :
    (seen.map Prod.snd).Perm (log.map Prod.snd) := by
  have hbehind := hi.claims.behind
  have hcursor : s.readCursor.toNat = s.claimIdx.toNat + 1 := by
    by_contra hne
    refine hnone (hi.ready_iff.mpr ⟨by omega, fun t ht => ?_⟩)
    rw [hidle t] at ht
    cases ht
  have horder := hi.logs.seenOrder
  rw [hc, if_neg (by decide), hcursor, Nat.add_sub_cancel, Nat.add_zero] at horder
  have hnodup : (seen.map Prod.fst).Nodup := by
    refine List.Nodup.of_map UInt64.toNat ?_
    rw [List.map_map]
    exact horder ▸ List.nodup_range
  -- the claims seen are all claims there are, and each was committed once
  have hlen : log.length ≤ seen.length := by
    have hsub : (log.map fun p => p.1.toNat) ⊆ seen.map fun p => p.1.toNat := by
      intro n hn
      obtain ⟨p, hp, rfl⟩ := List.mem_map.mp hn
      rw [horder, List.mem_range]
      exact (hi.logs.finished p hp).1
    have hlog : (log.map fun p => p.1.toNat).Nodup := by
      have := hi.logs.once.map fun a b : UInt64 => UInt64.toNat_inj.mp
      rwa [List.map_map] at this
    have := (List.subperm_of_subset hlog hsub).length_le
    rwa [List.length_map, List.length_map] at this
  have hsub := List.subperm_of_subset (List.Nodup.of_map _ hnodup) hi.logs.seenCommitted
  exact (hsub.perm_of_length_le hlen).map Prod.snd

end MpscRing

/-! ### The logger -/

namespace LogConsumer

/-- Where the thread is with the entry of the ring. -/
def role : LogConsumer → MpscConsumer
  | .first => .popped
  | .more _ => .popped
  | .consume _ => .read
  | _ => .idle

/-- The steps of the thread that are left after `shutdown` was called, those for further entries
apart. -/
def left : LogConsumer → Nat
  | .ended => 0
  | .check => 1
  | .wait => 2
  | .consume _ => 3
  | .first => 4
  | .more _ => 4
  | .next _ => 5
  | .pop => 6

end LogConsumer

namespace LogShutdown

/-- Where the call is with the entry of the ring. -/
def role : LogShutdown → MpscConsumer
  | .write _ => .popped
  | .consume _ => .read
  | _ => .idle

/-- The thread has been joined. -/
def Joined : LogShutdown → Prop
  | .notCalled | .notify | .join => False
  | _ => True

/-- The steps of the call that are left, those for further entries apart. -/
def left : LogShutdown → Nat
  | .closed => 0
  | .consume _ => 2
  | .write _ => 3
  | .pop _ => 4
  | .join => 5
  | .notify => 6
  | .notCalled => 7

end LogShutdown

namespace Logger

open MpscRing (ClaimsFree Ready commits seen readPlace commits_committed commits_saw commits_silent
  seen_committed seen_saw seen_silent)

variable {τ : Type} {cap : Nat} {s s' : Logger τ} {t : τ}
variable {h : List (LogAction τ × LogEvent τ)} {a : LogAction τ} {o : LogEvent τ}

/-- The accesses to the ring. -/
def ringHistory (h : List (LogAction τ × LogEvent τ)) :
    List (MpscAction τ LogEntry × MpscEvent LogEntry) :=
  h.filterMap Prod.snd

/-- The entries of the calls that pass the check of their level. -/
def accepted (threshold : LogLevel) (h : List (LogAction τ × LogEvent τ)) : List LogEntry :=
  h.filterMap fun x => match x.1 with
    | .log _ level text =>
        if level.value ≤ threshold.value then some (logEntry level text) else none
    | _ => none

/-- The entry a call is about to commit. -/
def pending : LogCall → List LogEntry
  | .logging entry => [entry]
  | _ => []

/-- The call and the producer of the ring it goes through. -/
def Matches : LogCall → MpscProducer LogEntry → Prop
  | .logging entry, p => ∀ idx x, p = .written idx x → x = entry
  | _, p => p = .idle

/-- What the threads keep to. No call of `log` begins after `shutdown` was called or is under way
then, and a slot of the ring is claimed only when its earlier claims are marked. -/
def Orderly (cap : Nat) (_ : List (LogAction τ × LogEvent τ)) (s : Logger τ) : LogAction τ → Prop
  | .log .. => s.closer = .notCalled
  | .next t => ∀ entry, s.calls t = .logging entry →
      ClaimsFree cap s.ring (ringAction t entry (s.ring.producers t))
  | .shutdown => ∀ t, s.calls t = .idle
  | _ => True

instance [Fintype τ] (cap : Nat) (h : List (LogAction τ × LogEvent τ)) (s : Logger τ) :
    DecidablePred (Orderly cap h s)
  | .log _ _ _ => inferInstanceAs (Decidable (s.closer = .notCalled))
  | .next t => match hc : s.calls t with
      | .logging entry => decidable_of_iff
          (ClaimsFree cap s.ring (ringAction t entry (s.ring.producers t)))
          ⟨fun hfree _ he => LogCall.logging.inj (hc.symm.trans he) ▸ hfree,
            fun hall => hall entry hc⟩
      | .idle | .notify => .isTrue fun _ he => absurd (hc.symm.trans he) (by simp)
  | .shutdown => inferInstanceAs (Decidable (∀ t, s.calls t = .idle))
  | .consumer _ | .closer _ => .isTrue trivial

/-- The entries `all` are those committed and those that calls are about to commit. -/
def Accounts (calls : τ → LogCall) (committed all : List LogEntry) : Prop :=
  ∃ flight : List τ, flight.Nodup ∧ (∀ t, t ∈ flight ↔ ∃ entry, calls t = .logging entry) ∧
    all.Perm (committed ++ flight.flatMap fun t => pending (calls t))

/-- The calls of `log`. -/
structure Producers (threshold : LogLevel) (h : List (LogAction τ × LogEvent τ)) (s : Logger τ) :
    Prop where
  level : s.threshold = threshold
  calls : ∀ t, Matches (s.calls t) (s.ring.producers t)
  logged : Accounts s.calls ((commits (ringHistory h)).map Prod.snd) (accepted threshold h)

/-- The thread that writes, and `shutdown`. -/
structure Consumers (cap : Nat) (s : Logger τ) : Prop where
  role : s.ring.consumer = if s.consumer = .ended then s.closer.role else s.consumer.role
  joined : s.closer.Joined → s.consumer = .ended
  called : s.stopped = true ↔ s.closer ≠ .notCalled
  quiet : s.closer ≠ .notCalled → ∀ t, s.calls t = .idle
  /-- The thread sleeps with an entry there only if it is going to be woken. -/
  woken : s.consumer = .wait → Ready cap s.ring → 0 < s.wake ∨ ∃ t, s.calls t = .notify
  /-- The same if it is to stop. -/
  stops : s.stopped = true → s.consumer = .pop ∨ s.consumer = .wait →
    0 < s.wake ∨ s.closer = .notify
  drained : s.closer = .closed → ¬ Ready cap s.ring

/-- The logger after the run `h`. -/
structure Inv (cap : Nat) (threshold : LogLevel) (h : List (LogAction τ × LogEvent τ))
    (s : Logger τ) : Prop where
  ring : MpscRing.Inv cap (commits (ringHistory h)) (seen (ringHistory h)) s.ring
  file : s.file.map LogLine.entry = (seen (ringHistory h)).map Prod.snd
  producers : Producers threshold h s
  consumers : Consumers cap s

theorem Inv.start (threshold : LogLevel) :
    Inv cap threshold [] (Logger.start threshold : Logger τ) where
  ring := .init
  file := rfl
  producers :=
    { level := rfl
      calls := fun _ => rfl
      logged := ⟨[], List.nodup_nil, fun t => by simp [Logger.start], List.Perm.refl _⟩ }
  consumers :=
    { role := rfl
      joined := fun hj => hj.elim
      called := by simp [Logger.start]
      quiet := fun hq => absurd rfl hq
      woken := fun hw => nomatch hw
      stops := fun hs => nomatch hs
      drained := fun hd => nomatch hd }

/-! ### Histories -/

theorem ringHistory_none (h : List (LogAction τ × LogEvent τ)) (a : LogAction τ) :
    ringHistory (h ++ [(a, none)]) = ringHistory h := by
  simp [ringHistory]

theorem ringHistory_some (h : List (LogAction τ × LogEvent τ)) (a : LogAction τ)
    (x : MpscAction τ LogEntry × MpscEvent LogEntry) :
    ringHistory (h ++ [(a, some x)]) = ringHistory h ++ [x] := by
  simp [ringHistory]

/-- The action is no call of `log`. -/
def NoCall : LogAction τ → Prop
  | .log .. => False
  | _ => True

theorem accepted_snoc {threshold : LogLevel} (ha : NoCall a) :
    accepted threshold (h ++ [(a, o)]) = accepted threshold h := by
  cases a with
  | log => exact ha.elim
  | _ => simp [accepted]

/-! ### Steps of the calls -/

section
variable {threshold : LogLevel}

/-- While a call of `log` is under way, `shutdown` has not been called. -/
theorem Consumers.open_of_logging {entry : LogEntry} (hcons : Consumers cap s)
    (hc : s.calls t = .logging entry) : s.closer = .notCalled := by
  by_contra hne
  have hidle := hcons.quiet hne t
  rw [hc] at hidle
  cases hidle

/-- A step without an access to the ring. -/
theorem Inv.calm (hi : Inv cap threshold h s) (hring : s'.ring = s.ring) (hfile : s'.file = s.file)
    (hp : Producers threshold (h ++ [(a, none)]) s') (hcons : Consumers cap s') :
    Inv cap threshold (h ++ [(a, none)]) s' := by
  refine ⟨?_, ?_, hp, hcons⟩
  · rw [ringHistory_none, hring]
    exact hi.ring
  · rw [ringHistory_none, hfile]
    exact hi.file

variable [DecidableEq τ]

@[simp] theorem goto_calls (s : Logger τ) (t t' : τ) (c : LogCall) :
    (s.goto t c).calls t' = if t' = t then c else s.calls t' := Function.update_apply ..

/-- A call goes on. The entries that are accepted and committed on the way differ by what it was
about to commit before and is about to commit now. -/
theorem Accounts.goto {c : LogCall} {committed committed' all all' : List LogEntry}
    (hacc : Accounts s.calls committed all)
    (hnew : (all' ++ committed ++ pending (s.calls t)).Perm (all ++ committed' ++ pending c)) :
    Accounts (s.goto t c).calls committed' all' := by
  obtain ⟨flight, hnodup, hmem, hperm⟩ := hacc
  have hself : t ∉ flight.erase t := hnodup.not_mem_erase
  have hold : (flight.flatMap fun t => pending (s.calls t)).Perm
      (pending (s.calls t) ++ (flight.erase t).flatMap fun t => pending (s.calls t)) := by
    by_cases ht : t ∈ flight
    · exact (List.perm_cons_erase ht).flatMap_right _
    · have hnone : pending (s.calls t) = [] := by
        cases hc : s.calls t with
        | logging entry => exact absurd ((hmem t).mpr ⟨entry, hc⟩) ht
        | _ => rfl
      rw [hnone, List.erase_of_not_mem ht, List.nil_append]
  have hrest : ((flight.erase t).flatMap fun t' => pending ((s.goto t c).calls t'))
      = (flight.erase t).flatMap fun t' => pending (s.calls t') := by
    refine List.flatMap_congr fun t' ht' => ?_
    rw [goto_calls, if_neg fun heq : t' = t => hself (heq ▸ ht')]
  have hothers : ∀ t', t' ≠ t →
      (t' ∈ flight.erase t ↔ ∃ entry, (s.goto t c).calls t' = .logging entry) := by
    intro t' ht'
    rw [hnodup.mem_erase_iff, goto_calls, if_neg ht', ← hmem t']
    exact and_iff_right ht'
  -- the call is in flight now exactly if it is logging
  have hsum : all'.Perm (committed' ++ (pending c ++ (flight.erase t).flatMap fun t' =>
      pending (s.calls t'))) := by
    rw [List.perm_iff_count] at hperm hold hnew ⊢
    intro x
    have hx := hperm x
    have hox := hold x
    have hnx := hnew x
    simp only [List.count_append] at hx hox hnx ⊢
    omega
  cases c with
  | logging entry =>
      refine ⟨t :: flight.erase t, List.nodup_cons.mpr ⟨hself, hnodup.erase t⟩, fun t' => ?_, ?_⟩
      · by_cases ht : t' = t
        · simp [ht]
        · rw [List.mem_cons, or_iff_right ht, hothers t' ht]
      · rw [List.flatMap_cons, hrest, goto_calls, if_pos rfl]
        exact hsum
  | _ =>
      refine ⟨flight.erase t, hnodup.erase t, fun t' => ?_, ?_⟩
      · by_cases ht : t' = t
        · simp [ht, hself]
        · exact hothers t' ht
      · rw [hrest]
        exact hsum

/-- A call goes on, and the producers of the other calls stay. -/
theorem Producers.goto {c : LogCall} (hp : Producers threshold h s)
    (hothers : ∀ t', t' ≠ t → s'.ring.producers t' = s.ring.producers t')
    (hlevel : s'.threshold = s.threshold) (hcalls : s'.calls = (s.goto t c).calls)
    (hmatch : Matches c (s'.ring.producers t))
    (hnew : (accepted threshold (h ++ [(a, o)]) ++
        (commits (ringHistory h)).map Prod.snd ++ pending (s.calls t)).Perm
      (accepted threshold h ++ (commits (ringHistory (h ++ [(a, o)]))).map Prod.snd ++
        pending c)) :
    Producers threshold (h ++ [(a, o)]) s' where
  level := hlevel.trans hp.level
  calls t' := by
    rw [hcalls, goto_calls]
    split
    · rename_i ht
      rw [ht]
      exact hmatch
    · rename_i ht
      rw [hothers t' ht]
      exact hp.calls t'
  logged := by
    rw [hcalls]
    exact hp.logged.goto hnew

/-- The ring after an access. -/
theorem Inv.ring_step (hi : Inv cap threshold h s) {b : MpscAction τ LogEntry}
    {ring : MpscRing τ LogEntry} {e : MpscEvent LogEntry} (hfree : ClaimsFree cap s.ring b)
    (hstep : s.ring.step cap b = some (ring, e)) :
    MpscRing.Inv cap (commits (ringHistory (h ++ [(a, some (b, e))])))
      (seen (ringHistory (h ++ [(a, some (b, e))]))) ring := by
  rw [ringHistory_some]
  exact hi.ring.step hfree hstep

/-- A call of `log`. -/
theorem Inv.log {level : LogLevel} {text : List UInt8} (hi : Inv cap threshold h s)
    (hopen : s.closer = .notCalled) (hstep : s.step cap (.log t level text) = some (s', o)) :
    Inv cap threshold (h ++ [(.log t level text, o)]) s' := by
  have hp := hi.producers
  have hcons := hi.consumers
  simp only [step] at hstep
  cases hc : s.calls t with
  | idle =>
      rw [hc] at hstep
      simp only [hopen, reduceCtorEq, or_false] at hstep
      split at hstep
      · -- the level is not logged
        rename_i hlow
        cases hstep
        refine hi.calm rfl rfl ⟨hp.level, hp.calls, ?_⟩ hcons
        rw [hp.level] at hlow
        have hacc : accepted threshold (h ++ [(LogAction.log t level text, none)])
            = accepted threshold h := by simp [accepted, Nat.not_le.mpr hlow]
        rw [ringHistory_none, hacc]
        exact hp.logged
      · rename_i hlevel
        cases hstep
        have hidle : s.ring.producers t = .idle := by
          have hm := hp.calls t
          rwa [hc] at hm
        refine hi.calm rfl rfl (hp.goto (fun _ _ => rfl) rfl rfl ?_ ?_) ⟨hcons.role, hcons.joined,
          hcons.called, fun hq => absurd hopen hq, ?_, hcons.stops, hcons.drained⟩
        · intro idx x hx
          cases hidle.symm.trans hx
        · rw [hp.level, Nat.not_lt] at hlevel
          have hacc : accepted threshold (h ++ [(LogAction.log t level text, none)])
              = accepted threshold h ++ [logEntry level text] := by simp [accepted, hlevel]
          rw [hc, ringHistory_none, hacc]
          simp only [pending, List.append_nil, List.append_assoc]
          exact List.perm_append_comm.append_left _
        · intro hwait hready
          rcases hcons.woken hwait hready with hw | ⟨t', ht'⟩
          · exact Or.inl hw
          · refine Or.inr ⟨t', ?_⟩
            have hne : t' ≠ t := by
              rintro rfl
              rw [hc] at ht'
              cases ht'
            rwa [goto_calls, if_neg hne]
  | logging | notify => rw [hc] at hstep; cases hstep

/-- What an access of a thread in `log` does to the ring: it commits the entry, or claims a slot, or
goes on with its claim. -/
inductive Goes (t : τ) (entry : LogEntry) (r r' : MpscRing τ LogEntry) :
    MpscEvent LogEntry → Prop
  | commits (idx : UInt64) (hold : r.producers t = .written idx entry)
      (hnew : r'.producers t = .idle) : Goes t entry r r' (.committed idx entry)
  | claims (hold : r.producers t = .idle) (hnew : r'.producers t = .waiting r.claimIdx)
      (hidx : r'.claimIdx = r.claimIdx + 1) : Goes t entry r r' .silent
  | goes (hafter : afterAccess entry (r.producers t) = .logging entry)
      (hmatch : Matches (.logging entry) (r'.producers t))
      (hclaim : (r'.producers t).idx? = (r.producers t).idx?)
      (hidx : r'.claimIdx = r.claimIdx) : Goes t entry r r' .silent

/-- The next access of a thread in `log`. -/
theorem goes_of_step {entry : LogEntry} {r r' : MpscRing τ LogEntry} {e : MpscEvent LogEntry}
    (hm : Matches (.logging entry) (r.producers t))
    (hstep : r.step cap (ringAction t entry (r.producers t)) = some (r', e)) :
    r'.consumer = r.consumer ∧ r'.readCursor = r.readCursor ∧
      (∀ t', t' ≠ t → r'.producers t' = r.producers t') ∧ Goes t entry r r' e := by
  have hother : ∀ (r : MpscRing τ LogEntry) (p : MpscProducer LogEntry) (t' : τ), t' ≠ t →
      (r.goto t p).producers t' = r.producers t' :=
    fun r p t' ht => Function.update_of_ne ht _ _
  have hself : ∀ (r : MpscRing τ LogEntry) (p : MpscProducer LogEntry),
      (r.goto t p).producers t = p := fun r p => Function.update_self _ _ _
  -- the slots aside, the thread goes on with its claim
  have hgoes : ∀ {slots : Nat → MpscSlot LogEntry} {p q : MpscProducer LogEntry},
      r.producers t = q → afterAccess entry q = .logging entry → Matches (.logging entry) p →
      p.idx? = q.idx? → Goes t entry r ({ r with slots := slots }.goto t p) .silent := by
    intro slots p q hq hafter hmatch hidx
    refine .goes ?_ ?_ ?_ rfl
    · rwa [hq]
    · rwa [hself]
    · rwa [hself, hq]
  cases hp : r.producers t with
  | idle =>
      simp only [ringAction, MpscRing.step, hp] at hstep
      cases hstep
      exact ⟨rfl, rfl, hother _ _, .claims hp (hself _ _) rfl⟩
  | waiting idx =>
      simp only [ringAction, MpscRing.step, hp] at hstep
      split at hstep
      · -- the slot is taken, and the load is made again
        cases hstep
        exact ⟨rfl, rfl, fun _ _ => rfl, .goes (by rw [hp]; rfl) hm rfl rfl⟩
      · cases hstep
        refine ⟨rfl, rfl, hother _ _, hgoes hp rfl ?_ rfl⟩
        rintro idx x ⟨⟩
  | ready idx =>
      simp only [ringAction, MpscRing.step, hp] at hstep
      cases hstep
      refine ⟨rfl, rfl, hother _ _, hgoes hp rfl ?_ rfl⟩
      rintro idx x ⟨⟩
  | holding idx =>
      simp only [ringAction, MpscRing.step, hp] at hstep
      cases hstep
      refine ⟨rfl, rfl, hother _ _, hgoes hp rfl ?_ rfl⟩
      rintro idx x ⟨⟩
      rfl
  | written idx x =>
      obtain rfl := hm idx x hp
      simp only [ringAction, MpscRing.step, hp] at hstep
      cases hstep
      exact ⟨rfl, rfl, hother _ _, .commits idx hp (hself _ _)⟩

/-- An access that commits nothing makes no entry ready. -/
theorem Goes.not_ready {entry : LogEntry} {r r' : MpscRing τ LogEntry}
    {log seen log' seen' : List (UInt64 × LogEntry)}
    (hg : Goes t entry r r' .silent) (hi : MpscRing.Inv cap log seen r)
    (hi' : MpscRing.Inv cap log' seen' r') (hcursor : r'.readCursor = r.readCursor)
    (hothers : ∀ t', t' ≠ t → r'.producers t' = r.producers t')
    (hready : Ready cap r') : Ready cap r := by
  obtain ⟨hle, hno⟩ := hi'.ready_iff.mp hready
  rw [hcursor] at hle hno
  have hno' : ∀ t', t' ≠ t → (r.producers t').idx? ≠ some (r.readCursor - 1) := by
    intro t' ht'
    rw [← hothers t' ht']
    exact hno t'
  refine hi.ready_iff.mpr ?_
  cases hg with
  | claims hold hnew hidx =>
      have hlast := hno t
      rw [hnew] at hlast
      have hne : r.claimIdx ≠ r.readCursor - 1 := fun heq => hlast (congrArg some heq)
      have hnat := MpscRing.toNat_cursor hi.claims
      have hpos := hi.claims.cursor
      have hbehind := hi.claims.behind
      refine ⟨?_, fun t' => ?_⟩
      · by_contra hlt
        refine hne (UInt64.toNat_inj.mp ?_)
        omega
      · by_cases ht : t' = t
        · rw [ht, hold]
          nofun
        · exact hno' t' ht
  | goes hafter hmatch hclaim hidx =>
      refine ⟨by rwa [hidx] at hle, fun t' => ?_⟩
      by_cases ht : t' = t
      · rw [ht, ← hclaim]
        exact hno t
      · exact hno' t' ht

/-- A thread in `log` goes on with its claim. -/
theorem Inv.goes_on {entry : LogEntry} (hi : Inv cap threshold h s)
    (hc : s.calls t = .logging entry) {b : MpscAction τ LogEntry} {ring : MpscRing τ LogEntry}
    (hfree : ClaimsFree cap s.ring b) (hstep : s.ring.step cap b = some (ring, .silent))
    (hconsumer : ring.consumer = s.ring.consumer) (hcursor : ring.readCursor = s.ring.readCursor)
    (hothers : ∀ t', t' ≠ t → ring.producers t' = s.ring.producers t')
    (hgoes : Goes t entry s.ring ring .silent) :
    Inv cap threshold (h ++ [(.next t, some (b, .silent))])
      ({ s with ring := ring }.goto t (afterAccess entry (s.ring.producers t))) := by
  have hring := hi.ring_step (a := .next t) hfree hstep
  obtain ⟨hold, hfile, hp, hcons⟩ := hi
  obtain ⟨hafter, hmatch⟩ : afterAccess entry (s.ring.producers t) = .logging entry ∧
      Matches (.logging entry) (ring.producers t) := by
    cases hgoes with
    | claims hidle hnew hidx =>
        rw [hidle, hnew]
        refine ⟨rfl, ?_⟩
        rintro idx x ⟨⟩
    | goes hafter hmatch hclaim hidx => exact ⟨hafter, hmatch⟩
  have hsame : (s.goto t (.logging entry)).calls = s.calls := by
    rw [← hc]
    exact Function.update_eq_self _ _
  have hready : Ready cap ring → Ready cap s.ring :=
    hgoes.not_ready hold hring hcursor hothers
  rw [hafter]
  refine ⟨hring, ?_, hp.goto hothers rfl rfl hmatch ?_, ?_⟩
  · rw [ringHistory_some, seen_silent]
    exact hfile
  · rw [accepted_snoc (a := .next t) trivial, ringHistory_some, commits_silent, hc]
  · refine ⟨hconsumer.trans hcons.role, hcons.joined, hcons.called, ?_, ?_, hcons.stops,
      fun hclosed hr => hcons.drained hclosed (hready hr)⟩
    · exact hsame.symm ▸ hcons.quiet
    · exact fun hwait hr => hsame.symm ▸ hcons.woken hwait (hready hr)

/-- A thread in `log` commits its entry. -/
theorem Inv.commit {entry : LogEntry} (hi : Inv cap threshold h s)
    (hc : s.calls t = .logging entry) {b : MpscAction τ LogEntry} {ring : MpscRing τ LogEntry}
    {idx : UInt64} (hfree : ClaimsFree cap s.ring b)
    (hstep : s.ring.step cap b = some (ring, .committed idx entry))
    (hconsumer : ring.consumer = s.ring.consumer)
    (hothers : ∀ t', t' ≠ t → ring.producers t' = s.ring.producers t')
    (hidle : ring.producers t = .idle) :
    Inv cap threshold (h ++ [(.next t, some (b, .committed idx entry))])
      ({ s with ring := ring }.goto t .notify) := by
  have hring := hi.ring_step (a := .next t) hfree hstep
  obtain ⟨hold, hfile, hp, hcons⟩ := hi
  have hopen := hcons.open_of_logging hc
  refine ⟨hring, ?_, hp.goto hothers rfl rfl hidle ?_,
    ⟨hconsumer.trans hcons.role, hcons.joined, hcons.called, fun hq => absurd hopen hq,
      fun _ _ => Or.inr ⟨t, by rw [goto_calls, if_pos rfl]⟩, hcons.stops, ?_⟩⟩
  · rw [ringHistory_some, seen_committed]
    exact hfile
  · -- the entry was pending, and now it is committed
    rw [accepted_snoc (a := .next t) trivial, ringHistory_some, commits_committed, hc]
    simp [pending]
  · intro hclosed
    cases hopen.symm.trans hclosed

/-- A thread in `log` rings. -/
theorem Inv.rings (hi : Inv cap threshold h s) (hc : s.calls t = .notify) :
    Inv cap threshold (h ++ [(.next t, none)]) ({ s with wake := s.wake + 1 }.goto t .idle) := by
  have hcons := hi.consumers
  have hidle : s.ring.producers t = .idle := by
    have hm := hi.producers.calls t
    rwa [hc] at hm
  refine hi.calm rfl rfl (hi.producers.goto (fun _ _ => rfl) rfl rfl hidle ?_)
    ⟨hcons.role, hcons.joined, hcons.called, fun hq t' => ?_,
      fun _ _ => Or.inl (Nat.succ_pos _), fun _ _ => Or.inl (Nat.succ_pos _), hcons.drained⟩
  · rw [accepted_snoc (a := .next t) trivial, ringHistory_none, hc]
    exact List.Perm.refl _
  · rw [goto_calls]
    split
    · rfl
    · exact hcons.quiet hq t'

/-- The next access of a thread in `log`. -/
theorem Inv.next (hi : Inv cap threshold h s) (hord : Orderly cap h s (.next t))
    (hstep : s.step cap (.next t) = some (s', o)) :
    Inv cap threshold (h ++ [(.next t, o)]) s' := by
  simp only [step, callStep] at hstep
  cases hc : s.calls t with
  | idle =>
      rw [hc] at hstep
      cases hstep
  | notify =>
      rw [hc] at hstep
      cases hstep
      exact hi.rings hc
  | logging entry =>
      rw [hc] at hstep
      simp only [access, Option.map_map, Option.map_eq_some_iff] at hstep
      obtain ⟨⟨ring, e⟩, hring, heq⟩ := hstep
      cases heq
      have hm : Matches (.logging entry) (s.ring.producers t) := by
        have hm := hi.producers.calls t
        rwa [hc] at hm
      obtain ⟨hconsumer, hcursor, hothers, hgoes⟩ := goes_of_step hm hring
      cases hgoes with
      | commits idx hwritten hidle =>
          have hinv := hi.commit hc (hord entry hc) hring hconsumer hothers hidle
          have hafter : afterAccess entry (s.ring.producers t) = .notify := by
            rw [hwritten]
            rfl
          rwa [← hafter] at hinv
      | claims hidle hnew hidx =>
          exact hi.goes_on hc (hord entry hc) hring hconsumer hcursor hothers
            (.claims hidle hnew hidx)
      | goes hafter hmatch hclaim hidx =>
          exact hi.goes_on hc (hord entry hc) hring hconsumer hcursor hothers
            (.goes hafter hmatch hclaim hidx)

/-! ### Steps of the readers -/

/-- The two differ in where the readers are, and in the eventfd. -/
structure SameRing (s s' : Logger τ) : Prop where
  level : s'.threshold = s.threshold
  calls : s'.calls = s.calls
  ring : s'.ring = s.ring
  file : s'.file = s.file

omit [DecidableEq τ] in
/-- What a step of a reader keeps of the calls: nothing is committed. -/
theorem Producers.keep (hp : Producers threshold h s) (ha : NoCall a)
    (hcommits : commits (ringHistory (h ++ [(a, o)])) = commits (ringHistory h))
    (hlevel : s'.threshold = s.threshold) (hcalls : s'.calls = s.calls)
    (hring : s'.ring.producers = s.ring.producers) :
    Producers threshold (h ++ [(a, o)]) s' where
  level := hlevel.trans hp.level
  calls t := by
    rw [hcalls, hring]
    exact hp.calls t
  logged := by
    rw [accepted_snoc ha, hcommits, hcalls]
    exact hp.logged

omit [DecidableEq τ] in
/-- A step of a reader without an access to the ring. -/
theorem Inv.keeps (hi : Inv cap threshold h s) (ha : NoCall a) (hs : SameRing s s')
    (hcons : Consumers cap s') : Inv cap threshold (h ++ [(a, none)]) s' :=
  hi.calm hs.ring hs.file
    (hi.producers.keep ha (by rw [ringHistory_none]) hs.level hs.calls (by rw [hs.ring])) hcons

/-- An access of a reader to the ring, which leads to `r`. -/
theorem Inv.reads {r : Logger τ} (hi : Inv cap threshold h s) (ha : NoCall a)
    {b : MpscAction τ LogEntry} {e : MpscEvent LogEntry} (hfree : ClaimsFree cap s.ring b)
    (hstep : s.ring.step cap b = some (r.ring, e))
    (hcommits : ∀ l, commits (l ++ [(b, e)]) = commits l)
    (hlevel : r.threshold = s.threshold) (hcalls : r.calls = s.calls)
    (hproducers : r.ring.producers = s.ring.producers)
    (hfile : r.file.map LogLine.entry = (seen (ringHistory h ++ [(b, e)])).map Prod.snd)
    (hs : SameRing r s') (hcons : Consumers cap s') :
    Inv cap threshold (h ++ [(a, some (b, e))]) s' := by
  rw [← hs.ring] at hstep hproducers
  refine ⟨hi.ring_step hfree hstep, ?_, hi.producers.keep ha ?_ (hs.level.trans hlevel)
    (hs.calls.trans hcalls) hproducers, hcons⟩
  · rw [ringHistory_some, hs.file]
    exact hfile
  · rw [ringHistory_some]
    exact hcommits _

/-- The logger after a `tryPop`. -/
def tried (s : Logger τ) (cap : Nat) : Logger τ :=
  { s with ring := { s.ring with
      consumer := if Ready cap s.ring then .popped else .idle } }

/-- The logger after the popped entry is written. -/
def wrote (s : Logger τ) (cap ts : Nat) : Logger τ :=
  { s with
    ring := { s.ring with consumer := .read }
    file := s.file ++ [⟨ts, (s.ring.slots (readPlace cap s.ring)).data⟩] }

/-- The logger after the entry that was read is taken out. -/
def took (s : Logger τ) (cap : Nat) : Logger τ :=
  { s with ring := { s.ring.storeSeq (readPlace cap s.ring) 0 with
      readCursor := s.ring.readCursor + 1, consumer := .idle } }

theorem step_tryPop (hidle : s.ring.consumer = .idle) :
    s.ring.step cap .tryPop = some ((s.tried cap).ring, .silent) := by
  simp only [MpscRing.step, hidle, tried]
  by_cases hready : Ready cap s.ring
  · rw [if_pos hready]
    exact if_neg (not_not.mpr hready)
  · rw [if_neg hready, ← hidle]
    exact if_pos hready

theorem tryPop_eq (hidle : s.ring.consumer = .idle) (goOn : Logger τ → Bool → Logger τ) :
    s.tryPop cap goOn = some (goOn (s.tried cap) (Ready cap s.ring),
      some (.tryPop, .silent)) := by
  simp only [tryPop, access, step_tryPop hidle, Option.map_some, tried]
  by_cases hready : Ready cap s.ring <;> simp [hready]

theorem step_read (hpopped : s.ring.consumer = .popped) (ts : Nat) :
    s.ring.step cap .read = some ((s.wrote cap ts).ring, .saw (s.ring.readCursor - 1)
      (s.ring.slots (readPlace cap s.ring)).data) := by
  simp only [MpscRing.step, hpopped]
  rfl

theorem writeLine_eq (hpopped : s.ring.consumer = .popped) (ts : Nat) :
    s.writeLine cap ts = some (s.wrote cap ts, some (.read, .saw (s.ring.readCursor - 1)
      (s.ring.slots (readPlace cap s.ring)).data)) := by
  simp only [writeLine, step_read hpopped ts, Option.bind_some]
  rfl

theorem step_consume (hread : s.ring.consumer = .read) :
    s.ring.step cap .consume = some ((s.took cap).ring, .silent) := by
  simp only [MpscRing.step, hread]
  rfl

theorem consume_eq (hread : s.ring.consumer = .read) :
    s.access cap .consume = some (s.took cap, some (.consume, .silent)) := by
  simp only [access, step_consume hread]
  rfl

/-- A reader tries to pop. -/
theorem Inv.tries (hi : Inv cap threshold h s) (ha : NoCall a) (hidle : s.ring.consumer = .idle)
    (hs : SameRing (s.tried cap) s') (hcons : Consumers cap s') :
    Inv cap threshold (h ++ [(a, some (.tryPop, .silent))]) s' :=
  hi.reads ha trivial (step_tryPop hidle) (fun _ => commits_silent _ _) rfl rfl rfl
    (by rw [seen_silent]; exact hi.file) hs hcons

/-- A reader writes a line. -/
theorem Inv.writes (hi : Inv cap threshold h s) (ha : NoCall a) {ts : Nat}
    (hpopped : s.ring.consumer = .popped) (hs : SameRing (s.wrote cap ts) s')
    (hcons : Consumers cap s') : Inv cap threshold (h ++ [(a, some (.read,
      .saw (s.ring.readCursor - 1) (s.ring.slots (readPlace cap s.ring)).data))]) s' :=
  hi.reads ha trivial (step_read hpopped ts) (fun _ => commits_saw _ _ _ _) rfl rfl rfl
    (by rw [seen_saw, List.map_append, ← hi.file]; exact List.map_append) hs hcons

/-- A reader takes an entry out. -/
theorem Inv.takes (hi : Inv cap threshold h s) (ha : NoCall a) (hread : s.ring.consumer = .read)
    (hs : SameRing (s.took cap) s') (hcons : Consumers cap s') :
    Inv cap threshold (h ++ [(a, some (.consume, .silent))]) s' :=
  hi.reads ha trivial (step_consume hread) (fun _ => commits_silent _ _) rfl rfl rfl
    (by rw [seen_silent]; exact hi.file) hs hcons

/-- A bound on the steps that are left after `shutdown` was called. An entry that is taken out
counts for more than the way back to the next `tryPop`. -/
def toDo (s : Logger τ) : Nat :=
  10 * (s.ring.claimIdx.toNat + 1 - s.ring.readCursor.toNat) + s.consumer.left + s.closer.left

omit [DecidableEq τ] in
/-- One entry fewer is left. -/
theorem Inv.took_left (hi : Inv cap threshold h s) (hread : s.ring.consumer = .read) :
    s.ring.claimIdx.toNat + 1 - (s.ring.readCursor + 1).toNat + 1
      = s.ring.claimIdx.toNat + 1 - s.ring.readCursor.toNat := by
  have hle := (hi.ring.logs.popped (by rw [hread]; decide)).1
  have hbound := hi.ring.claims.bound
  have hnext : (s.ring.readCursor + 1).toNat = s.ring.readCursor.toNat + 1 := by
    rw [UInt64.toNat_add]
    exact Nat.mod_eq_of_lt (by change s.ring.readCursor.toNat + 1 < 2 ^ 64; omega)
  rw [hnext]
  omega

omit [DecidableEq τ] in
/-- Before the thread ends, `shutdown` waits for it. -/
theorem Consumers.not_joined (hcons : Consumers cap s) (hne : s.consumer ≠ .ended) :
    s.closer.role = .idle ∧ s.closer ≠ .closed := by
  have hj : ¬ s.closer.Joined := fun hj => hne (hcons.joined hj)
  cases hc : s.closer with
  | notCalled | notify | join => exact ⟨rfl, by decide⟩
  | _ =>
      rw [hc] at hj
      exact absurd trivial hj

omit [DecidableEq τ] in
/-- A step of the thread that writes. -/
theorem Consumers.moves (hcons : Consumers cap s) (hne : s.consumer ≠ .ended)
    (hcloser : s'.closer = s.closer) (hstopped : s'.stopped = s.stopped)
    (hcalls : s'.calls = s.calls) (hrole : s'.ring.consumer = s'.consumer.role)
    (hwoken : s'.consumer = .wait → ¬ Ready cap s'.ring)
    (hstops : s'.stopped = true → s'.consumer = .pop ∨ s'.consumer = .wait →
      0 < s'.wake ∨ s'.closer = .notify) : Consumers cap s' where
  role := by
    rw [hrole]
    split
    · rename_i hended
      rw [hended, hcloser, (hcons.not_joined hne).1]
      rfl
    · rfl
  joined hj := by
    rw [hcloser] at hj
    exact absurd (hcons.joined hj) hne
  called := by rw [hstopped, hcloser]; exact hcons.called
  quiet := by rw [hcloser, hcalls]; exact hcons.quiet
  woken hwait hready := absurd hready (hwoken hwait)
  stops := hstops
  drained hclosed := absurd (hcloser ▸ hclosed) (hcons.not_joined hne).2

omit [DecidableEq τ] in
/-- A step of the thread that does not lead to the `read` of the eventfd. -/
theorem Consumers.moves_awake (hcons : Consumers cap s) (hne : s.consumer ≠ .ended)
    (hcloser : s'.closer = s.closer) (hstopped : s'.stopped = s.stopped)
    (hcalls : s'.calls = s.calls) (hrole : s'.ring.consumer = s'.consumer.role)
    (hwait : s'.consumer ≠ .wait) (hpop : s'.stopped = true → s'.consumer ≠ .pop) :
    Consumers cap s' :=
  hcons.moves hne hcloser hstopped hcalls hrole (fun hw => absurd hw hwait)
    fun hs hpc => hpc.elim (fun hp => absurd hp (hpop hs)) fun hw => absurd hw hwait

/-- The next access of `consumerLoop`. There is one unless the thread has ended or sleeps, and after
`shutdown` was called it brings the end closer. -/
theorem Inv.consumer (hi : Inv cap threshold h s) (hne : s.consumer ≠ .ended)
    (hwake : s.consumer = .wait → s.wake ≠ 0) (now : Nat) :
    ∃ s' o, s.consumerStep cap now = some (s', o) ∧
      Inv cap threshold (h ++ [(.consumer now, o)]) s' ∧ s'.closer = s.closer ∧
      (s.stopped = true → s'.toDo < s.toDo) := by
  have hcons := hi.consumers
  have hrole : s.ring.consumer = s.consumer.role := by rw [hcons.role, if_neg hne]
  have hmoves := @Consumers.moves_awake τ cap s
  simp only [consumerStep, toDo]
  cases hc : s.consumer with
  | check =>
      rw [hc] at hrole
      refine ⟨_, _, rfl, hi.keeps trivial ⟨rfl, rfl, rfl, rfl⟩
        (hmoves hcons hne rfl rfl rfl ?_ ?_ ?_), rfl, fun hs => ?_⟩
      · rw [hrole]
        cases s.stopped <;> rfl
      · cases s.stopped <;> nofun
      · intro hs
        simp [show s.stopped = true from hs]
      · simp [hs, LogConsumer.left]
  | pop =>
      rw [hc] at hrole
      refine ⟨_, _, tryPop_eq hrole _, hi.tries trivial hrole ⟨rfl, rfl, rfl, rfl⟩
        (hcons.moves hne rfl rfl rfl ?_ ?_ fun hs _ => hcons.stops hs (Or.inl hc)), rfl,
        fun _ => ?_⟩
      · by_cases hready : Ready cap s.ring <;> simp [tried, hready, LogConsumer.role]
      · intro hw hready
        simp [show Ready cap s.ring from hready] at hw
      · by_cases hready : Ready cap s.ring <;> simp [tried, hready, LogConsumer.left]
  | wait =>
      rw [hc] at hrole
      exact ⟨_, _, if_neg (hwake hc), hi.keeps trivial ⟨rfl, rfl, rfl, rfl⟩
        (hmoves hcons hne rfl rfl rfl hrole nofun nofun), rfl,
        fun _ => by simp [LogConsumer.left]⟩
  | first | more ts =>
      rw [hc] at hrole
      simp only [writeLine_eq hrole, Option.map_some]
      exact ⟨_, _, rfl, hi.writes trivial hrole ⟨rfl, rfl, rfl, rfl⟩
        (hmoves hcons hne rfl rfl rfl rfl nofun nofun), rfl,
        fun _ => by simp [wrote, LogConsumer.left]⟩
  | consume ts =>
      rw [hc] at hrole
      simp only [consume_eq hrole, Option.map_some]
      refine ⟨_, _, rfl, hi.takes trivial hrole ⟨rfl, rfl, rfl, rfl⟩
        (hmoves hcons hne rfl rfl rfl rfl nofun nofun), rfl, fun _ => ?_⟩
      rw [← hi.took_left hrole]
      change 10 * (s.ring.claimIdx.toNat + 1 - (s.ring.readCursor + 1).toNat) + 5 + s.closer.left
        < _ + 3 + s.closer.left
      omega
  | next ts =>
      rw [hc] at hrole
      refine ⟨_, _, tryPop_eq hrole _, hi.tries trivial hrole ⟨rfl, rfl, rfl, rfl⟩
        (hmoves hcons hne rfl rfl rfl ?_ ?_ fun _ => ?_), rfl, fun _ => ?_⟩
      · by_cases hready : Ready cap s.ring <;> simp [tried, hready, LogConsumer.role]
      · by_cases hready : Ready cap s.ring <;> simp [hready]
      · by_cases hready : Ready cap s.ring <;> simp [hready]
      · by_cases hready : Ready cap s.ring <;> simp [tried, hready, LogConsumer.left]
  | ended => exact absurd hc hne

/-- A call of `shutdown`. -/
theorem Inv.shutdown (hi : Inv cap threshold h s) (hquiet : ∀ t, s.calls t = .idle)
    (hstep : s.step cap .shutdown = some (s', o)) :
    s.closer = .notCalled ∧ Inv cap threshold (h ++ [(.shutdown, o)]) s' := by
  have hcons := hi.consumers
  simp only [step] at hstep
  cases hc : s.closer with
  | notCalled =>
      rw [hc] at hstep
      cases hstep
      refine ⟨rfl, hi.keeps trivial ⟨rfl, rfl, rfl, rfl⟩ ⟨?_, nofun, iff_of_true rfl nofun,
        fun _ => hquiet, hcons.woken, fun _ _ => Or.inr rfl, nofun⟩⟩
      have hrole := hcons.role
      rwa [hc] at hrole
  | _ => rw [hc] at hstep; cases hstep

omit [DecidableEq τ] in
/-- A step of `shutdown` after the thread has ended. -/
theorem Consumers.closes (hcons : Consumers cap s)
    (hold : s.closer ≠ .notCalled) (hnew : s'.closer ≠ .notCalled)
    (hended' : s'.consumer = .ended) (hstopped : s'.stopped = s.stopped)
    (hcalls : s'.calls = s.calls) (hrole : s'.ring.consumer = s'.closer.role)
    (hdrained : s'.closer = .closed → ¬ Ready cap s'.ring) : Consumers cap s' where
  role := by rw [hrole, if_pos hended']
  joined _ := hended'
  called := by rw [hstopped]; exact iff_of_true (hcons.called.mpr hold) hnew
  quiet _ := by rw [hcalls]; exact hcons.quiet hold
  woken hwait := by rw [hended'] at hwait; cases hwait
  stops _ hpc := by rw [hended'] at hpc; rcases hpc with hpc | hpc <;> cases hpc
  drained := hdrained

/-- The next access of `shutdown`. There is one unless it waits for the thread or is done, and it
brings the end closer. -/
theorem Inv.closer (hi : Inv cap threshold h s) (hcalled : s.closer ≠ .notCalled)
    (hjoin : s.closer = .join → s.consumer = .ended) (hclosed : s.closer ≠ .closed) (now : Nat) :
    ∃ s' o, s.closerStep cap now = some (s', o) ∧
      Inv cap threshold (h ++ [(.closer now, o)]) s' ∧ s'.closer ≠ .notCalled ∧
      s'.toDo < s.toDo := by
  have hcons := hi.consumers
  have hrole := hcons.role
  have hended := hcons.joined
  have hcloses := @Consumers.closes τ cap s
  simp only [closerStep, toDo]
  cases hc : s.closer with
  | notCalled => exact absurd hc hcalled
  | notify =>
      rw [hc] at hrole
      exact ⟨_, _, rfl, hi.keeps trivial ⟨rfl, rfl, rfl, rfl⟩ ⟨hrole, nofun,
        iff_of_true (hcons.called.mpr hcalled) nofun, fun _ => hcons.quiet hcalled,
        fun _ _ => Or.inl (Nat.succ_pos _), fun _ _ => Or.inl (Nat.succ_pos _), nofun⟩, nofun,
        by simp [LogShutdown.left]⟩
  | join =>
      have hend := hjoin hc
      rw [hc, if_pos hend] at hrole
      exact ⟨_, _, if_pos hend, hi.keeps trivial ⟨rfl, rfl, rfl, rfl⟩
        (hcloses hcons hcalled nofun hend rfl rfl hrole nofun), nofun, by simp [LogShutdown.left]⟩
  | pop ts =>
      have hend : s.consumer = .ended := hended (by rw [hc]; trivial)
      rw [hc, if_pos hend] at hrole
      refine ⟨_, _, tryPop_eq hrole _, hi.tries trivial hrole ⟨rfl, rfl, rfl, rfl⟩
        (hcloses hcons hcalled ?_ hend rfl rfl ?_ fun hw hready => ?_), ?_, ?_⟩
      · by_cases hready : Ready cap s.ring <;> simp [hready]
      · by_cases hready : Ready cap s.ring <;> simp [tried, hready, LogShutdown.role]
      · simp [show Ready cap s.ring from hready] at hw
      · by_cases hready : Ready cap s.ring <;> simp [hready]
      · by_cases hready : Ready cap s.ring <;> simp [tried, hready, LogShutdown.left]
  | write ts =>
      have hend : s.consumer = .ended := hended (by rw [hc]; trivial)
      rw [hc, if_pos hend] at hrole
      simp only [writeLine_eq hrole, Option.map_some]
      exact ⟨_, _, rfl, hi.writes trivial hrole ⟨rfl, rfl, rfl, rfl⟩
        (hcloses hcons hcalled nofun hend rfl rfl rfl nofun), nofun,
        by simp [wrote, LogShutdown.left]⟩
  | consume ts =>
      have hend : s.consumer = .ended := hended (by rw [hc]; trivial)
      rw [hc, if_pos hend] at hrole
      simp only [consume_eq hrole, Option.map_some]
      refine ⟨_, _, rfl, hi.takes trivial hrole ⟨rfl, rfl, rfl, rfl⟩
        (hcloses hcons hcalled nofun hend rfl rfl rfl nofun), nofun, ?_⟩
      rw [← hi.took_left hrole]
      change 10 * (s.ring.claimIdx.toNat + 1 - (s.ring.readCursor + 1).toNat) + s.consumer.left
        + 4 < _ + s.consumer.left + 2
      omega
  | closed => exact absurd hc hclosed

/-- Every step keeps the invariant, and after `shutdown` was called it brings the end closer. -/
theorem Inv.step (hi : Inv cap threshold h s) (hord : Orderly cap h s a)
    (hstep : s.step cap a = some (s', o)) :
    Inv cap threshold (h ++ [(a, o)]) s' ∧
      (s.closer ≠ .notCalled → s'.closer ≠ .notCalled ∧ s'.toDo < s.toDo) := by
  cases a with
  | log t level text => exact ⟨hi.log hord hstep, fun hne => absurd hord hne⟩
  | next t =>
      refine ⟨hi.next hord hstep, fun hne => ?_⟩
      simp only [Logger.step, callStep, hi.consumers.quiet hne t] at hstep
      cases hstep
  | consumer now =>
      have hruns : s.consumer ≠ .ended ∧ (s.consumer = .wait → s.wake ≠ 0) := by
        constructor <;> intro hc <;> simp [Logger.step, consumerStep, hc] at hstep
        exact hstep.1
      obtain ⟨s₁, o₁, heq, hinv, hsame, hlt⟩ := hi.consumer hruns.1 hruns.2 now
      obtain ⟨rfl, rfl⟩ := Prod.mk.inj (Option.some.inj (heq.symm.trans hstep))
      exact ⟨hinv, fun hne => ⟨hsame ▸ hne, hlt (hi.consumers.called.mpr hne)⟩⟩
  | shutdown =>
      obtain ⟨hopen, hinv⟩ := hi.shutdown hord hstep
      exact ⟨hinv, fun hne => absurd hopen hne⟩
  | closer now =>
      have hruns : s.closer ≠ .notCalled ∧ (s.closer = .join → s.consumer = .ended) ∧
          s.closer ≠ .closed := by
        refine ⟨?_, ?_, ?_⟩ <;> intro hc <;> simp [Logger.step, closerStep, hc] at hstep
        exact hstep.1
      obtain ⟨s₁, o₁, heq, hinv, hcl, hlt⟩ := hi.closer hruns.1 hruns.2.1 hruns.2.2 now
      obtain ⟨rfl, rfl⟩ := Prod.mk.inj (Option.some.inj (heq.symm.trans hstep))
      exact ⟨hinv, fun _ => ⟨hcl, hlt⟩⟩

/-- After `shutdown` was called something can happen until the file is closed. -/
theorem Inv.goes_on_closing (hi : Inv cap threshold h s) (hclosing : s.closer ≠ .notCalled) :
    s.closer = .closed ∨ ∃ a r, Orderly cap h s a ∧ s.step cap a = some r := by
  by_cases hclosed : s.closer = .closed
  · exact Or.inl hclosed
  · right
    by_cases hjoin : s.closer = .join → s.consumer = .ended
    · obtain ⟨s', o, hstep, -⟩ := hi.closer hclosing hjoin hclosed 0
      exact ⟨.closer 0, _, trivial, hstep⟩
    · -- `shutdown` has rung, so the thread does not sleep
      obtain ⟨hj, hne⟩ := Classical.not_imp.mp hjoin
      have hwake : s.consumer = .wait → s.wake ≠ 0 := by
        intro hwait
        rcases hi.consumers.stops (hi.consumers.called.mpr hclosing) (Or.inr hwait) with hw | hn
        · exact Nat.ne_of_gt hw
        · cases hj.symm.trans hn
      obtain ⟨s', o, hstep, -⟩ := hi.consumer hne hwake 0
      exact ⟨.consumer 0, _, trivial, hstep⟩

/-! ### The file -/

omit [DecidableEq τ] in
/-- The lines are entries that were accepted, each once. -/
theorem Inv.file_subperm (hi : Inv cap threshold h s) :
    List.Subperm (s.file.map LogLine.entry) (accepted threshold h) := by
  have hnodup : (seen (ringHistory h)).Nodup := by
    refine List.Nodup.of_map (fun p => p.1.toNat) ?_
    rw [hi.ring.logs.seenOrder]
    exact List.nodup_range
  obtain ⟨l, hperm, hsub⟩ := List.subperm_of_subset hnodup hi.ring.logs.seenCommitted
  obtain ⟨flight, -, -, hlogged⟩ := hi.producers.logged
  rw [hi.file]
  refine List.Subperm.trans ⟨l.map Prod.snd, hperm.map _, hsub.map _⟩ ?_
  exact (List.sublist_append_left _ _).subperm.trans hlogged.symm.subperm

omit [DecidableEq τ] in
/-- With no call of `log` under way, a reader that finds nothing has written all entries. -/
theorem Inv.file_perm (hi : Inv cap threshold h s) (hcalls : ∀ t, s.calls t = .idle)
    (hnone : ¬ Ready cap s.ring) (hidle : s.ring.consumer = .idle) :
    (s.file.map LogLine.entry).Perm (accepted threshold h) := by
  have hproducers : ∀ t, s.ring.producers t = .idle := by
    intro t
    have hm := hi.producers.calls t
    rw [hcalls t] at hm
    exact hm
  obtain ⟨flight, -, hmem, hlogged⟩ := hi.producers.logged
  have hflight : flight = [] := by
    refine List.eq_nil_iff_forall_not_mem.mpr fun t ht => ?_
    obtain ⟨entry, he⟩ := (hmem t).mp ht
    rw [hcalls t] at he
    cases he
  rw [hflight, List.flatMap_nil, List.append_nil] at hlogged
  rw [hi.file]
  exact (hi.ring.all_seen hproducers hnone hidle).trans hlogged.symm

omit [DecidableEq τ] in
/-- The lines stand in the order of the claims. -/
theorem Inv.line_committed (hi : Inv cap threshold h s) {i : Nat} {line : LogLine}
    (hline : s.file[i]? = some line) :
    ∃ idx : UInt64, idx.toNat = i ∧ (idx, line.entry) ∈ commits (ringHistory h) := by
  have hentry := congrArg (fun l : List LogEntry => l[i]?) hi.file
  simp only [List.getElem?_map, hline, Option.map_some] at hentry
  obtain ⟨p, hp, hsnd⟩ := Option.map_eq_some_iff.mp hentry.symm
  have hfst := congrArg (fun l : List Nat => l[i]?) hi.ring.logs.seenOrder
  simp only [List.getElem?_map, hp, Option.map_some] at hfst
  refine ⟨p.1, ?_, ?_⟩
  · obtain ⟨hlt, heq⟩ := List.getElem?_eq_some_iff.mp hfst.symm
    rw [← heq, List.getElem_range]
  · rw [← hsnd]
    exact hi.ring.logs.seenCommitted p (List.mem_of_getElem? hp)

/-- The file is closed, or the thread sleeps with no call of `log` under way. -/
def Settled (s : Logger τ) : Prop :=
  s.closer = .closed ∨ s.consumer = .wait ∧ s.wake = 0 ∧ ∀ t, s.calls t = .idle

omit [DecidableEq τ] in
theorem Inv.file_of_settled (hi : Inv cap threshold h s) (hs : s.Settled) :
    (s.file.map LogLine.entry).Perm (accepted threshold h) := by
  rcases hs with hclosed | ⟨hwait, hwake, hcalls⟩
  · have hj : s.closer.Joined := by rw [hclosed]; trivial
    refine hi.file_perm (hi.consumers.quiet (by rw [hclosed]; nofun))
      (hi.consumers.drained hclosed) ?_
    rw [hi.consumers.role, if_pos (hi.consumers.joined hj), hclosed]
    rfl
  · refine hi.file_perm hcalls (fun hready => ?_) ?_
    · rcases hi.consumers.woken hwait hready with hw | ⟨t, ht⟩
      · omega
      · rw [hcalls t] at ht
        cases ht
    · rw [hi.consumers.role, hwait]
      rfl

/-- The invariant holds after every run. -/
theorem inv_of_trace (t : Trace (step cap) (Orderly cap) (start threshold) h s) :
    Inv cap threshold h s :=
  t.invariant (Inv cap threshold) (.start threshold)
    fun _ _ _ _ _ _ hi hord hstep => And.left (hi.step hord hstep)

end

/-- The file loses nothing. The threads that log, the thread that writes and the one that calls
`shutdown` take their steps in any order, as long as they are `Orderly`: no call of `log` is under
way when `shutdown` is called and none begins after, and a slot of the ring is claimed only when its
earlier claims are marked. Then line `i` is the entry that was committed with claim `i`, and the
lines are entries of calls whose level is logged, each at most once. They are all of them when the
file is closed, and also whenever the thread sleeps and no call is under way: no wake-up is lost.
After `shutdown` was called the run ends, and it only ends with the file closed. -/
theorem log_file_complete [DecidableEq τ] {threshold : LogLevel}
    (t : Trace (step cap) (Orderly cap) (start threshold) h s) :
    (∀ (i : Nat) (line : LogLine), s.file[i]? = some line →
      ∃ idx : UInt64, idx.toNat = i ∧ (idx, line.entry) ∈ commits (ringHistory h)) ∧
    List.Subperm (s.file.map LogLine.entry) (accepted threshold h) ∧
    (s.Settled → (s.file.map LogLine.entry).Perm (accepted threshold h)) ∧
    (s.closer ≠ .notCalled → ∀ h' s', Trace (step cap) (Orderly cap) s h' s' →
      h'.length ≤ s.toDo ∧
        (s'.closer = .closed ∨ ∃ a r, Orderly cap h' s' a ∧ s'.step cap a = some r)) := by
  have hi := inv_of_trace t
  refine ⟨fun i line hline => hi.line_committed hline, hi.file_subperm, hi.file_of_settled, ?_⟩
  intro hclosing h' s' t'
  obtain ⟨⟨hi', hclosing'⟩, hlen⟩ := t'.length_le toDo
    (fun h' s' => Inv cap threshold (h ++ h') s' ∧ s'.closer ≠ .notCalled)
    ⟨by rwa [List.append_nil], hclosing⟩
    (by
      intro g r a r' o ⟨hr, hcl⟩ hord hstep
      obtain ⟨hr', hlt⟩ := hr.step hord hstep
      exact ⟨⟨by rwa [← List.append_assoc], (hlt hcl).1⟩, (hlt hcl).2⟩)
  exact ⟨by omega, hi'.goes_on_closing hclosing'⟩

/-- Two threads log at once, and the one that claimed later commits first; a line below the
threshold is dropped. The writing thread sleeps, finds nothing, sleeps again and then writes both
lines in the order of the claims. `shutdown` is called before it looks at a third entry, and writes
that one itself. -/
theorem log_file_complete_three :
    ∃ (h : List (LogAction Bool × LogEvent Bool)) (s : Logger Bool),
      Trace (step 2) (Orderly 2) (start .warn) h s ∧ s.closer = .closed ∧
      s.file = [⟨3, .error, [111, 107]⟩, ⟨3, .warn, [110, 111]⟩, ⟨9, .error, [120]⟩] ∧
      (s.file.map LogLine.entry).Perm (accepted .warn h) := by
  let both : List (LogAction Bool) := List.flatten [[.consumer 1, .log false .error [111, 107],
    .log true .info [105], .log true .warn [110, 111], .next false],
    List.replicate 5 (.next true), [.consumer 1, .next true, .consumer 2],
    List.replicate 4 (.next false), List.replicate 10 (.consumer 3), [.next false],
    List.replicate 3 (.consumer 4)]
  let third : List (LogAction Bool) := List.flatten [[.log false .error [120]],
    List.replicate 6 (.next false), [.shutdown, .closer 8, .consumer 8, .consumer 8],
    List.replicate 5 (.closer 9)]
  have hrun : (checked (Orderly 2) (step 2) [] (start .warn : Logger Bool) (both ++ third)).map
      (fun r => (r.1.closer, r.1.file)) = some (.closed,
        [⟨3, .error, [111, 107]⟩, ⟨3, .warn, [110, 111]⟩, ⟨9, .error, [120]⟩]) := by
    decide +kernel
  obtain ⟨⟨s, h⟩, hrun, hend⟩ := Option.map_eq_some_iff.mp hrun
  obtain ⟨hclosed, hfile⟩ := Prod.mk.inj hend
  have t := Trace.of_checked .nil hrun
  exact ⟨h, s, t, hclosed, hfile, (log_file_complete t).2.2.1 (Or.inl hclosed)⟩

end Logger

end NebulaX
