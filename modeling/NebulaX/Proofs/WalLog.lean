import NebulaX.Proofs.Exec

/-!
# `NebulaX.Proofs.WalLog`: what the engine logs

The engine logs a call before it executes it. `logged` is the entry, `execLogged` runs calls
with the log kept beside the engine, and `exec_wal` says that this is what is appended to
the file. `Writes` is the file of a log that has not wrapped.
-/

set_option autoImplicit false

namespace NebulaX

open NebulaX.Lib

namespace MatchingEngine

/-! ### What a call logs -/

/-- A call, with the log kept. -/
def execLogged (s : MatchingEngine × List WalEntry) (c : Call) :
    Option ((MatchingEngine × List WalEntry) × List BinaryResponse) :=
  (s.1.exec c).map fun r => ((r.1, s.2 ++ (s.1.logged c).toList), r.2)

/-- The call behind a logged one. -/
theorem exec_of_execLogged {s s' : MatchingEngine × List WalEntry} {c : Call}
    {out : List BinaryResponse} (h : execLogged s c = some (s', out)) :
    s.1.exec c = some (s'.1, out) := by
  simp only [execLogged, Option.map_eq_some_iff, Prod.mk.injEq] at h
  obtain ⟨r, hr, rfl, rfl⟩ := h
  exact hr

/-- The log after a call. -/
theorem log_of_execLogged {s s' : MatchingEngine × List WalEntry} {c : Call}
    {out : List BinaryResponse} (h : execLogged s c = some (s', out)) :
    s'.2 = s.2 ++ (s.1.logged c).toList := by
  simp only [execLogged, Option.map_eq_some_iff, Prod.mk.injEq] at h
  obtain ⟨r, -, rfl, -⟩ := h
  rfl

section
variable {e : MatchingEngine}

/-- The matching loop keeps the log and the order counter. -/
theorem matchSide_keeps {locate : UInt64} {order : Order}
    {r : MatchingEngine × Order × List BinaryResponse} (h : e.matchSide locate order = some r) :
    r.1.wal = e.wal ∧ r.1.nextOrderId = e.nextOrderId := by
  obtain ⟨d, st, -, -, rfl⟩ := matchSide_inv h
  exact ⟨rfl, rfl⟩

/-- A call appends its entry and nothing else. -/
theorem exec_wal {c : Call} {r : MatchingEngine × List BinaryResponse}
    (h : e.exec c = some r) : r.1.wal = walAfter e.wal (e.logged c) := by
  cases hn : c.named? with
  | none =>
      cases c with
      | add locate orderRef side price quantity userId tif =>
          rcases processAdd_cases h with ⟨hpass, e₁, code, ho, rfl⟩ | ⟨hpass, e₁, ho, h⟩
          · rw [Passes] at hpass
            have hlog : e.logged (.add locate orderRef side price quantity userId tif) = none :=
              if_neg hpass
            exact (ho.logged_none hlog).wal
          · rw [Passes] at hpass
            obtain ⟨⟨e₂, order, out⟩, hsub, hfin⟩ := Option.bind_eq_some_iff.mp h
            rw [(finishAdd_after hfin).wal, (matchSide_keeps hsub).1, logged, if_pos hpass,
              ← ho.wal, ← ho.nextSequence]
            rfl
      | _ => cases hn
  | some named =>
      cases exec_named (e := e) hn with
      | missing e₁ hs _ hr =>
          cases h.symm.trans hr
          exact hs.wal
      | found e₁ idx hs _ _ _ hr =>
          rw [← hs.wal]
          rcases actOn_cases (hr.symm.trans h) with
            ⟨-, ha⟩ | ⟨_, _, _, _, _, _, _, b, e₂, left, out, -, -, hm, ha⟩
          · exact ha.wal
          · exact ha.wal.trans (matchSide_keeps hm).1
      | stuck _ _ hr => cases h.symm.trans hr

/-! ### The file -/

/-- The file holds the log and zeros behind it. -/
structure Writes (w : WalWriter) (log : List WalEntry) : Prop where
  total : w.total.toNat = log.length
  base : ∀ i, w.base i = log.getD i {}

theorem walEntries_lt : walEntries < 2 ^ 64 := by decide

/-- An append, while the file is not full. -/
theorem Writes.append {w : WalWriter} {log : List WalEntry} (h : Writes w log)
    (hfull : log.length < walEntries) (entry : WalEntry) :
    Writes (w.append entry) (log ++ [entry]) := by
  have hpos : w.total.toNat % walEntries = log.length := by
    rw [h.total, Nat.mod_eq_of_lt hfull]
  have hlt := walEntries_lt
  constructor
  · show (w.total + 1).toNat = _
    rw [UInt64.toNat_add, h.total, List.length_append, List.length_singleton]
    exact Nat.mod_eq_of_lt (show log.length + 1 < 2 ^ 64 by omega)
  · intro i
    show Function.update w.base (w.total.toNat % walEntries) entry i = _
    rw [hpos]
    by_cases hi : i = log.length
    · subst hi
      rw [Function.update_self]
      simp
    · rw [Function.update_of_ne hi, h.base]
      rcases Nat.lt_or_gt_of_ne hi with hlt | hgt
      · simp [List.getD, List.getElem?_append_left hlt]
      · rw [List.getD, List.getD, List.getElem?_eq_none (by omega),
          List.getElem?_eq_none (by rw [List.length_append, List.length_singleton]; omega)]

end

end MatchingEngine

end NebulaX
