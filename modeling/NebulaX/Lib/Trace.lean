import Mathlib.Data.List.Induction

/-!
# `NebulaX.Lib.Trace`: runs of a machine

A machine is a step function that may fail to return: `step s i` is the state and the
output after input `i` in state `s`. `run` executes a list of inputs.

`Trace step P s₀ h s` says that the machine came from `s₀` to `s` with the history `h`, the
inputs with their outputs, and that every input met the condition `P` at its time. `P` sees
the history and the state before the input, so it can ask for what callers promise.

* `Trace.invariant` is the induction over a run: what holds at the start and is kept by
  every step that meets the condition holds in every state reached.
* `Trace.run_eq` is the way back to `run`.
* `Passed` are the states a run has been in, its last one included.
* `checked` executes a list of inputs and tests the condition at each of them; `Trace.of_checked`
  makes a trace of it.
-/

set_option autoImplicit false

namespace NebulaX.Lib

variable {σ ι ω : Type}

/-- Execute a list of inputs. The second result holds the outputs in their places. -/
def run (step : σ → ι → Option (σ × ω)) : σ → List ι → Option (σ × List ω)
  | s, [] => some (s, [])
  | s, i :: is => do
      let (s, o) ← step s i
      let (s, os) ← run step s is
      return (s, o :: os)

/-- Go on from the history `h` as long as every input meets `p`. The second result is the history
then. -/
def checked (p : List (ι × ω) → σ → ι → Prop) [∀ h s i, Decidable (p h s i)]
    (step : σ → ι → Option (σ × ω)) : List (ι × ω) → σ → List ι → Option (σ × List (ι × ω))
  | h, s, [] => some (s, h)
  | h, s, i :: is =>
      if p h s i then do
        let (s, o) ← step s i
        checked p step (h ++ [(i, o)]) s is
      else none

/-- The machine comes from `s₀` to `s` with history `h`, and every input meets `P`. -/
inductive Trace (step : σ → ι → Option (σ × ω)) (P : List (ι × ω) → σ → ι → Prop) (s₀ : σ) :
    List (ι × ω) → σ → Prop
  | nil : Trace step P s₀ [] s₀
  | snoc {h : List (ι × ω)} {s s' : σ} {i : ι} {o : ω} (t : Trace step P s₀ h s)
      (hp : P h s i) (hstep : step s i = some (s', o)) : Trace step P s₀ (h ++ [(i, o)]) s'

/-- The run with history `h` has been in the state `s`. -/
def Passed (step : σ → ι → Option (σ × ω)) (P : List (ι × ω) → σ → ι → Prop) (s₀ : σ)
    (h : List (ι × ω)) (s : σ) : Prop :=
  ∃ g, g <+: h ∧ Trace step P s₀ g s

variable {step : σ → ι → Option (σ × ω)} {P Q : List (ι × ω) → σ → ι → Prop} {s₀ s : σ}
variable {h : List (ι × ω)}

/-- The run goes on after a step. -/
def runNext (step : σ → ι → Option (σ × ω)) (is : List ι) (r : σ × ω) : Option (σ × List ω) :=
  (run step r.1 is).map fun r' => (r'.1, r.2 :: r'.2)

theorem runNext_mk (is : List ι) (s : σ) (o : ω) :
    runNext step is (s, o) = (run step s is).map fun r => (r.1, o :: r.2) := rfl

theorem run_nil (s : σ) : run step s [] = some (s, []) := rfl

/-- One step of a run. With `runNext_mk` it executes a concrete run from its first step on. -/
theorem run_cons (i : ι) (is : List ι) (s : σ) :
    run step s (i :: is) = (step s i).bind (runNext step is) := by
  simp only [run, Option.bind_eq_bind, pure]
  congr 1
  funext r
  rw [runNext, Option.map_eq_bind]
  rfl

/-- A run in two parts. -/
theorem run_append (is js : List ι) (s : σ) :
    run step s (is ++ js) =
      (run step s is).bind fun r => (run step r.1 js).map fun r' => (r'.1, r.2 ++ r'.2) := by
  induction is generalizing s with
  | nil => simp [run]
  | cons i is ih =>
      simp only [List.cons_append, run, ih, Option.bind_eq_bind, Option.bind_assoc, pure,
        Option.bind_some, Option.map_eq_bind, Function.comp_def, List.cons_append]

/-- A run of steps that return. -/
theorem run_isSome (h : ∀ s i, (step s i).isSome) (s : σ) (is : List ι) :
    (run step s is).isSome := by
  induction is generalizing s with
  | nil => rfl
  | cons i is ih =>
      obtain ⟨⟨s₁, o⟩, h₁⟩ := Option.isSome_iff_exists.mp (h s i)
      obtain ⟨⟨s₂, os⟩, h₂⟩ := Option.isSome_iff_exists.mp (ih s₁)
      simp [run, h₁, h₂]

/-- A run of one more input. -/
theorem run_snoc {is : List ι} {os : List ω} {s' : σ} {i : ι} {o : ω}
    (hr : run step s₀ is = some (s, os)) (hs : step s i = some (s', o)) :
    run step s₀ (is ++ [i]) = some (s', os ++ [o]) := by
  induction is generalizing s₀ os with
  | nil =>
      rw [run, Option.some.injEq, Prod.mk.injEq] at hr
      obtain ⟨rfl, rfl⟩ := hr
      simp [run, hs]
  | cons j js ih =>
      simp only [run, Option.bind_eq_bind, Option.bind_eq_some_iff] at hr
      obtain ⟨⟨s₁, o₁⟩, h₁, ⟨s₂, os₂⟩, h₂, heq⟩ := hr
      simp only [pure, Option.some.injEq, Prod.mk.injEq] at heq
      obtain ⟨rfl, rfl⟩ := heq
      simp [run, h₁, ih h₂]

namespace Trace

/-- The run behind a trace. -/
theorem run_eq (t : Trace step P s₀ h s) :
    run step s₀ (h.map Prod.fst) = some (s, h.map Prod.snd) := by
  induction t with
  | nil => rfl
  | snoc t hp hstep ih =>
      rw [List.map_append, List.map_append]
      exact run_snoc ih hstep

/-- A run of inputs that all meet a condition. -/
theorem of_run {Q : ι → Prop} {is : List ι} {os : List ω} (hQ : ∀ i ∈ is, Q i)
    (hr : run step s₀ is = some (s, os)) :
    os.length = is.length ∧ Trace step (fun _ _ i => Q i) s₀ (is.zip os) s := by
  induction is using List.reverseRecOn generalizing s os with
  | nil =>
      rw [run, Option.some.injEq, Prod.mk.injEq] at hr
      obtain ⟨rfl, rfl⟩ := hr
      exact ⟨rfl, .nil⟩
  | append_singleton is i ih =>
      rw [run_append, Option.bind_eq_some_iff] at hr
      obtain ⟨⟨s₁, os₁⟩, h₁, hr⟩ := hr
      simp only [run, Option.bind_eq_bind, Option.map_eq_some_iff, Option.bind_eq_some_iff, pure,
        Option.some.injEq, Prod.exists, Prod.mk.injEq] at hr
      obtain ⟨_, _, ⟨s₂, o, hstep, _, _, ⟨rfl, rfl⟩, rfl, rfl⟩, rfl, rfl⟩ := hr
      obtain ⟨hlen, t⟩ := ih (fun j hj => hQ j (List.mem_append_left _ hj)) h₁
      refine ⟨by simp [hlen], ?_⟩
      rw [List.zip_append hlen.symm]
      exact t.snoc (hQ i (List.mem_append_right _ List.mem_cons_self)) hstep

/-- What holds at the start and is kept by every step holds in every state reached. -/
theorem invariant (I : List (ι × ω) → σ → Prop) (h₀ : I [] s₀)
    (hstep : ∀ h s i s' o, Trace step P s₀ h s → I h s → P h s i → step s i = some (s', o) →
      I (h ++ [(i, o)]) s')
    (t : Trace step P s₀ h s) : I h s := by
  induction t with
  | nil => exact h₀
  | snoc t hp hs ih => exact hstep _ _ _ _ _ t ih hp hs

/-- Where every step lowers a measure, a run is no longer than the measure it starts with. -/
theorem length_le (m : σ → Nat) (I : List (ι × ω) → σ → Prop) (h₀ : I [] s₀)
    (hstep : ∀ h s i s' o, I h s → P h s i → step s i = some (s', o) →
      I (h ++ [(i, o)]) s' ∧ m s' < m s)
    (t : Trace step P s₀ h s) : I h s ∧ h.length + m s ≤ m s₀ := by
  induction t with
  | nil => exact ⟨h₀, by simp⟩
  | snoc t hp hs ih =>
      obtain ⟨hi, hlen⟩ := ih
      obtain ⟨hi', hlt⟩ := hstep _ _ _ _ _ hi hp hs
      refine ⟨hi', ?_⟩
      rw [List.length_append, List.length_singleton]
      omega

/-- A run has been in the state it is in. -/
theorem passed (t : Trace step P s₀ h s) : Passed step P s₀ h s := ⟨h, List.prefix_rfl, t⟩

/-- A weaker condition. -/
theorem mono (hPQ : ∀ h s i, Trace step P s₀ h s → P h s i → Q h s i)
    (t : Trace step P s₀ h s) : Trace step Q s₀ h s := by
  induction t with
  | nil => exact .nil
  | snoc t hp hs ih => exact .snoc ih (hPQ _ _ _ t hp) hs

/-- A run whose inputs were checked. -/
theorem of_checked {p : List (ι × ω) → σ → ι → Prop} [∀ h s i, Decidable (p h s i)] {is : List ι}
    {h' : List (ι × ω)} {s' : σ} (t : Trace step p s₀ h s)
    (hr : checked p step h s is = some (s', h')) : Trace step p s₀ h' s' := by
  induction is generalizing h s with
  | nil =>
      rw [checked, Option.some.injEq, Prod.mk.injEq] at hr
      obtain ⟨rfl, rfl⟩ := hr
      exact t
  | cons i is ih =>
      rw [checked] at hr
      split at hr
      · rename_i hp
        obtain ⟨⟨s₁, o⟩, hs, hr⟩ := Option.bind_eq_some_iff.mp hr
        exact ih (t.snoc hp hs) hr
      · cases hr

end Trace

/-- A longer run has been there too. -/
theorem Passed.snoc (hs : Passed step P s₀ h s) (x : ι × ω) : Passed step P s₀ (h ++ [x]) s := by
  obtain ⟨g, hg, t⟩ := hs
  exact ⟨g, hg.trans (List.prefix_append h [x]), t⟩

end NebulaX.Lib
