import Mathlib

/-!
# Runs of a labelled transition system

A system is a step relation `step s a s'` over states and actions. `RunMeets step ok s as s'` is the
run that performs the actions `as` in order, each of whose steps meets the condition `ok` on the
state it leaves and its action; `Run` is the case without a condition. An invariant that the steps
meeting the condition keep holds along such runs. A run of a system given by a partial function can
be computed (`exec`).
-/

namespace Transition

variable {σ α : Type*}

/-- The run of a list of actions from `s` to `s'`, every step of which meets `ok`. -/
inductive RunMeets (step : σ → α → σ → Prop) (ok : σ → α → Prop) : σ → List α → σ → Prop
  | nil (s : σ) : RunMeets step ok s [] s
  | cons {s t u : σ} {a : α} {as : List α} : ok s a → step s a t → RunMeets step ok t as u →
      RunMeets step ok s (a :: as) u

/-- The run of a list of actions from `s` to `s'`. -/
def Run (step : σ → α → σ → Prop) : σ → List α → σ → Prop := RunMeets step fun _ _ => True

/-- Performs a list of actions with a partial function, checking `chk` before each. -/
def exec (next : σ → α → Option σ) (chk : σ → α → Prop) [∀ s a, Decidable (chk s a)] :
    σ → List α → Option σ
  | s, [] => some s
  | s, a :: as => if chk s a then (next s a).bind fun t => exec next chk t as else none

variable {step : σ → α → σ → Prop} {ok : σ → α → Prop} {I : σ → Prop} {s u : σ} {as : List α}

/-- An invariant of the steps that meet a condition holds at the end of the runs that meet it. -/
theorem RunMeets.invariant (hstep : ∀ {s a t}, I s → ok s a → step s a t → I t)
    (h : RunMeets step ok s as u) : I s → I u := by
  induction h with
  | nil s => exact id
  | cons hok hst _ ih => exact fun hs => ih (hstep hs hok hst)

/-- An invariant of all steps holds at the end of every run. -/
theorem Run.invariant (hstep : ∀ {s a t}, I s → step s a t → I t) (h : Run step s as u) :
    I s → I u :=
  RunMeets.invariant (fun hs _ hst => hstep hs hst) h

/-- A run that meets a condition is a run. -/
theorem RunMeets.run (h : RunMeets step ok s as u) : Run step s as u := by
  induction h with
  | nil s => exact .nil s
  | cons _ hst _ ih => exact .cons trivial hst ih

/-- A run of a longer list passes through a state between its two parts. -/
theorem RunMeets.of_append : ∀ {as bs : List α} {s : σ}, RunMeets step ok s (as ++ bs) u →
    ∃ t, RunMeets step ok s as t ∧ RunMeets step ok t bs u
  | [], _, s, h => ⟨s, .nil s, h⟩
  | _ :: _, _, _, .cons hok hst h =>
    have ⟨t, h₁, h₂⟩ := h.of_append
    ⟨t, .cons hok hst h₁, h₂⟩

/-- The rule backwards: when no step repairs what it finds broken, a run that ends well was well all
along, and each of its steps meets what well states show. -/
theorem Run.meets_of_end (hback : ∀ {s a t}, step s a t → I t → I s)
    (hok : ∀ {s a t}, step s a t → I t → ok s a) (h : Run step s as u) (hu : I u) :
    I s ∧ RunMeets step ok s as u := by
  induction h with
  | nil s => exact ⟨hu, .nil s⟩
  | cons _ hst _ ih =>
    obtain ⟨ht, hrest⟩ := ih hu
    exact ⟨hback hst ht, .cons (hok hst ht) hst hrest⟩

/-- A computed run is a run. -/
theorem RunMeets.of_exec {next : σ → α → Option σ} {chk : σ → α → Prop}
    [∀ s a, Decidable (chk s a)]
    (hstep : ∀ {s a t}, chk s a → next s a = some t → ok s a ∧ step s a t) :
    ∀ {as : List α} {s u : σ}, exec next chk s as = some u → RunMeets step ok s as u
  | [], s, u, h => by
    obtain rfl := Option.some.inj h
    exact .nil s
  | a :: as, s, u, h => by
    rw [exec] at h
    split at h
    · next hc =>
      rw [Option.bind_eq_some_iff] at h
      obtain ⟨t, hn, ht⟩ := h
      obtain ⟨hok, hst⟩ := hstep hc hn
      exact .cons hok hst (RunMeets.of_exec hstep ht)
    · cases h

end Transition
