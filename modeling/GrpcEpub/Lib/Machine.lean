/-
# `GrpcEpub.Lib.Machine` — machines that step on named actions

A machine says where it starts and what each action does in the states that
enable it.  Which action comes next is nobody's choice, so a statement about
every run is a statement about every interleaving of whoever takes the actions.

`Runs.rec_snoc` is the induction along a run.  An invariant may speak of the
actions taken so far; most do not, and `Runs.invariant` is the rule for those.
Where an invariant holds only as long as every step is taken in a good state,
`Runs.invariant_where` asks that of the steps the run takes.
-/
import Mathlib.Tactic

namespace GrpcEpub

structure Machine (σ α : Type) where
  start : σ
  step : σ → α → Option σ

namespace Machine

variable {σ α : Type} {M : Machine σ α}

/-- The state after these actions, where each of them was enabled in turn. -/
def exec (M : Machine σ α) : σ → List α → Option σ
  | s, [] => some s
  | s, a :: rest =>
      match M.step s a with
      | some s' => exec M s' rest
      | none => none

/-- A run from the start. -/
def Runs (M : Machine σ α) (actions : List α) (s : σ) : Prop :=
  M.exec M.start actions = some s

theorem exec_cons {s s' : σ} {a : α} (as : List α) (h : M.step s a = some s') :
    M.exec s (a :: as) = M.exec s' as := by
  rw [exec, h]

theorem exec_append (s : σ) (as bs : List α) :
    M.exec s (as ++ bs) = (M.exec s as).bind fun s' => M.exec s' bs := by
  induction as generalizing s with
  | nil => rfl
  | cons a rest ih =>
      simp only [List.cons_append, exec]
      cases M.step s a with
      | some s' => exact ih s'
      | none => rfl

theorem Runs.nil : M.Runs [] M.start := rfl

theorem runs_nil {s : σ} : M.Runs [] s ↔ s = M.start := by
  simp [Runs, exec, eq_comm]

theorem runs_concat {as : List α} {a : α} {s' : σ} :
    M.Runs (as ++ [a]) s' ↔ ∃ s, M.Runs as s ∧ M.step s a = some s' := by
  unfold Runs
  rw [exec_append, Option.bind_eq_some_iff]
  refine exists_congr fun s => and_congr_right fun _ => ?_
  unfold exec
  cases M.step s a with
  | some s₁ => simp [exec]
  | none => simp

/-- Induction along a run. -/
theorem Runs.rec_snoc {I : List α → σ → Prop} (start : I [] M.start)
    (step : ∀ as s a s', M.Runs as s → I as s → M.step s a = some s' → I (as ++ [a]) s')
    {as : List α} {s : σ} (h : M.Runs as s) : I as s := by
  induction as using List.reverseRecOn generalizing s with
  | nil =>
      obtain rfl := runs_nil.mp h
      exact start
  | append_singleton as a ih =>
      obtain ⟨s₀, hruns, hstep⟩ := runs_concat.mp h
      exact step as s₀ a s hruns (ih hruns) hstep

/-- What the start has and every step keeps, every reachable state has. -/
theorem Runs.invariant {I : σ → Prop} (start : I M.start)
    (step : ∀ s a s', I s → M.step s a = some s' → I s') {as : List α} {s : σ}
    (h : M.Runs as s) : I s :=
  h.rec_snoc (I := fun _ => I) start fun _ s a s' _ hs => step s a s' hs

/-! ## Along a run

`Visits` speaks of the states of a run, and `Takes` of its steps with the state each is taken in. -/

/-- The run passes through this state. -/
def Visits (M : Machine σ α) (actions : List α) (s : σ) : Prop :=
  ∃ as, as <+: actions ∧ M.Runs as s

/-- The run takes this action in this state. -/
def Takes (M : Machine σ α) (actions : List α) (s : σ) (a : α) : Prop :=
  ∃ as, as ++ [a] <+: actions ∧ M.Runs as s

theorem Takes.mono {as bs : List α} {s : σ} {a : α} (h : M.Takes as s a) (hle : as <+: bs) :
    M.Takes bs s a := by
  obtain ⟨before, hbefore, hruns⟩ := h
  exact ⟨before, hbefore.trans hle, hruns⟩

theorem Takes.mem {as : List α} {s : σ} {a : α} (h : M.Takes as s a) : a ∈ as := by
  obtain ⟨before, hbefore, -⟩ := h
  exact hbefore.subset (List.mem_append_right _ (List.mem_singleton_self a))

/-- An action that the run takes was enabled, and leads to a state of the run. -/
theorem Takes.visits {as : List α} {s t : σ} {a : α} (h : M.Takes as s a)
    (hruns : M.Runs as t) : ∃ s', M.step s a = some s' ∧ M.Visits as s' := by
  obtain ⟨before, ⟨after, rfl⟩, hbefore⟩ := h
  unfold Runs at hruns
  rw [exec_append, Option.bind_eq_some_iff] at hruns
  obtain ⟨s', hs', -⟩ := hruns
  obtain ⟨s₀, hs₀, hstep⟩ := runs_concat.mp hs'
  obtain rfl : s = s₀ := Option.some.inj (hbefore.symm.trans hs₀)
  exact ⟨s', hstep, before ++ [a], List.prefix_append _ _, hs'⟩

/-- What every step keeps that is taken in a good state. -/
theorem Runs.invariant_where {I : σ → Prop} {G : σ → α → Prop} (start : I M.start)
    (step : ∀ s a s', I s → G s a → M.step s a = some s' → I s') {as : List α} {s : σ}
    (h : M.Runs as s) (hgood : ∀ t a, M.Takes as t a → G t a) : I s := by
  refine h.rec_snoc (I := fun as s => (∀ t a, M.Takes as t a → G t a) → I s)
    (fun _ => start) ?_ hgood
  intro as s a s' hruns ih hstep hall
  have hbefore : I s := ih fun t b htakes => hall t b (htakes.mono (List.prefix_append _ _))
  exact step s a s' hbefore (hall s a ⟨as, List.prefix_rfl, hruns⟩) hstep

end Machine

end GrpcEpub
