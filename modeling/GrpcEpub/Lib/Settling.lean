/-
# `GrpcEpub.Lib.Settling` — machines that come to rest

Some actions of a machine are its own, the others belong to whoever it serves.
A rank that each action of its own brings down bounds how long it goes on by
itself, in whatever order it works.  Where none is left to take it has settled,
and it can always get there; so what holds of every settled state holds once
the machine has been left alone for long enough.
-/
import GrpcEpub.Lib.Machine

namespace GrpcEpub

namespace Machine

variable {σ α : Type} {M : Machine σ α} {own : α → Prop} {rank : σ → Nat}

/-- None of the machine's own actions is enabled. -/
def Settled (M : Machine σ α) (own : α → Prop) (s : σ) : Prop :=
  ∀ a, own a → M.step s a = none

/-- In every reachable state, an own action brings the rank down. -/
def Falls (M : Machine σ α) (own : α → Prop) (rank : σ → Nat) : Prop :=
  ∀ before s a s', M.Runs before s → own a → M.step s a = some s' → rank s' < rank s

theorem Runs.append {before as : List α} {s s' : σ} (h : M.Runs before s)
    (hexec : M.exec s as = some s') : M.Runs (before ++ as) s' := by
  unfold Runs at h ⊢
  rw [exec_append, h]
  exact hexec

/-- So many actions of its own, at most. -/
theorem Falls.length_add_le (h : M.Falls own rank) {as : List α} (hown : ∀ a ∈ as, own a) :
    ∀ {before : List α} {s s' : σ}, M.Runs before s → M.exec s as = some s' →
      as.length + rank s' ≤ rank s := by
  induction as with
  | nil =>
      intro before s s' hruns hexec
      cases hexec
      exact (Nat.zero_add _).le
  | cons a rest ih =>
      intro before s s' hruns hexec
      unfold exec at hexec
      split at hexec
      · rename_i s₁ hstep
        have hfall := h before s a s₁ hruns (hown a List.mem_cons_self) hstep
        have hrest := ih (fun b hb => hown b (List.mem_cons_of_mem a hb))
          (runs_concat.mpr ⟨s, hruns, hstep⟩) hexec
        rw [List.length_cons]
        omega
      · cases hexec

/-- The machine can be left alone until it settles. -/
theorem Falls.settles (h : M.Falls own rank) {before : List α} {s : σ} (hruns : M.Runs before s) :
    ∃ as s', (∀ a ∈ as, own a) ∧ M.exec s as = some s' ∧ M.Settled own s' := by
  induction hrank : rank s using Nat.strongRecOn generalizing before s with
  | ind n ih =>
      by_cases hsettled : M.Settled own s
      · exact ⟨[], s, List.forall_mem_nil _, rfl, hsettled⟩
      unfold Settled at hsettled
      push Not at hsettled
      obtain ⟨a, ha, henabled⟩ := hsettled
      obtain ⟨s₁, hstep⟩ := Option.ne_none_iff_exists'.mp henabled
      obtain ⟨as, s', hown, hexec, hend⟩ := ih (rank s₁) (hrank ▸ h before s a s₁ hruns ha hstep)
        (runs_concat.mpr ⟨s, hruns, hstep⟩) rfl
      refine ⟨a :: as, s', ?_, (exec_cons as hstep).trans hexec, hend⟩
      intro b hb
      rcases List.mem_cons.mp hb with rfl | hb
      · exact ha
      · exact hown b hb

end Machine

end GrpcEpub
