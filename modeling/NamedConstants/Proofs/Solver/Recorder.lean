import NamedConstants.Solver.Recorder
import NamedConstants.Proofs.InsertionMap

/-!
What a granted request does to a recording solver, and which requests are misuses.
-/
namespace NamedConstants.Recorder

variable {σ : Type} {s s' : Recorder σ} {token : SolverToken} {linear : LinearConstraint Float σ}

theorem count_record (s : Recorder σ) (call : SolverCall σ) (kind : SolverCall.Kind) :
    (s.record call).count kind = s.count kind + if call.kind = kind then 1 else 0 := by
  simp [count, record, List.countP_append, List.countP_singleton]

theorem install_eq_ok (h : s.install linear = .ok (token, s')) :
    token = s.nextToken ∧
      s' = { s with
        installed := s.installed.insert token linear
        nextToken := token + 1
        calls := s.calls ++ [.install token linear] } := by
  unfold install at h
  cases hrefusal : s.refusal s.calls linear with
  | some detail => simp [hrefusal] at h
  | none =>
    simp only [hrefusal, Except.ok.injEq, Prod.mk.injEq] at h
    obtain ⟨rfl, rfl⟩ := h
    exact ⟨rfl, rfl⟩

theorem replace_eq_ok (h : s.replace token linear = .ok s') :
    s.installed.contains token = true ∧
      s' = { s with
        installed := s.installed.insert token linear
        calls := s.calls ++ [.replace token linear] } := by
  unfold replace at h
  cases hcontains : s.installed.contains token with
  | false => simp [hcontains] at h
  | true =>
    cases hrefusal : s.refusal s.calls linear with
    | some detail => simp [hcontains, hrefusal] at h
    | none =>
      simp only [hcontains, hrefusal, if_true, Except.ok.injEq] at h
      exact ⟨rfl, h.symm⟩

theorem remove_eq_ok (h : s.remove token = .ok s') :
    s.installed.contains token = true ∧
      s' = { s with
        installed := s.installed.erase token
        calls := s.calls ++ [.remove token] } := by
  unfold remove at h
  cases hcontains : s.installed.contains token with
  | false => simp [hcontains] at h
  | true =>
    simp only [hcontains, if_true, Except.ok.injEq] at h
    exact ⟨rfl, h.symm⟩

theorem install_eq_error {infeasible : Infeasible} (h : s.install linear = .error infeasible) :
    s.refusal s.calls linear = some infeasible.detail := by
  unfold install at h
  cases hrefusal : s.refusal s.calls linear with
  | some detail =>
    simp only [hrefusal, Except.error.injEq] at h
    rw [← h]
  | none => simp [hrefusal] at h

theorem refusal_of_install {result : SolverToken × Recorder σ} (h : s.install linear = .ok result) :
    s.refusal s.calls linear = none := by
  unfold install at h
  cases hrefusal : s.refusal s.calls linear with
  | some detail => simp [hrefusal] at h
  | none => rfl

theorem refusal_of_replace (h : s.replace token linear = .ok s') :
    s.refusal s.calls linear = none := by
  have hcontains := (replace_eq_ok h).1
  unfold replace at h
  cases hrefusal : s.refusal s.calls linear with
  | some detail => simp [hcontains, hrefusal] at h
  | none => rfl

/-- A replacement is a misuse of a token that is not installed, or it is refused. -/
theorem replace_eq_error {failure : SolverFailure} (h : s.replace token linear = .error failure) :
    (s.installed.contains token = false ∧ ∃ misuse, failure = .misuse misuse) ∨
      ∃ detail, s.refusal s.calls linear = some detail ∧ failure = .infeasible { detail } := by
  unfold replace at h
  cases hcontains : s.installed.contains token with
  | false =>
    simp only [hcontains, Bool.false_eq_true, if_false, Except.error.injEq] at h
    exact Or.inl ⟨rfl, _, h.symm⟩
  | true =>
    cases hrefusal : s.refusal s.calls linear with
    | some detail =>
      simp only [hcontains, hrefusal, if_true, Except.error.injEq] at h
      exact Or.inr ⟨detail, rfl, h.symm⟩
    | none => simp [hcontains, hrefusal] at h

theorem not_contains_of_remove_misuse {misuse : SolverMisuse}
    (h : s.remove token = .error misuse) : s.installed.contains token = false := by
  unfold remove at h
  cases hcontains : s.installed.contains token with
  | false => rfl
  | true => simp [hcontains] at h

end NamedConstants.Recorder
