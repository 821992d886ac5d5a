import Mathlib.Data.List.DropRight
import NamedConstants.Proofs.Solver.Recorder

/-!
The record of a solver as an account of what is installed. The recorded calls can be carried
out again on what was installed when the record was last cleared: every installation finds its
token free, every replacement and removal finds its token in use, and they lead to what is
installed now, in the same order. For what is granted is recorded as it was done, and what is
refused is neither done nor recorded. A call to optimize is recorded however it ends.
-/
namespace NamedConstants

variable {σ : Type}

/-- Constraints under their tokens, in the order in which the tokens came into use. -/
abbrev InstalledMap (σ : Type) := InsertionMap SolverToken (LinearConstraint Float σ)

namespace SolverCall

def issued? : SolverCall σ → Option SolverToken
  | install token _ => some token
  | _ => none

/-- Carries a recorded call out on a map. An installation needs a token that is free, a
replacement and a removal one that is in use. -/
def carryOut? (m : InstalledMap σ) : SolverCall σ → Option (InstalledMap σ)
  | install token linear => if m.contains token then none else some (m.insert token linear)
  | replace token linear => if m.contains token then some (m.insert token linear) else none
  | remove token => if m.contains token then some (m.erase token) else none
  | reoptimize => some m

def replay (m : InstalledMap σ) (calls : List (SolverCall σ)) : Option (InstalledMap σ) :=
  calls.foldlM carryOut? m

variable {m m' : InstalledMap σ}

theorem replay_append_singleton {calls : List (SolverCall σ)} (h : replay m calls = some m')
    (call : SolverCall σ) : replay m (calls ++ [call]) = carryOut? m' call := by
  have hsplit : replay m (calls ++ [call]) = (replay m calls).bind fun m => replay m [call] :=
    List.foldlM_append
  rw [hsplit, h, Option.bind_some, replay]
  simp

/-- Only an installation puts a token to use. -/
theorem contains_of_carryOut? {call : SolverCall σ} (hcarry : carryOut? m call = some m')
    (hissued : call.issued? = none) {token : SolverToken} (h : m'.contains token = true) :
    m.contains token = true := by
  cases call with
  | install other linear => cases hissued
  | replace other linear =>
    simp only [carryOut?, Option.ite_none_right_eq_some, Option.some.injEq] at hcarry
    obtain ⟨hother, rfl⟩ := hcarry
    simp only [InsertionMap.contains_insert, Bool.or_eq_true, decide_eq_true_eq] at h
    rcases h with rfl | htoken
    · exact hother
    · exact htoken
  | remove other =>
    simp only [carryOut?, Option.ite_none_right_eq_some, Option.some.injEq] at hcarry
    obtain ⟨-, rfl⟩ := hcarry
    simp only [InsertionMap.contains_erase, Bool.and_eq_true] at h
    exact h.2
  | reoptimize =>
    cases hcarry
    exact h

end SolverCall

inductive SolverOperation (σ : Type) where
  | install (linear : LinearConstraint Float σ)
  | replace (token : SolverToken) (linear : LinearConstraint Float σ)
  | remove (token : SolverToken)
  | reoptimize
  | failReoptimize (detail : Option String)
  | clearCalls

namespace SolverOperation

def call? (next : SolverToken) : SolverOperation σ → Option (SolverCall σ)
  | install linear => some (.install next linear)
  | replace token linear => some (.replace token linear)
  | remove token => some (.remove token)
  | reoptimize => some .reoptimize
  | failReoptimize _ => none
  | clearCalls => none

def clears : SolverOperation σ → Bool
  | clearCalls => true
  | _ => false

theorem eq_clearCalls {op : SolverOperation σ} (h : op.clears = true) : op = .clearCalls := by
  cases op with
  | clearCalls => rfl
  | _ => cases h

end SolverOperation

inductive SolverReply where
  | issued (token : SolverToken)
  | done
  | refused (failure : SolverFailure)
  /-- The constraints could not be optimized. -/
  | unsolved (infeasible : Infeasible)

def SolverReply.issued? : SolverReply → Option SolverToken
  | issued token => some token
  | _ => none

structure SolverStep (σ : Type) where
  operation : SolverOperation σ
  refusal : List (SolverCall σ) → LinearConstraint Float σ → Option String := fun _ _ => none

namespace Recorder

def perform (s : Recorder σ) : SolverOperation σ → SolverReply × Recorder σ
  | .install linear =>
    match s.install linear with
    | .ok (token, s') => (.issued token, s')
    | .error infeasible => (.refused (.infeasible infeasible), s)
  | .replace token linear =>
    match s.replace token linear with
    | .ok s' => (.done, s')
    | .error failure => (.refused failure, s)
  | .remove token =>
    match s.remove token with
    | .ok s' => (.done, s')
    | .error misuse => (.refused (.misuse misuse), s)
  | .reoptimize =>
    match s.reoptimize with
    | (.ok (), s') => (.done, s')
    | (.error infeasible, s') => (.unsolved infeasible, s')
  | .failReoptimize detail => (.done, s.failReoptimize detail)
  | .clearCalls => (.done, s.clearCalls)

def deciding (s : Recorder σ) (step : SolverStep σ) : Recorder σ :=
  { s with refusal := step.refusal }

def step (s : Recorder σ) (step : SolverStep σ) : SolverReply × Recorder σ :=
  (s.deciding step).perform step.operation

def run (s : Recorder σ) (steps : List (SolverStep σ)) : Recorder σ :=
  steps.foldl (fun s step => (s.step step).2) s

def tokens (s : Recorder σ) : List (SolverStep σ) → List SolverToken
  | [] => []
  | step :: steps => (s.step step).1.issued?.toList ++ (s.step step).2.tokens steps

/-- A run up to the last time that the record is cleared; nothing of it if this never happens. -/
def untilCleared (steps : List (SolverStep σ)) : List (SolverStep σ) :=
  steps.rdropWhile fun step => !step.operation.clears

/-- The operation is about a token that is not in use, or about a constraint that is refused. -/
def Forbids (s : Recorder σ) : SolverOperation σ → Prop
  | .install linear => (s.refusal s.calls linear).isSome
  | .replace token linear =>
    s.installed.contains token = false ∨ (s.refusal s.calls linear).isSome
  | .remove token => s.installed.contains token = false
  | _ => False

inductive Outcome (s : Recorder σ) : SolverOperation σ → SolverReply → Recorder σ → Prop where
  | refused (op : SolverOperation σ) (failure : SolverFailure) (hforbids : s.Forbids op) :
      Outcome s op (.refused failure) s
  | issued (linear : LinearConstraint Float σ) (hforbids : ¬ s.Forbids (.install linear)) :
      Outcome s (.install linear) (.issued s.nextToken)
        { s with
          installed := s.installed.insert s.nextToken linear
          nextToken := s.nextToken + 1
          calls := s.calls ++ [.install s.nextToken linear] }
  /-- A call that hands out no token is carried out and recorded. -/
  | recorded (op : SolverOperation σ) (reply : SolverReply) (call : SolverCall σ)
      (m : InstalledMap σ) (hforbids : ¬ s.Forbids op) (hreply : reply.issued? = none)
      (hrefused : ∀ failure, reply ≠ .refused failure)
      (hcall : op.call? s.nextToken = some call) (hissued : call.issued? = none)
      (hcarry : call.carryOut? s.installed = some m) :
      Outcome s op reply { s with installed := m, calls := s.calls ++ [call] }
  | told (detail : Option String) :
      Outcome s (.failReoptimize detail) .done { s with optimizeFailure := detail }
  | cleared : Outcome s .clearCalls .done { s with calls := [] }

theorem outcome_perform (s : Recorder σ) (op : SolverOperation σ) :
    s.Outcome op (s.perform op).1 (s.perform op).2 := by
  cases op with
  | install linear =>
    simp only [perform]
    cases hinstall : s.install linear with
    | error infeasible =>
      exact .refused _ _ (by simp [Forbids, install_eq_error hinstall])
    | ok result =>
      obtain ⟨token, s'⟩ := result
      obtain ⟨rfl, rfl⟩ := install_eq_ok hinstall
      exact .issued linear (by simp [Forbids, refusal_of_install hinstall])
  | replace token linear =>
    simp only [perform]
    cases hreplace : s.replace token linear with
    | error failure =>
      refine .refused _ _ ?_
      rcases replace_eq_error hreplace with ⟨hnot, -⟩ | ⟨detail, hrefusal, -⟩
      · exact Or.inl hnot
      · exact Or.inr (by simp [hrefusal])
    | ok s' =>
      obtain ⟨hcontains, rfl⟩ := replace_eq_ok hreplace
      refine .recorded _ .done (.replace token linear) _ ?_ rfl (by simp) rfl rfl ?_
      · simp [Forbids, hcontains, refusal_of_replace hreplace]
      · simp [SolverCall.carryOut?, hcontains]
  | remove token =>
    simp only [perform]
    cases hremove : s.remove token with
    | error misuse => exact .refused _ _ (not_contains_of_remove_misuse hremove)
    | ok s' =>
      obtain ⟨hcontains, rfl⟩ := remove_eq_ok hremove
      refine .recorded _ .done (.remove token) _ ?_ rfl (by simp) rfl rfl ?_
      · simp [Forbids, hcontains]
      · simp [SolverCall.carryOut?, hcontains]
  | reoptimize =>
    simp only [perform, reoptimize]
    cases s.optimizeFailure with
    | none => exact .recorded _ .done .reoptimize _ not_false rfl (by simp) rfl rfl rfl
    | some detail =>
      exact .recorded _ (.unsolved _) .reoptimize _ not_false rfl (by simp) rfl rfl rfl
  | failReoptimize detail => exact .told detail
  | clearCalls => exact .cleared

variable {s s' : Recorder σ} {op : SolverOperation σ} {reply : SolverReply}

namespace Outcome

/-- An operation is refused exactly if it is forbidden. -/
theorem refused_iff (h : s.Outcome op reply s') :
    (∃ failure, reply = .refused failure) ↔ s.Forbids op := by
  cases h with
  | refused op failure hforbids => exact ⟨fun _ => hforbids, fun _ => ⟨failure, rfl⟩⟩
  | issued linear hforbids => exact ⟨nofun, fun h => absurd h hforbids⟩
  | recorded op reply call m hforbids hreply hrefused hcall hissued hcarry =>
    exact ⟨fun ⟨failure, h⟩ => absurd h (hrefused failure), fun h => absurd h hforbids⟩
  | told detail => exact ⟨nofun, nofun⟩
  | cleared => exact ⟨nofun, nofun⟩

theorem eq_of_refused (h : s.Outcome op reply s') {failure : SolverFailure}
    (hreply : reply = .refused failure) : s' = s := by
  cases h with
  | refused op failure hforbids => rfl
  | issued linear hforbids => cases hreply
  | recorded op reply call m hforbids hissued hrefused => exact absurd hreply (hrefused failure)
  | told detail => cases hreply
  | cleared => cases hreply

/-- What is not refused is recorded, unless it is about the record itself. -/
theorem calls_eq (h : s.Outcome op reply s') (hforbids : ¬ s.Forbids op) :
    s'.calls = if op.clears then [] else s.calls ++ (op.call? s.nextToken).toList := by
  cases h with
  | refused op failure h => exact absurd h hforbids
  | issued linear => rfl
  | recorded op reply call m _ _ _ hcall =>
    cases hclears : op.clears with
    | false => simp [hcall]
    | true =>
      rw [SolverOperation.eq_clearCalls hclears] at hcall
      cases hcall
  | told detail => exact (List.append_nil _).symm
  | cleared => rfl

end Outcome

/-- The record accounts for what is installed: it leads there from what was installed when the
record was cleared, and the tokens that were handed out are numbered from 1. -/
structure Account (base : InstalledMap σ) (issued : List SolverToken) (s : Recorder σ) : Prop where
  replay_eq : SolverCall.replay base s.calls = some s.installed
  issued_eq : issued = (List.range issued.length).map fun i : Nat => 1 + (i : Int)
  nextToken_eq : s.nextToken = 1 + (issued.length : Int)
  unused : ∀ token, s.installed.contains token = true → token < s.nextToken

variable {base : InstalledMap σ} {issued : List SolverToken}

theorem account_empty : Account ∅ [] ({} : Recorder σ) where
  replay_eq := rfl
  issued_eq := rfl
  nextToken_eq := rfl
  unused token h := by cases h

namespace Account

theorem issue (h : Account base issued s) (linear : LinearConstraint Float σ) :
    Account base (issued ++ [s.nextToken])
      { s with
        installed := s.installed.insert s.nextToken linear
        nextToken := s.nextToken + 1
        calls := s.calls ++ [.install s.nextToken linear] } where
  replay_eq := by
    have hfree : s.installed.contains s.nextToken = false := by
      by_contra hcontains
      exact absurd (h.unused _ (by simpa using hcontains)) (Int.lt_irrefl _)
    rw [SolverCall.replay_append_singleton h.replay_eq, SolverCall.carryOut?, hfree]
    rfl
  issued_eq := by
    rw [List.length_append, List.length_singleton, List.range_succ, List.map_append,
      ← h.issued_eq, h.nextToken_eq]
    rfl
  nextToken_eq := by
    rw [List.length_append, List.length_singleton, h.nextToken_eq, Int.natCast_add]
    exact Int.add_assoc _ _ _
  unused token htoken := by
    simp only [InsertionMap.contains_insert, Bool.or_eq_true, decide_eq_true_eq] at htoken
    rcases htoken with rfl | hcontains
    · exact Int.lt_succ _
    · exact Int.lt_trans (h.unused token hcontains) (Int.lt_succ _)

theorem record (h : Account base issued s) {call : SolverCall σ} {m : InstalledMap σ}
    (hissued : call.issued? = none) (hcarry : call.carryOut? s.installed = some m) :
    Account base issued { s with installed := m, calls := s.calls ++ [call] } where
  replay_eq := (SolverCall.replay_append_singleton h.replay_eq call).trans hcarry
  issued_eq := h.issued_eq
  nextToken_eq := h.nextToken_eq
  unused token htoken := h.unused token (SolverCall.contains_of_carryOut? hcarry hissued htoken)

/-- Clearing the record starts a new one, from what is installed then. -/
theorem clear (h : Account base issued s) : Account s.installed issued { s with calls := [] } where
  replay_eq := rfl
  issued_eq := h.issued_eq
  nextToken_eq := h.nextToken_eq
  unused := h.unused

theorem outcome (h : Account base issued s) (ho : s.Outcome op reply s')
    (hclears : op.clears = false) : Account base (issued ++ reply.issued?.toList) s' := by
  cases ho with
  | refused op failure hforbids => exact (List.append_nil issued).symm ▸ h
  | issued linear hforbids => exact h.issue linear
  | recorded op reply call m hforbids hreply hrefused hcall hissued hcarry =>
    rw [hreply, Option.toList_none, List.append_nil]
    exact h.record hissued hcarry
  | told detail =>
    exact (List.append_nil issued).symm ▸ ⟨h.replay_eq, h.issued_eq, h.nextToken_eq, h.unused⟩
  | cleared => cases hclears

end Account

theorem run_append_singleton (s : Recorder σ) (steps : List (SolverStep σ)) (step : SolverStep σ) :
    s.run (steps ++ [step]) = ((s.run steps).step step).2 := by
  simp [run]

theorem tokens_append_singleton (s : Recorder σ) (steps : List (SolverStep σ))
    (step : SolverStep σ) :
    s.tokens (steps ++ [step]) = s.tokens steps ++ ((s.run steps).step step).1.issued?.toList := by
  induction steps generalizing s with
  | nil => simp [tokens, run]
  | cons first steps ih =>
    rw [List.cons_append, tokens, ih, tokens, List.append_assoc]
    rfl

theorem untilCleared_append_of_clears (steps : List (SolverStep σ)) {step : SolverStep σ}
    (h : step.operation.clears = true) : untilCleared (steps ++ [step]) = steps ++ [step] :=
  List.rdropWhile_concat_neg _ _ _ (by simp [h])

theorem untilCleared_append (steps : List (SolverStep σ)) {step : SolverStep σ}
    (h : step.operation.clears = false) :
    untilCleared (steps ++ [step]) = untilCleared steps :=
  List.rdropWhile_concat_pos _ _ _ (by simp [h])

theorem account_run (steps : List (SolverStep σ)) :
    Account (run {} (untilCleared steps)).installed (tokens {} steps)
      (run {} steps : Recorder σ) := by
  induction steps using List.reverseRecOn with
  | nil => exact account_empty
  | append_singleton steps step ih =>
    have hdeciding : Account (run {} (untilCleared steps)).installed (tokens {} steps)
        ((run {} steps : Recorder σ).deciding step) :=
      ⟨ih.replay_eq, ih.issued_eq, ih.nextToken_eq, ih.unused⟩
    have houtcome := ((run {} steps : Recorder σ).deciding step).outcome_perform step.operation
    rw [run_append_singleton, tokens_append_singleton]
    cases hclears : step.operation.clears with
    | false =>
      rw [untilCleared_append steps hclears]
      exact hdeciding.outcome houtcome hclears
    | true =>
      have hstep : (run {} steps : Recorder σ).step step =
          (.done, ((run {} steps : Recorder σ).deciding step).clearCalls) := by
        rw [Recorder.step, SolverOperation.eq_clearCalls hclears]
        rfl
      rw [untilCleared_append_of_clears steps hclears, run_append_singleton, hstep]
      exact (List.append_nil _).symm ▸ hdeciding.clear

/-- After any operations, whatever was refused at each of them, the record leads from what was
installed when it was cleared last, or from nothing, to what is installed now, in the same
order. The tokens that were handed out are numbered from 1. The next operation is refused if and
only if it is about a token that is not in use or about a constraint that is refused; then it
changes neither the map nor the record nor the next token, and otherwise it is recorded. -/
theorem record_accounts_for_installed (steps : List (SolverStep σ)) :
    let s : Recorder σ := run {} steps
    SolverCall.replay (run {} (untilCleared steps)).installed s.calls = some s.installed ∧
    tokens {} steps = (List.range (tokens {} steps).length).map (fun i : Nat => 1 + (i : Int)) ∧
    ∀ step : SolverStep σ,
      let reply := (s.step step).1
      let after := (s.step step).2
      ((∃ failure, reply = .refused failure) ↔ (s.deciding step).Forbids step.operation) ∧
      (∀ failure, reply = .refused failure → after.installed = s.installed ∧
        after.calls = s.calls ∧ after.nextToken = s.nextToken) ∧
      (¬ (s.deciding step).Forbids step.operation → after.calls =
        if step.operation.clears then []
        else s.calls ++ (step.operation.call? s.nextToken).toList) := by
  intro s
  have haccount := account_run steps
  refine ⟨haccount.replay_eq, haccount.issued_eq, fun step => ?_⟩
  have houtcome := (s.deciding step).outcome_perform step.operation
  refine ⟨houtcome.refused_iff, fun failure hreply => ?_, houtcome.calls_eq⟩
  have heq : (s.step step).2 = s.deciding step := houtcome.eq_of_refused hreply
  rw [heq]
  exact ⟨rfl, rfl, rfl⟩

/-- A refused installation uses no token up, and a removed token does not come back. -/
example (a b : LinearConstraint Float σ) :
    let steps : List (SolverStep σ) :=
      [{ operation := .install a },
        { operation := .install b, refusal := fun _ _ => some "too far" },
        { operation := .remove 1 }, { operation := .clearCalls }, { operation := .install b },
        { operation := .replace 1 a }]
    tokens {} steps = [1, 2] ∧ (run {} steps).calls = [.install 2 b] ∧
      (run {} steps).installed.entries = [(2, b)] :=
  ⟨rfl, rfl, rfl⟩

end Recorder

end NamedConstants
