import Permission.Proofs.Guard

/-!
# Questions to one guard

One guard answers a list of questions, each with the cache that the earlier ones left.  Main
statement: `Guard.session_answers`, every answer is the one that the binding gets when nothing is
kept at all.
-/

set_option autoImplicit false

namespace Permission

inductive Question where
  | decision (binding : Binding) (granted : String → Bool)
  | permission (binding : Binding) (granted : String → Bool)

def Question.binding : Question → Binding
  | .decision binding _ => binding
  | .permission binding _ => binding

inductive Answer where
  | decision (decided : Except CompilationError Decision)
  | permission (permitted : Except CompilationError Bool)

/-- The decision on a binding when its predicate is evaluated afresh. -/
def Binding.plainDecision (granted : String → Bool) :
    Binding → Except CompilationError Decision
  | .source text =>
    match compile text with
    | .error error => .error error
    | .ok compiled =>
      if compiled.holds granted then .ok .allow
      else .ok (.deny ("`" ++ text ++ "` is not satisfied"))
  | .predicate bound =>
    if bound.holds granted then .ok .allow
    else .ok (.deny ("`" ++ bound.display ++ "` is not satisfied"))

def Binding.plainPermission (granted : String → Bool) : Binding → Except CompilationError Bool
  | .source text =>
    match compile text with
    | .error error => .error error
    | .ok compiled => .ok (compiled.holds granted)
  | .predicate bound => .ok (bound.holds granted)

theorem Binding.plainDecision_eq (binding : Binding) (granted : String → Bool) :
    binding.required.map (fun predicate => .ofResult binding (predicate.holds granted)) =
      binding.plainDecision granted := by
  have decided (predicate : Predicate) :
      Except.ok (Decision.ofResult binding (predicate.holds granted)) =
        (if predicate.holds granted then .ok .allow
          else .ok (.deny ("`" ++ binding.display ++ "` is not satisfied")) :
            Except CompilationError Decision) := by
    rw [Decision.ofResult]
    exact apply_ite Except.ok _ _ _
  cases binding with
  | source text =>
      rw [required, plainDecision]
      cases compile text with
      | error error => rfl
      | ok predicate => exact decided predicate
  | predicate bound => exact decided bound

theorem Binding.plainPermission_eq (binding : Binding) (granted : String → Bool) :
    binding.required.map (Predicate.holds granted) = binding.plainPermission granted := by
  cases binding with
  | source text =>
      rw [required, plainPermission]
      cases compile text <;> rfl
  | predicate bound => rfl

def Question.plainAnswer : Question → Answer
  | .decision binding granted => .decision (binding.plainDecision granted)
  | .permission binding granted => .permission (binding.plainPermission granted)

namespace Guard

def answer (guard : Guard) : Question → Answer × Guard
  | .decision binding granted =>
    let (decided, after) := guard.decision binding granted
    (.decision decided, after)
  | .permission binding granted =>
    let (permitted, after) := guard.isPermitted binding granted
    (.permission permitted, after)

def session (guard : Guard) : List Question → List Answer × Guard
  | [] => ([], guard)
  | question :: later =>
    let (first, after) := guard.answer question
    let (others, last) := after.session later
    (first :: others, last)

theorem answer_faithful {guard : Guard} (faithful : guard.Faithful) (question : Question) :
    (guard.answer question).1 = question.plainAnswer ∧ (guard.answer question).2.Faithful := by
  cases question with
  | decision binding granted =>
      obtain ⟨decided, after⟩ := decision_faithful faithful binding granted
      rw [Binding.plainDecision_eq] at decided
      exact ⟨congrArg Answer.decision decided, after⟩
  | permission binding granted =>
      have permitted := isPermitted_faithful faithful binding granted
      rw [Binding.plainPermission_eq] at permitted
      exact ⟨congrArg Answer.permission permitted, (decision_faithful faithful binding granted).2⟩

theorem session_faithful {guard : Guard} (faithful : guard.Faithful) (questions : List Question) :
    (guard.session questions).1 = questions.map Question.plainAnswer ∧
      (guard.session questions).2.Faithful := by
  induction questions generalizing guard with
  | nil => exact ⟨rfl, faithful⟩
  | cons question later ih =>
      obtain ⟨first, after⟩ := answer_faithful faithful question
      obtain ⟨others, last⟩ := ih after
      constructor
      · rw [List.map_cons, ← first, ← others]
        rfl
      · exact last

theorem isPermitted_iff_allow (guard : Guard) (binding : Binding) (granted : String → Bool) :
    (guard.isPermitted binding granted).1 = .ok true ↔
      (guard.decision binding granted).1 = .ok .allow := by
  change (guard.decision binding granted).1.map Decision.isAllowed = .ok true ↔ _
  cases (guard.decision binding granted).1 with
  | error error => simp [Except.map]
  | ok decision => cases decision <;> simp [Except.map, Decision.isAllowed]

/-- Whatever a guard was asked before and however few sources it keeps, it answers as if it kept
none, and it permits exactly what it decides to allow. -/
theorem session_answers (capacity : Nat) (positive : 0 < capacity) (questions : List Question) :
    ((withCapacity capacity positive).session questions).1 = questions.map Question.plainAnswer ∧
      ∀ (binding : Binding) (granted : String → Bool),
        (((withCapacity capacity positive).session questions).2.isPermitted binding granted).1 =
            .ok true ↔
          (((withCapacity capacity positive).session questions).2.decision binding granted).1 =
            .ok .allow := by
  have faithful : (withCapacity capacity positive).Faithful :=
    (Reached.start capacity positive).faithful
  constructor
  · exact (session_faithful faithful questions).1
  · intro binding granted
    exact isPermitted_iff_allow _ binding granted

theorem session_answers_evicting :
    0 < 1 ∧
      ((withCapacity 1 (by decide)).session
          [.permission (.source "a") (· == "a"), .decision (.source "b") (· == "a"),
            .decision (.source "eve()") (· == "a"), .decision (.source "a") (· == "b")]).1 =
        [.permission (Binding.plainPermission (· == "a") (.source "a")),
          .decision (Binding.plainDecision (· == "a") (.source "b")),
          .decision (Binding.plainDecision (· == "a") (.source "eve()")),
          .decision (Binding.plainDecision (· == "b") (.source "a"))] :=
  ⟨by decide, (session_answers 1 (by decide) _).1⟩

end Guard
end Permission
