import Permission.Guard

/-!
# The predicates that a guard keeps

What a guard keeps for a source is the predicate that the source compiles to.  This holds of a
guard without entries and after every decision, so a kept predicate answers as a compiled one.
-/

set_option autoImplicit false

namespace Permission
namespace Cache

variable {Key Value : Type} [DecidableEq Key]

theorem mem_of_find {cache : Cache Key Value} {key : Key} {value : Value}
    (found : (cache.find key).1 = some value) : (key, value) ∈ cache.entries := by
  unfold find at found
  split at found
  · cases found
  · rename_i kept known
    cases found
    obtain ⟨newer, older, split, _⟩ := List.lookup_eq_some_iff.mp known
    rw [split]
    simp

theorem mem_entries_of_find {cache : Cache Key Value} {key : Key} {entry : Key × Value}
    (member : entry ∈ (cache.find key).2.entries) : entry ∈ cache.entries := by
  unfold find at member
  split at member
  · exact member
  · rename_i kept known
    rcases List.mem_cons.mp member with rfl | other
    · obtain ⟨newer, older, split, _⟩ := List.lookup_eq_some_iff.mp known
      rw [split]
      simp
    · exact (List.mem_filter.mp other).1

theorem mem_entries_of_insert {cache : Cache Key Value} {key : Key} {value : Value}
    {entry : Key × Value} (member : entry ∈ (cache.insert key value).entries) :
    entry = (key, value) ∨ entry ∈ cache.entries := by
  rcases List.mem_cons.mp (List.mem_of_mem_take member) with same | other
  · exact Or.inl same
  · exact Or.inr ((List.mem_filter.mp other).1)

end Cache

def Binding.required : Binding → Except CompilationError Predicate
  | .source text => compile text
  | .predicate bound => .ok bound

namespace Guard

/-- Every source that is kept has the predicate that it compiles to. -/
def Faithful (guard : Guard) : Prop :=
  ∀ entry ∈ guard.compiled.entries, compile entry.1 = .ok entry.2

theorem resolve_faithful {guard : Guard} (faithful : guard.Faithful) (source : String) :
    (guard.resolve source).1 = compile source ∧ (guard.resolve source).2.Faithful := by
  cases found : guard.compiled.find source with
  | mk kept compiled =>
      have keptEntry := congrArg Prod.fst found
      have keptCache := congrArg Prod.snd found
      -- A hit only reorders the entries; a miss adds one that was just compiled.
      cases kept with
      | some predicate =>
          rw [resolve, found]
          refine ⟨(faithful _ (Cache.mem_of_find keptEntry)).symm, ?_⟩
          intro entry member
          have kept : entry ∈ (guard.compiled.find source).2.entries := by
            rw [keptCache]
            exact member
          exact faithful entry (Cache.mem_entries_of_find kept)
      | none =>
          rw [resolve, found]
          cases result : compile source with
          | error error => exact ⟨rfl, faithful⟩
          | ok predicate =>
              refine ⟨rfl, ?_⟩
              intro entry member
              rcases Cache.mem_entries_of_insert member with rfl | earlier
              · exact result
              · exact faithful entry earlier

theorem predicateOf_faithful {guard : Guard} (faithful : guard.Faithful) (binding : Binding) :
    (guard.predicateOf binding).1 = binding.required ∧
      (guard.predicateOf binding).2.Faithful := by
  cases binding with
  | source text => exact resolve_faithful faithful text
  | predicate bound => exact ⟨rfl, faithful⟩

theorem decision_faithful {guard : Guard} (faithful : guard.Faithful) (binding : Binding)
    (granted : String → Bool) :
    (guard.decision binding granted).1 =
        binding.required.map (fun predicate => .ofResult binding (predicate.holds granted)) ∧
      (guard.decision binding granted).2.Faithful := by
  obtain ⟨answer, after⟩ := predicateOf_faithful faithful binding
  refine ⟨?_, after⟩
  rw [← answer]
  rfl

theorem isAllowed_ofResult (binding : Binding) (result : Bool) :
    (Decision.ofResult binding result).isAllowed = result := by
  cases result <;> rfl

theorem isPermitted_faithful {guard : Guard} (faithful : guard.Faithful) (binding : Binding)
    (granted : String → Bool) :
    (guard.isPermitted binding granted).1 =
      binding.required.map (Predicate.holds granted) := by
  change (guard.decision binding granted).1.map Decision.isAllowed = _
  rw [(decision_faithful faithful binding granted).1]
  cases binding.required with
  | error error => rfl
  | ok predicate => exact congrArg Except.ok (isAllowed_ofResult binding _)

/-- The guards that come from one without entries by deciding. -/
inductive Reached : Guard → Prop
  | start (capacity : Nat) (positive : 0 < capacity) : Reached (withCapacity capacity positive)
  | decided {guard : Guard} (reached : Reached guard) (binding : Binding)
      (granted : String → Bool) : Reached (guard.decision binding granted).2

theorem Reached.faithful {guard : Guard} (reached : Reached guard) : guard.Faithful := by
  induction reached with
  | start capacity positive =>
      intro entry absent
      cases absent
  | decided reached binding granted ih => exact (decision_faithful ih binding granted).2

end Guard
end Permission
