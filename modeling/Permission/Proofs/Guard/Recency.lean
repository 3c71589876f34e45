import Mathlib.Data.Finset.Card
import Permission.Proofs.Guard.Sessions

/-!
# Which sources a guard keeps

A guard keeps the sources that it used last.  Reading the used texts from the last one back and
leaving out repetitions gives the kept keys in their order, cut off at the capacity.  Main
statement: `Guard.session_keeps_recent`.
-/

set_option autoImplicit false

namespace Permission

/-! ### Texts by their last use -/

/-- The distinct members of a list, the one that comes last in it first. -/
def lastFirst (texts : List String) : List String :=
  texts.reverse.eraseDups

theorem eraseDups_filter (keep : String → Bool) (texts : List String) :
    (texts.filter keep).eraseDups = texts.eraseDups.filter keep := by
  cases texts with
  | nil => rfl
  | cons first others =>
      have later := eraseDups_filter keep (others.filter fun other => !other == first)
      rw [List.filter_filter] at later
      rw [List.eraseDups_cons, List.filter_cons, List.filter_cons]
      cases kept : keep first with
      | true =>
          rw [if_pos rfl, if_pos rfl, List.eraseDups_cons, List.filter_filter, ← later]
          simp only [Bool.and_comm]
      | false =>
          rw [if_neg Bool.false_ne_true, if_neg Bool.false_ne_true, ← later]
          -- The text that is left out anyway is not among those that are kept.
          congr 1
          apply List.filter_congr
          intro other _
          by_cases same : other = first
          · rw [same, kept, Bool.false_and]
          · simp [same]
termination_by texts.length
decreasing_by
  have le := List.length_filter_le (fun other => !other == first) others
  simp only [List.length_cons]
  omega

theorem lastFirst_append (texts : List String) (text : String) :
    lastFirst (texts ++ [text]) = text :: (lastFirst texts).filter (· ≠ text) := by
  have test : (fun other : String => !other == text) = fun other => decide (other ≠ text) := by
    funext other
    rw [decide_not, beq_eq_decide]
  rw [lastFirst, List.reverse_append, List.reverse_singleton, List.singleton_append,
    List.eraseDups_cons, eraseDups_filter, test, lastFirst]

theorem mem_lastFirst {texts : List String} {text : String} :
    text ∈ lastFirst texts ↔ text ∈ texts := by
  rw [lastFirst, List.mem_eraseDups, List.mem_reverse]

theorem lastFirst_nodup (texts : List String) : (lastFirst texts).Nodup := by
  induction texts using List.reverseRecOn with
  | nil => exact List.nodup_nil
  | append_singleton texts text ih =>
      rw [lastFirst_append]
      apply List.nodup_cons.mpr
      constructor
      · simp
      · exact ih.filter _

theorem lastFirst_length (texts : List String) :
    (lastFirst texts).length = texts.toFinset.card := by
  rw [← List.toFinset_card_of_nodup (lastFirst_nodup texts)]
  congr 1
  ext text
  rw [List.mem_toFinset, List.mem_toFinset, mem_lastFirst]

theorem take_filter_ne (count : Nat) {texts : List String} (distinct : texts.Nodup)
    (text : String) :
    ((texts.take (count + 1)).filter (· ≠ text)).take count =
      (texts.filter (· ≠ text)).take count := by
  induction texts generalizing count with
  | nil => rfl
  | cons first others ih =>
      obtain ⟨absent, distinct⟩ := List.nodup_cons.mp distinct
      by_cases same : first = text
      · subst same
        have unchanged : others.filter (· ≠ first) = others := by
          apply List.filter_eq_self.mpr
          intro other member
          exact decide_eq_true fun equal => absent (equal ▸ member)
        have unchangedTake : (others.take count).filter (· ≠ first) = others.take count := by
          apply List.filter_eq_self.mpr
          intro other member
          exact decide_eq_true fun equal => absent (equal ▸ List.mem_of_mem_take member)
        rw [List.take_succ_cons, List.filter_cons_of_neg (by simp),
          List.filter_cons_of_neg (by simp), unchanged, unchangedTake, List.take_take, min_self]
      · rw [List.take_succ_cons, List.filter_cons_of_pos (by simp [same]),
          List.filter_cons_of_pos (by simp [same])]
        cases count with
        | zero => rfl
        | succ count => rw [List.take_succ_cons, List.take_succ_cons, ih count distinct]

/-! ### The keys of a cache -/

namespace Cache

variable {Value : Type}

theorem keys_others (cache : Cache String Value) (key : String) :
    (cache.others key).map Prod.fst = cache.keys.filter (· ≠ key) := by
  rw [others, keys, List.filter_map]
  rfl

theorem keys_find {cache : Cache String Value} {key : String} {value : Value}
    (found : (cache.find key).1 = some value) :
    (cache.find key).2.keys = key :: cache.keys.filter (· ≠ key) := by
  unfold find at found ⊢
  cases known : cache.entries.lookup key with
  | none =>
      rw [known] at found
      cases found
  | some kept => rw [← keys_others]; rfl

theorem keys_insert (cache : Cache String Value) (key : String) (value : Value) :
    (cache.insert key value).keys =
      (key :: cache.keys.filter (· ≠ key)).take cache.capacity := by
  rw [keys, insert, List.map_take, List.map_cons, keys_others]

theorem capacity_find (cache : Cache String Value) (key : String) :
    (cache.find key).2.capacity = cache.capacity := by
  unfold find
  split <;> rfl

theorem size_eq (cache : Cache String Value) : cache.size = cache.keys.length :=
  List.length_map Prod.fst |>.symm

end Cache

/-! ### The sources of a session -/

def Question.usedSource? (question : Question) : Option String :=
  match question.binding with
  | .source text =>
    match compile text with
    | .ok _ => some text
    | .error _ => none
  | .predicate _ => none

theorem Question.usedSource?_cases (question : Question) :
    (∃ text predicate, question.binding = .source text ∧ compile text = .ok predicate ∧
        question.usedSource? = some text) ∨
      (∃ text error, question.binding = .source text ∧ compile text = .error error ∧
        question.usedSource? = none) ∨
      ∃ predicate, question.binding = .predicate predicate ∧ question.usedSource? = none := by
  unfold usedSource?
  cases question.binding with
  | source text =>
      cases compiled : compile text with
      | ok predicate =>
          refine .inl ⟨text, predicate, rfl, compiled, ?_⟩
          simp only [compiled]
      | error error =>
          refine .inr (.inl ⟨text, error, rfl, compiled, ?_⟩)
          simp only [compiled]
  | predicate predicate => exact .inr (.inr ⟨predicate, rfl, rfl⟩)

def Question.usedSources (questions : List Question) : List String :=
  questions.filterMap usedSource?

namespace Guard

/-- A guard that has used the given texts keeps those that were used last. -/
structure KeepsLast (guard : Guard) (used : List String) : Prop where
  faithful : guard.Faithful
  keys : guard.compiled.keys = (lastFirst used).take guard.compiled.capacity

theorem KeepsLast.start (capacity : Nat) (positive : 0 < capacity) :
    (withCapacity capacity positive).KeepsLast [] where
  faithful := (Reached.start capacity positive).faithful
  keys := by
    change [] = [].take capacity
    rw [List.take_nil]

theorem KeepsLast.size_le {guard : Guard} {used : List String} (keeps : guard.KeepsLast used) :
    guard.compiled.size ≤ guard.compiled.capacity := by
  rw [Cache.size_eq, keeps.keys, List.length_take]
  exact Nat.min_le_left _ _

theorem KeepsLast.used_keys {guard : Guard} {used : List String} (keeps : guard.KeepsLast used)
    (text : String) :
    (text :: guard.compiled.keys.filter (· ≠ text)).take guard.compiled.capacity =
      (lastFirst (used ++ [text])).take guard.compiled.capacity := by
  obtain ⟨below, capacity⟩ := Nat.exists_eq_add_of_lt guard.compiled.positive
  rw [Nat.zero_add] at capacity
  rw [lastFirst_append, keeps.keys, capacity, List.take_succ_cons, List.take_succ_cons,
    take_filter_ne below (lastFirst_nodup used)]

theorem resolve_found {guard : Guard} {source : String} {predicate : Predicate}
    (found : (guard.compiled.find source).1 = some predicate) :
    guard.resolve source = (.ok predicate, { compiled := (guard.compiled.find source).2 }) := by
  rw [resolve]
  split
  · rename_i kept after same
    rw [same] at found
    cases found
    rw [same]
  · rename_i same
    rw [same] at found
    cases found

theorem resolve_missing {guard : Guard} {source : String}
    (missing : (guard.compiled.find source).1 = none) :
    (guard.resolve source).2 =
      match compile source with
      | .ok predicate => { compiled := guard.compiled.insert source predicate }
      | .error _ => guard := by
  rw [resolve]
  split
  · rename_i same
    rw [same] at missing
    cases missing
  · cases compile source <;> rfl

theorem KeepsLast.resolve_used {guard : Guard} {used : List String}
    (keeps : guard.KeepsLast used) {source : String} {predicate : Predicate}
    (compiled : compile source = .ok predicate) :
    (guard.resolve source).2.KeepsLast (used ++ [source]) ∧
      (guard.resolve source).2.compiled.capacity = guard.compiled.capacity := by
  have faithful := (resolve_faithful keeps.faithful source).2
  cases kept : (guard.compiled.find source).1 with
  | some value =>
      have capacity := guard.compiled.capacity_find source
      have size := Cache.find_size_le source keeps.size_le
      rw [Cache.size_eq] at size
      rw [resolve_found kept] at faithful ⊢
      refine ⟨⟨faithful, ?_⟩, capacity⟩
      -- No entry is lost here: one that is found again makes them no more than they were.
      calc (guard.compiled.find source).2.keys
          = (guard.compiled.find source).2.keys.take guard.compiled.capacity :=
            (List.take_of_length_le size).symm
        _ = (lastFirst (used ++ [source])).take guard.compiled.capacity := by
            rw [Cache.keys_find kept, keeps.used_keys source]
        _ = (lastFirst (used ++ [source])).take (guard.compiled.find source).2.capacity := by
            rw [capacity]
  | none =>
      have after := resolve_missing kept
      rw [compiled] at after
      rw [after] at faithful ⊢
      refine ⟨⟨faithful, ?_⟩, rfl⟩
      exact (Cache.keys_insert _ _ _).trans (keeps.used_keys source)

theorem resolve_failed {guard : Guard} (faithful : guard.Faithful) {source : String}
    {error : CompilationError} (failed : compile source = .error error) :
    (guard.resolve source).2 = guard := by
  cases kept : (guard.compiled.find source).1 with
  | some value =>
      have entry := faithful _ (Cache.mem_of_find kept)
      rw [failed] at entry
      cases entry
  | none => rw [resolve_missing kept, failed]

theorem answer_snd (guard : Guard) (question : Question) :
    (guard.answer question).2 = (guard.predicateOf question.binding).2 := by
  cases question <;> rfl

theorem answer_unused {guard : Guard} (faithful : guard.Faithful) {question : Question}
    (unused : question.usedSource? = none) : (guard.answer question).2 = guard := by
  rw [answer_snd]
  rcases question.usedSource?_cases with ⟨text, _, _, _, uses⟩ | ⟨text, error, bound, failed, _⟩ |
    ⟨predicate, bound, _⟩
  · rw [unused] at uses
    cases uses
  · rw [bound]
    exact resolve_failed faithful failed
  · rw [bound]
    rfl

/-- What one question does to the kept sources. -/
theorem KeepsLast.answer {guard : Guard} {used : List String} (keeps : guard.KeepsLast used)
    (question : Question) :
    (guard.answer question).2.KeepsLast (used ++ question.usedSource?.toList) ∧
      (guard.answer question).2.compiled.capacity = guard.compiled.capacity := by
  cases uses : question.usedSource? with
  | none =>
      rw [answer_unused keeps.faithful uses, Option.toList_none, List.append_nil]
      exact ⟨keeps, rfl⟩
  | some used =>
      rcases question.usedSource?_cases with ⟨text, predicate, bound, compiled, same⟩ |
        ⟨_, _, _, _, unused⟩ | ⟨_, _, unused⟩
      · rw [same] at uses
        cases uses
        rw [answer_snd, bound]
        exact keeps.resolve_used compiled
      · rw [unused] at uses
        cases uses
      · rw [unused] at uses
        cases uses

theorem KeepsLast.session {guard : Guard} {used : List String} (keeps : guard.KeepsLast used)
    (questions : List Question) :
    (guard.session questions).2.KeepsLast (used ++ Question.usedSources questions) ∧
      (guard.session questions).2.compiled.capacity = guard.compiled.capacity := by
  induction questions generalizing guard used with
  | nil =>
      rw [Question.usedSources, List.filterMap_nil, List.append_nil]
      exact ⟨keeps, rfl⟩
  | cons question later ih =>
      obtain ⟨first, capacity⟩ := keeps.answer question
      obtain ⟨last, unchanged⟩ := ih first
      have texts : Question.usedSources (question :: later) =
          question.usedSource?.toList ++ Question.usedSources later := by
        rw [Question.usedSources, List.filterMap_cons]
        cases question.usedSource? <;> rfl
      rw [texts, ← List.append_assoc]
      exact ⟨last, unchanged.trans capacity⟩

/-- What a guard keeps after any questions: of the texts that compiled, the ones used last, each
with its predicate.  So it keeps as many as were used, up to its capacity, and a question that uses
no compiled source leaves it as it is. -/
theorem session_keeps_recent (capacity : Nat) (positive : 0 < capacity)
    (questions : List Question) :
    let used := Question.usedSources questions
    let after := ((withCapacity capacity positive).session questions).2
    after.compiled.keys = (lastFirst used).take capacity ∧
      (∀ entry ∈ after.compiled.entries, compile entry.1 = .ok entry.2) ∧
      after.cached = min capacity used.toFinset.card ∧ after.cached ≤ capacity ∧
      ∀ question : Question, question.usedSource? = none →
        (after.answer question).2 = after := by
  intro used after
  obtain ⟨keeps, unchanged⟩ := (KeepsLast.start capacity positive).session questions
  have capacityAfter : after.compiled.capacity = capacity := unchanged
  have keys : after.compiled.keys = (lastFirst used).take capacity := by
    rw [← capacityAfter]
    exact keeps.keys
  have cached : after.cached = min capacity used.toFinset.card := by
    rw [Guard.cached, Cache.size_eq, keys, List.length_take, lastFirst_length]
  refine ⟨keys, keeps.faithful, cached, ?_, ?_⟩
  · rw [cached]
    exact Nat.min_le_left _ _
  · intro question unused
    exact answer_unused keeps.faithful unused

theorem session_keeps_recent_evicting :
    let used := Question.usedSources
      [.permission (.source "a") (· == "a"), .decision (.source "b") (· == "a"),
        .decision (.source "eve()") (· == "a"), .permission (.source "a") (· == "b")]
    let after := ((withCapacity 1 (by decide)).session
      [.permission (.source "a") (· == "a"), .decision (.source "b") (· == "a"),
        .decision (.source "eve()") (· == "a"), .permission (.source "a") (· == "b")]).2
    0 < 1 ∧ after.compiled.keys = (lastFirst used).take 1 ∧
      (∀ entry ∈ after.compiled.entries, compile entry.1 = .ok entry.2) ∧
      after.cached = min 1 used.toFinset.card ∧ after.cached ≤ 1 ∧
      ∀ question : Question, question.usedSource? = none →
        (after.answer question).2 = after :=
  ⟨by decide, session_keeps_recent 1 (by decide) _⟩

end Guard
end Permission
