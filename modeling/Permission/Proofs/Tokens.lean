import Permission.Token.Cursor

/-!
# Reading a source token by token

All tokens that are left are the next one and those that are left after it, and a reader sees the
tokens of a source up to the end of input that closes them.
-/

set_option autoImplicit false

namespace Permission
namespace Cursor

theorem remaining_eq (cursor : Cursor) : cursor.remaining =
    match cursor.next with
    | (.ok none, after) => (.ok [Token.atEnd after.offset], after)
    | (.ok (some token), after) =>
      (after.remaining.1.map (token :: ·), after.remaining.2)
    | (.error error, after) => (.error error, after) := by
  rw [remaining]
  split
  · rename_i read
    rw [read]
  · rename_i read
    rw [read]
  · rename_i read
    rw [read]

theorem remaining_next {cursor after : Cursor} {token : Token}
    (read : cursor.next = (.ok (some token), after)) :
    cursor.remaining.1 = after.remaining.1.map (token :: ·) := by
  rw [remaining_eq, read]

theorem remaining_end {cursor after : Cursor} (read : cursor.next = (.ok none, after)) :
    cursor.remaining.1 = .ok [Token.atEnd after.offset] := by
  rw [remaining_eq, read]

theorem remaining_failed {cursor : Cursor} {error : LexicalError}
    (failed : cursor.next.1 = .error error) : cursor.remaining.1 = .error error := by
  rw [remaining_eq]
  cases read : cursor.next with
  | mk answer after =>
      rw [read] at failed
      rw [show answer = .error error from failed]

/-- The tokens that are left, if so many steps reach the end of the source or an error. -/
def remainingWithin : Nat → Cursor → Option (Except LexicalError (List Token))
  | 0, _ => none
  | steps + 1, cursor =>
    match cursor.next with
    | (.ok none, after) => some (.ok [Token.atEnd after.offset])
    | (.ok (some token), after) => (after.remainingWithin steps).map (·.map (token :: ·))
    | (.error error, _) => some (.error error)

/-- Reading with a bound on its steps computes by unfolding, which `remaining` does not. -/
theorem remaining_of_within {cursor : Cursor} {answer : Except LexicalError (List Token)}
    (steps : Nat) (read : cursor.remainingWithin steps = some answer) :
    cursor.remaining.1 = answer := by
  induction steps generalizing cursor answer with
  | zero => cases read
  | succ steps ih =>
      rw [remainingWithin] at read
      cases step : cursor.next with
      | mk found after =>
          rw [step] at read
          cases found with
          | error error =>
              cases read
              exact remaining_failed (by rw [step])
          | ok token? =>
              cases token? with
              | none =>
                  cases read
                  exact remaining_end step
              | some token =>
                  obtain ⟨later, bounded, rfl⟩ := Option.map_eq_some_iff.mp read
                  rw [remaining_next step, ih bounded]

end Cursor

theorem Token.content_closed {tokens : List Token}
    (inside : ∀ token ∈ tokens, token.kind ≠ .endOfInput) (offset : Nat) :
    Token.content (tokens ++ [Token.atEnd offset]) = tokens := by
  rw [Token.content, List.takeWhile_append_of_pos]
  · rw [List.takeWhile_cons_of_neg]
    · rw [List.append_nil]
    · simp [Token.atEnd]
  · intro token member
    exact decide_eq_true (inside token member)

end Permission
