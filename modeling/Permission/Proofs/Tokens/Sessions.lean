import Permission.Proofs.Tokens.Reading

/-!
# Demands on one cursor

One cursor answers a list of demands, for the next token or for all that are left, each from the
place where the earlier ones left it.  Main statement: `Cursor.session_agrees`, the replies put
together are what the source gives at once, and the end and the first error are final.
-/

set_option autoImplicit false

namespace Permission
namespace Cursor

/-- What can be asked of a cursor. -/
inductive Demand where
  | next
  | rest

inductive Reply where
  | next (read : Except LexicalError (Option Token))
  | rest (read : Except LexicalError (List Token))

def Reply.tokens : Reply → List Token
  | .next (.ok (some token)) => [token]
  | .rest (.ok tokens) => tokens.filter fun token => token.kind ≠ .endOfInput
  | _ => []

def Reply.error? : Reply → Option LexicalError
  | .next (.error error) => some error
  | .rest (.error error) => some error
  | _ => none

/-- No token is left to read behind the reply. -/
def Reply.Ends : Reply → Prop
  | .next (.ok (some _)) => False
  | _ => True

def reply (cursor : Cursor) : Demand → Reply × Cursor
  | .next => (.next cursor.next.1, cursor.next.2)
  | .rest => (.rest cursor.remaining.1, cursor.remaining.2)

def session (cursor : Cursor) : List Demand → List Reply × Cursor
  | [] => ([], cursor)
  | demand :: later =>
    let (first, after) := cursor.reply demand
    let (others, last) := after.session later
    (first :: others, last)

def readable (cursor : Cursor) : List Token :=
  match _read : cursor.next with
  | (.ok (some token), after) => token :: after.readable
  | _ => []
termination_by cursor.rest.length
decreasing_by exact next_shortens _read

theorem session_cons (cursor : Cursor) (demand : Demand) (later : List Demand) :
    cursor.session (demand :: later) =
      ((cursor.reply demand).1 :: ((cursor.reply demand).2.session later).1,
        ((cursor.reply demand).2.session later).2) := rfl

/-! ### What is left to read -/

theorem skipBlanks_again (cursor : Cursor) : cursor.skipBlanks.skipBlanks = cursor.skipBlanks := by
  obtain ⟨offset, text⟩ := cursor
  rcases Text.blank_cases text with blank | ⟨blanks, c, rest, rfl, blank, printed⟩
  · rw [Token.skipBlanks_blank blank, Token.skipBlanks_blank (List.forall_mem_nil _)]
    rfl
  · rw [Token.skipBlanks_append blank printed]
    exact @Token.skipBlanks_append _ [] rest c (List.forall_mem_nil _) printed

/-- A step that reads no token changes nothing when it is taken again. -/
theorem next_again {cursor after : Cursor} {answer : Except LexicalError (Option Token)}
    (read : cursor.next = (answer, after)) (last : ∀ token, answer ≠ .ok (some token)) :
    after.next = (answer, after) := by
  have here : after = cursor.skipBlanks := by
    rw [next] at read
    split at read
    · exact (Prod.mk.inj read).2.symm
    · split at read
      · exact absurd (Prod.mk.inj read).1.symm (last _)
      · exact (Prod.mk.inj read).2.symm
  have same : cursor.skipBlanks.next = cursor.next := by
    rw [next, next, skipBlanks_again]
  rw [here] at read ⊢
  rw [same, read]

theorem next_kind {cursor after : Cursor} {token : Token}
    (read : cursor.next = (.ok (some token), after)) : token.kind ≠ .endOfInput := by
  obtain ⟨offset, text⟩ := cursor
  rcases Token.next_cases offset text with blank | ⟨found, rest, leads⟩ |
    ⟨front, c, rest, _, _, _, failed⟩
  · rw [Token.next_blank blank] at read
    cases read
  · rw [leads.next] at read
    cases read
    exact leads.admitted.inside
  · rw [read] at failed
    cases failed

/-- What a cursor has left to read: tokens, and then an end of input or an error. -/
inductive Leaves : Except LexicalError Token → Cursor → List Token → Prop
  | ended {cursor after : Cursor} (read : cursor.next = (.ok none, after)) :
      Leaves (.ok (Token.atEnd after.offset)) cursor []
  | failed {cursor after : Cursor} {error : LexicalError}
      (read : cursor.next = (.error error, after)) : Leaves (.error error) cursor []
  | token {ending : Except LexicalError Token} {cursor after : Cursor} {token : Token}
      {left : List Token} (read : cursor.next = (.ok (some token), after))
      (later : Leaves ending after left) : Leaves ending cursor (token :: left)

theorem leaves_readable (cursor : Cursor) : ∃ ending, Leaves ending cursor cursor.readable := by
  fun_induction readable cursor with
  | case1 cursor token after read ih =>
      obtain ⟨ending, later⟩ := ih
      exact ⟨ending, .token read later⟩
  | case2 cursor noToken =>
      cases read : cursor.next with
      | mk answer after =>
          cases answer with
          | error error => exact ⟨_, .failed read⟩
          | ok token? =>
              cases token? with
              | none => exact ⟨_, .ended read⟩
              | some token => exact absurd read (noToken token after)

theorem Leaves.inside {ending : Except LexicalError Token} {cursor : Cursor} {left : List Token}
    (leaves : Leaves ending cursor left) : ∀ token ∈ left, token.kind ≠ .endOfInput := by
  induction leaves with
  | ended read => exact List.forall_mem_nil _
  | failed read => exact List.forall_mem_nil _
  | token read later ih => exact List.forall_mem_cons.mpr ⟨next_kind read, ih⟩

theorem Leaves.last_kind {last : Token} {cursor : Cursor} {left : List Token}
    (leaves : Leaves (.ok last) cursor left) : last.kind = .endOfInput := by
  generalize known : Except.ok last = ending at leaves
  induction leaves with
  | ended read => cases known; rfl
  | failed read => cases known
  | token read later ih => exact ih known

/-! ### One demand -/

def coming (ending : Except LexicalError Token) : List Token → Except LexicalError (Option Token)
  | [] => ending.map fun _ => none
  | first :: _ => .ok (some first)

/-- The next token is the first one that is left; behind all of them, the end or the error is met
again and again. -/
theorem Leaves.next {ending : Except LexicalError Token} {cursor : Cursor} {left : List Token}
    (leaves : Leaves ending cursor left) :
    cursor.next.1 = coming ending left ∧ Leaves ending cursor.next.2 left.tail := by
  cases leaves with
  | ended read =>
      rw [read]
      exact ⟨rfl, .ended (next_again read nofun)⟩
  | failed read =>
      rw [read]
      exact ⟨rfl, .failed (next_again read nofun)⟩
  | token read later =>
      rw [read]
      exact ⟨rfl, later⟩

theorem Leaves.remaining {ending : Except LexicalError Token} {cursor : Cursor}
    {left : List Token} (leaves : Leaves ending cursor left) :
    cursor.remaining.1 = ending.map (fun last => left ++ [last]) ∧
      Leaves ending cursor.remaining.2 [] := by
  induction leaves with
  | ended read =>
      rw [remaining_eq, read]
      exact ⟨rfl, .ended (next_again read nofun)⟩
  | failed read =>
      rw [remaining_eq, read]
      exact ⟨rfl, .failed (next_again read nofun)⟩
  | @token ending cursor after token left read later ih =>
      rw [remaining_eq, read]
      refine ⟨?_, ih.2⟩
      change after.remaining.1.map (token :: ·) = _
      rw [ih.1]
      cases ending <;> rfl

theorem tokens_rest {left : List Token} {last : Token}
    (inside : ∀ token ∈ left, token.kind ≠ .endOfInput) (isEnd : last.kind = .endOfInput) :
    (Reply.rest (.ok (left ++ [last]))).tokens = left := by
  rw [Reply.tokens, List.filter_append, List.filter_eq_self.mpr, List.filter_eq_nil_iff.mpr,
    List.append_nil]
  · simp [isEnd]
  · exact fun token member => decide_eq_true (inside token member)

/-- What a reply gives is taken from what was left.  An error is the one that stands at the end. -/
theorem Leaves.reply {ending : Except LexicalError Token} {cursor : Cursor} {left : List Token}
    (leaves : Leaves ending cursor left) (demand : Demand) :
    ∃ left', Leaves ending (cursor.reply demand).2 left' ∧
      ((cursor.reply demand).1.error? = none → left = (cursor.reply demand).1.tokens ++ left') ∧
      (∀ error, (cursor.reply demand).1.error? = some error →
        ending = .error error ∧ (cursor.reply demand).1.tokens = []) ∧
      ((cursor.reply demand).1.Ends → left' = []) := by
  cases demand with
  | next =>
      obtain ⟨answered, after⟩ := leaves.next
      refine ⟨left.tail, after, ?_⟩
      rw [Cursor.reply, answered]
      cases left with
      | nil => cases ending <;> simp [coming, Reply.error?, Reply.tokens, Except.map]
      | cons token later => simp [coming, Reply.error?, Reply.tokens, Reply.Ends]
  | rest =>
      obtain ⟨answered, after⟩ := leaves.remaining
      refine ⟨[], after, ?_⟩
      rw [Cursor.reply, answered]
      cases ending with
      | error error => simp [Reply.error?, Reply.tokens, Except.map]
      | ok last =>
          refine ⟨fun _ => ?_, nofun, fun _ => rfl⟩
          rw [List.append_nil]
          exact (tokens_rest leaves.inside leaves.last_kind).symm

/-! ### Whole sessions -/

/-- Where a session stands that began with the tokens `all` left to read. -/
structure Session (ending : Except LexicalError Token) (all : List Token) (replies : List Reply)
    (cursor : Cursor) (left : List Token) : Prop where
  leaves : Leaves ending cursor left
  given : replies.flatMap Reply.tokens <+: all
  whole : (∀ reply ∈ replies, reply.error? = none) → all = replies.flatMap Reply.tokens ++ left
  failed : ∀ reply ∈ replies, ∀ error, reply.error? = some error → ending = .error error
  ended : ∀ reply ∈ replies, reply.Ends → left = []

theorem Reply.ends_of_error {reply : Reply} {error : LexicalError}
    (failed : reply.error? = some error) : reply.Ends := by
  match reply with
  | .next (.ok _) => cases failed
  | .next (.error _) => trivial
  | .rest _ => trivial

theorem Session.of_nil {ending : Except LexicalError Token} {replies : List Reply}
    {cursor : Cursor} {left : List Token} (session : Session ending [] replies cursor left) :
    left = [] := by
  by_cases remains : left = []
  · exact remains
  · have succeeded : ∀ reply ∈ replies, reply.error? = none := by
      intro reply member
      cases outcome : reply.error? with
      | none => rfl
      | some error =>
          exact absurd (session.ended reply member (Reply.ends_of_error outcome)) remains
    exact (List.append_eq_nil_iff.mp (session.whole succeeded).symm).2

theorem Leaves.session {ending : Except LexicalError Token} {cursor : Cursor} {all : List Token}
    (leaves : Leaves ending cursor all) (demands : List Demand) :
    ∃ left, Session ending all (cursor.session demands).1 (cursor.session demands).2 left := by
  induction demands generalizing cursor all with
  | nil =>
      refine ⟨all, leaves, List.nil_prefix, fun _ => rfl, ?_, ?_⟩
      · exact List.forall_mem_nil _
      · exact List.forall_mem_nil _
  | cons demand later ih =>
      obtain ⟨middle, after, taken, failed, ended⟩ := leaves.reply demand
      obtain ⟨left, others⟩ := ih after
      rw [session_cons]
      refine ⟨left, others.leaves, ?_, ?_, ?_, ?_⟩
      · rw [List.flatMap_cons]
        cases outcome : (cursor.reply demand).1.error? with
        | none =>
            rw [taken outcome]
            exact (List.prefix_append_right_inj _).mpr others.given
        | some error =>
            have nothing := others.given
            rw [ended (Reply.ends_of_error outcome)] at nothing
            rw [(failed error outcome).2, List.prefix_nil.mp nothing]
            exact List.nil_prefix
      · intro succeeded
        obtain ⟨here, there⟩ := List.forall_mem_cons.mp succeeded
        rw [taken here, others.whole there, List.flatMap_cons, List.append_assoc]
      · refine List.forall_mem_cons.mpr ⟨?_, others.failed⟩
        exact fun error outcome => (failed error outcome).1
      · refine List.forall_mem_cons.mpr ⟨fun ends => ?_, others.ended⟩
        rw [ended ends] at others
        exact others.of_nil

theorem remaining_readable {source : String} {ending : Except LexicalError Token}
    (leaves : Leaves ending (start source) (start source).readable) :
    Token.ofSource source = ending.map fun last => (start source).readable ++ [last] :=
  leaves.remaining.1

/-- The replies to any demands agree with what the source gives at once: together they give a
beginning of its tokens, and all that are left come with the one end of input behind them.  The end
is final.  A source that is refused is refused with the same error by every reply that fails, at
the latest when all tokens are demanded, and after that by every later one. -/
theorem session_agrees (source : String) (demands : List Demand) :
    match (start source).session demands with
    | (replies, cursor) =>
      replies.flatMap Reply.tokens <+: (start source).readable ∧
        match Token.ofSource source with
        | .ok tokens => ∃ left,
          tokens = (start source).readable ++ [Token.atEnd source.utf8ByteSize] ∧
            (start source).readable = replies.flatMap Reply.tokens ++ left ∧
              cursor.next.1 = .ok left.head? ∧
                cursor.remaining.1 = .ok (left ++ [Token.atEnd source.utf8ByteSize]) ∧
                  ∀ reply ∈ replies, reply.Ends → left = []
        | .error error =>
          (∀ reply ∈ replies, ∀ fault, reply.error? = some fault → fault = error) ∧
            cursor.remaining.1 = .error error ∧
              (∀ reply ∈ replies, reply.error? = some error → cursor.next.1 = .error error) ∧
                ((∀ reply ∈ replies, reply.error? = none) → ∃ left,
                  (start source).readable = replies.flatMap Reply.tokens ++ left ∧
                    cursor.next.1 = coming (.error error) left) := by
  obtain ⟨ending, leaves⟩ := leaves_readable (start source)
  obtain ⟨left, session⟩ := leaves.session demands
  have whole := remaining_readable leaves
  cases ran : (start source).session demands with
  | mk replies cursor =>
      rw [ran] at session
      refine ⟨session.given, ?_⟩
      rw [whole]
      cases ending with
      | error error =>
          refine ⟨?_, session.leaves.remaining.1, ?_, ?_⟩
          · intro reply member fault failed
            cases session.failed reply member fault failed
            rfl
          · intro reply member failed
            have nothing := session.ended reply member (Reply.ends_of_error failed)
            rw [session.leaves.next.1, nothing]
            rfl
          · exact fun succeeded => ⟨left, session.whole succeeded, session.leaves.next.1⟩
      | ok last =>
          obtain ⟨content, closed, _⟩ := Token.ofSource_ok whole
          obtain ⟨_, isEnd⟩ := List.append_inj' closed rfl
          cases isEnd
          have succeeded : ∀ reply ∈ replies, reply.error? = none := by
            intro reply member
            cases outcome : reply.error? with
            | none => rfl
            | some error => cases session.failed reply member error outcome
          refine ⟨left, rfl, session.whole succeeded, ?_, session.leaves.remaining.1,
            session.ended⟩
          rw [session.leaves.next.1]
          cases left <;> rfl

end Cursor
end Permission
