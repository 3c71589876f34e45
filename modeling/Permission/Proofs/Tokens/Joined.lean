import Permission.Proofs.Tokens.Reading

/-!
# Sources joined by blanks

No token reaches over a blank, so a source that is made of two with blanks between them is read as
the first one and then the second one.  Main statement: `Token.ofSource_joined`, which gives the
tokens and the errors of the whole in terms of the two parts.
-/

set_option autoImplicit false

namespace Permission

/-! ### Reading from a place further on -/

def Token.movedBy (distance : Nat) (token : Token) : Token :=
  { token with offset := token.offset + distance }

namespace LexicalError

def movedBy (distance : Nat) (error : LexicalError) : LexicalError :=
  { error with offset := error.offset + distance }

def followedBy (text : String) (error : LexicalError) : LexicalError :=
  { error with remainder := error.remainder ++ text }

end LexicalError

/-- What is read of the same text so many bytes further on. -/
def Token.readFurtherOn (distance : Nat) (read : Except LexicalError (List Token)) :
    Except LexicalError (List Token) :=
  (read.map fun tokens => tokens.map (Token.movedBy distance)).mapError
    (LexicalError.movedBy distance)

namespace Cursor

def movedBy (distance : Nat) (cursor : Cursor) : Cursor :=
  { cursor with offset := cursor.offset + distance }

theorem skipBlanks_movedBy (distance : Nat) (cursor : Cursor) :
    (cursor.movedBy distance).skipBlanks = cursor.skipBlanks.movedBy distance := by
  simp only [skipBlanks, movedBy, mk.injEq, and_true]
  omega

theorem advance_movedBy (distance count : Nat) (cursor : Cursor) :
    (cursor.movedBy distance).advance count = (cursor.advance count).movedBy distance := by
  simp only [advance, movedBy, mk.injEq, and_true]
  omega

theorem next_movedBy (distance : Nat) (cursor : Cursor) :
    (cursor.movedBy distance).next =
      ((cursor.next.1.map (Option.map (Token.movedBy distance))).mapError
        (LexicalError.movedBy distance), cursor.next.2.movedBy distance) := by
  have text : (cursor.skipBlanks.movedBy distance).rest = cursor.skipBlanks.rest := rfl
  rw [next, next, skipBlanks_movedBy, text]
  by_cases ended : cursor.skipBlanks.rest.isEmpty = true
  · rw [if_pos ended, if_pos ended]
    rfl
  · rw [if_neg ended, if_neg ended]
    cases Token.lexeme? cursor.skipBlanks.rest with
    | none => rfl
    | some lexeme =>
        simp only [advance_movedBy]
        rfl

theorem remaining_movedBy (distance : Nat) (cursor : Cursor) :
    (cursor.movedBy distance).remaining.1 = Token.readFurtherOn distance cursor.remaining.1 := by
  -- Each token that is taken leaves a shorter text, so the induction is on the length.
  induction size : cursor.rest.length using Nat.strongRecOn generalizing cursor with
  | ind size ih =>
      rw [remaining_eq, remaining_eq cursor, next_movedBy]
      cases step : cursor.next with
      | mk answer after =>
          cases answer with
          | error error => rfl
          | ok token? =>
              cases token? with
              | none => rfl
              | some token =>
                  have shorter := next_shortens step
                  have later := ih after.rest.length (by omega) after rfl
                  change (after.movedBy distance).remaining.1.map _ =
                    Token.readFurtherOn distance (after.remaining.1.map (token :: ·))
                  rw [later]
                  cases after.remaining.1 <;> rfl

end Cursor

/-! ### Reading into a blank -/

namespace Token

/-- No token goes on with a blank. -/
theorem Kind.GoesOn.printed {kind : Kind} {text : String} {c : Char}
    (goesOn : kind.GoesOn text c) : Text.isBlank c = false := by
  cases kind with
  | identifier => exact isBlank_of_inName goesOn
  | and =>
      rw [goesOn.2]
      decide
  | or =>
      rw [goesOn.2]
      decide
  | _ => exact goesOn.elim

/-- The text behind the first token may be continued by a text that begins with a blank. -/
theorem Leads.append {base : Nat} {text rest more : List Char} {token : Token}
    (leads : Leads base text token rest) (apart : ∀ c ∈ more.head?, Text.isBlank c = true) :
    Leads base (text ++ more) token (rest ++ more) := by
  obtain ⟨admitted, ends, front, blank, rfl, place⟩ := leads
  refine ⟨admitted, ?_, front, blank, by simp, place⟩
  intro c next goesOn
  cases rest with
  | nil =>
      have isBlank := apart c next
      rw [goesOn.printed] at isBlank
      cases isBlank
  | cons first others => exact ends c next goesOn

theorem Leads.byteLength {base : Nat} {text rest : List Char} {token : Token}
    (leads : Leads base text token rest) :
    token.offset + token.text.utf8ByteSize + Text.byteLength rest =
      base + Text.byteLength text := by
  obtain ⟨_, _, front, _, rfl, place⟩ := leads
  rw [Text.byteLength_append, Text.byteLength_append, Text.byteLength_toList]
  omega

theorem Leads.content {base : Nat} {text rest : List Char} {token : Token}
    (leads : Leads base text token rest) (tokens : List Token) :
    content (token :: tokens) = token :: content tokens :=
  List.takeWhile_cons_of_pos (decide_eq_true leads.admitted.inside)

/-- A text that begins with a blank is read after all that stands before it.  What is refused
before it is refused in the same place. -/
theorem remaining_append {more : List Char} (apart : ∀ c ∈ more.head?, Text.isBlank c = true)
    (base : Nat) (text : List Char) :
    (Cursor.remaining ⟨base, text ++ more⟩).1 =
      match (Cursor.remaining ⟨base, text⟩).1 with
      | .ok tokens =>
        (Cursor.remaining ⟨base + Text.byteLength text, more⟩).1.map (content tokens ++ ·)
      | .error error => .error (error.followedBy (String.ofList more)) := by
  induction size : text.length using Nat.strongRecOn generalizing base text with
  | ind size ih =>
      rcases next_cases base text with blank | ⟨token, rest, leads⟩ |
        ⟨front, c, rest, blank, rfl, beginsNone, failed⟩
      · rw [remaining_blanks blank, Cursor.remaining_end (next_blank blank)]
        cases (Cursor.remaining ⟨base + Text.byteLength text, more⟩).1 <;> rfl
      · have shorter := leads.shorter
        have later := ih rest.length (by omega) (token.offset + token.text.utf8ByteSize) rest rfl
        rw [leads.byteLength] at later
        rw [Cursor.remaining_next (leads.append apart).next, later,
          Cursor.remaining_next leads.next]
        cases (Cursor.remaining ⟨token.offset + token.text.utf8ByteSize, rest⟩).1 with
        | error error => rfl
        | ok tokens =>
            have taken := leads.content tokens
            change Except.map _ (Except.map _ _) = Except.map (content (token :: tokens) ++ ·) _
            rw [taken]
            cases (Cursor.remaining ⟨base + Text.byteLength text, more⟩).1 <;> rfl
      · rw [List.append_assoc, List.cons_append,
          Cursor.remaining_failed (next_refused blank beginsNone _),
          Cursor.remaining_failed failed]
        simp [LexicalError.followedBy, String.append_assoc]

/-! ### Two sources -/

/-- A source that is made of two with blanks between them has the tokens of the first one, and then
those of the second one, as many bytes further on as stand before it.  It is refused exactly if one
of them is: in the same place, and for the first one with all that follows it left to read. -/
theorem ofSource_joined {blanks : String} (filled : blanks ≠ "")
    (blank : ∀ c ∈ blanks.toList, Text.isBlank c = true) (first second : String) :
    ofSource (first ++ blanks ++ second) =
      match ofSource first with
      | .ok tokens =>
        match ofSource second with
        | .ok later => .ok (content tokens ++ later.map (movedBy (first ++ blanks).utf8ByteSize))
        | .error error => .error (error.movedBy (first ++ blanks).utf8ByteSize)
      | .error error => .error (error.followedBy (blanks ++ second)) := by
  have apart : ∀ c ∈ (blanks.toList ++ second.toList).head?, Text.isBlank c = true := by
    intro c next
    cases shape : blanks.toList with
    | nil => exact absurd (String.toList_eq_nil_iff.mp shape) filled
    | cons d others =>
        rw [shape] at next blank
        cases next
        exact blank c List.mem_cons_self
  have behind : (Cursor.remaining ⟨Text.byteLength first.toList,
      blanks.toList ++ second.toList⟩).1 =
        readFurtherOn (first ++ blanks).utf8ByteSize (ofSource second) := by
    rw [remaining_blanks blank, ofSource, ← Cursor.remaining_movedBy, Cursor.movedBy, Cursor.start,
      Text.byteLength_toList, Text.byteLength_toList, String.utf8ByteSize_append, Nat.zero_add]
  have whole := remaining_append apart 0 first.toList
  rw [Nat.zero_add, behind] at whole
  rw [ofSource, Cursor.start, String.append_assoc, String.toList_append, String.toList_append,
    whole]
  change (match ofSource first with | .ok _ => _ | .error _ => _) = _
  cases ofSource first with
  | ok tokens => cases ofSource second <;> rfl
  | error error => simp

/-- A blank of three bytes keeps two signs apart, and an error is met on either side of it. -/
theorem ofSource_joined_wideBlank :
    "\u2003" ≠ "" ∧ (∀ c ∈ "\u2003".toList, Text.isBlank c = true) ∧
      ofSource ("a &" ++ "\u2003" ++ "& b") =
        .ok [⟨.identifier, "a", 0⟩, ⟨.and, "&", 2⟩, ⟨.and, "&", 6⟩, ⟨.identifier, "b", 8⟩,
          atEnd 9] ∧
      ofSource ("a &" ++ "\u2003" ++ "b 1") = .error ⟨8, "1"⟩ ∧
      ofSource ("a 1" ++ "\u2003" ++ "& b") = .error ⟨2, "1\u2003& b"⟩ := by
  have filled : "\u2003" ≠ "" := by decide
  have blank : ∀ c ∈ "\u2003".toList, Text.isBlank c = true := by
    simp [Text.isBlank, Text.blankRanges]
  have before : ofSource "a &" = .ok [⟨.identifier, "a", 0⟩, ⟨.and, "&", 2⟩, atEnd 3] :=
    Cursor.remaining_of_within 3 rfl
  have after : ofSource "& b" = .ok [⟨.and, "&", 0⟩, ⟨.identifier, "b", 2⟩, atEnd 3] :=
    Cursor.remaining_of_within 3 rfl
  have refusedBefore : ofSource "a 1" = .error ⟨2, "1"⟩ := Cursor.remaining_of_within 2 rfl
  have refusedAfter : ofSource "b 1" = .error ⟨2, "1"⟩ := Cursor.remaining_of_within 2 rfl
  refine ⟨filled, blank, ?_, ?_, ?_⟩
  · rw [ofSource_joined filled blank, before, after]
    rfl
  · rw [ofSource_joined filled blank, before, refusedAfter]
    rfl
  · rw [ofSource_joined filled blank, refusedBefore]
    rfl

end Token
end Permission
