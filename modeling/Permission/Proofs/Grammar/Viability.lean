import Permission.Proofs.Grammar.Soundness

/-!
# Beginnings of sentences

Whatever a reader has taken can be continued to a sentence: open frames can be closed, and a phrase
that is wanted can be supplied.  Two things are read off the tokens themselves: whether a phrase
may end with them, and how many parentheses they leave open.
-/

set_option autoImplicit false

namespace Permission
namespace Grammar

open Permission.Expr

def Sentence (tokens : List Token) : Prop :=
  ∃ phrase need, Junction tokens phrase need

/-- The tokens can be continued to a sentence. -/
def Viable (tokens : List Token) : Prop :=
  ∃ rest, Sentence (tokens ++ rest)

theorem Viable.front {tokens : List Token} (more : List Token)
    (viable : Viable (tokens ++ more)) : Viable tokens := by
  obtain ⟨rest, sentence⟩ := viable
  rw [List.append_assoc] at sentence
  exact ⟨more ++ rest, sentence⟩

/-! ### Closing what is open -/

def closingParen : Token :=
  { kind := .rightParen, text := ")", offset := 0 }

def fillIn : Token :=
  { kind := .identifier, text := "a", offset := 0 }

/-- A phrase that fits into the open frames can be continued by closing them. -/
theorem Open.viable {frames : List Frame} {before inner : List Token} {phrase : Expr}
    (opened : Open frames before)
    (content : Fits (Frame.levelInside .expression frames) inner phrase) :
    Viable (before ++ inner) := by
  -- Closing the innermost frame gives a longer phrase that fits into the frames around it.
  induction opened generalizing inner phrase with
  | outermost => exact ⟨[], phrase, by rw [List.append_nil]; exact content⟩
  | @group opening frames before opens _ ih =>
      obtain ⟨need, sentence⟩ := content
      have group : Operand (opening :: (inner ++ [closingParen])) phrase (need + 1) :=
        .callable (.primary (.group opening closingParen opens rfl sentence))
      have closed := ih (group.fits frames)
      apply Viable.front [closingParen]
      simpa using closed
  | @negation operator frames before negates _ ih =>
      obtain ⟨need, operand⟩ := content
      have closed := ih ((Operand.negation operator negates operand).fits frames)
      simpa using closed
  | @junction operator frames before left lhs leftNeed joins level _ first ih =>
      obtain ⟨need, operand⟩ := content
      have fits : Fits .expression _ _ := ⟨_, .junction operator joins first operand⟩
      rw [← level] at fits
      simpa using ih fits
  | @argument opening frames before left inside callee earlier calleeNeed opens _ first others ih =>
      obtain ⟨need, operand⟩ := content
      obtain ⟨total, arguments⟩ := others.close (.last operand)
      have call := Callable.call opening closingParen opens rfl first arguments
      have closed := ih ((Operand.callable call).fits frames)
      apply Viable.front [closingParen]
      simpa using closed

theorem Spells.viable {reader : Reader} {before : List Token} (read : Spells reader before) :
    Viable before := by
  cases read with
  | @wanted frames before outer =>
      have name : Operand [fillIn] (.identifier "a") 1 :=
        .callable (.primary (.identifier fillIn rfl))
      exact (outer.viable (name.fits frames)).front [fillIn]
  | @held frames before inner phrase need outer content =>
      exact outer.viable ((Operand.callable content).fits frames)
  | @opened opening frames before inner callee need opens outer first =>
      have call := Callable.emptyCall opening closingParen opens rfl first
      have closed := outer.viable ((Operand.callable call).fits frames)
      apply Viable.front [closingParen]
      simpa using closed

/-! ### The last token -/

def EndsPhrase (tokens : List Token) : Prop :=
  ∃ earlier last, tokens = earlier ++ [last] ∧
    (last.kind = .identifier ∨ last.kind = .rightParen)

theorem endsPhrase_concat {tokens : List Token} {token : Token} :
    EndsPhrase (tokens ++ [token]) ↔ token.kind = .identifier ∨ token.kind = .rightParen := by
  constructor
  · rintro ⟨earlier, last, same, ends⟩
    obtain rfl := List.singleton_inj.mp (List.append_inj_right' same rfl)
    exact ends
  · exact fun ends => ⟨tokens, token, rfl, ends⟩

theorem EndsPhrase.behind {tokens : List Token} (ends : EndsPhrase tokens) (front : List Token) :
    EndsPhrase (front ++ tokens) := by
  obtain ⟨earlier, last, rfl, kind⟩ := ends
  exact ⟨front ++ earlier, last, (List.append_assoc ..).symm, kind⟩

theorem endsPhrase_closed (tokens : List Token) {closing : Token}
    (closes : closing.kind = .rightParen) : EndsPhrase (tokens ++ [closing]) :=
  endsPhrase_concat.mpr (.inr closes)

mutual

theorem Junction.ends {tokens : List Token} {phrase : Expr} {need : Nat} :
    Junction tokens phrase need → EndsPhrase tokens
  | .operand content => content.ends
  | .junction operator _ _ second => (second.ends.behind [operator]).behind _

theorem Operand.ends {tokens : List Token} {phrase : Expr} {need : Nat} :
    Operand tokens phrase need → EndsPhrase tokens
  | .negation operator _ content => content.ends.behind [operator]
  | .callable content => content.ends

theorem Callable.ends {tokens : List Token} {phrase : Expr} {need : Nat} :
    Callable tokens phrase need → EndsPhrase tokens
  | .primary content => content.ends
  | .emptyCall opening _ _ closes _ => (endsPhrase_closed [opening] closes).behind _
  | .call opening _ _ closes _ _ => (endsPhrase_closed (opening :: _) closes).behind _

theorem Arguments.ends {tokens : List Token} {arguments : List Expr} {need : Nat} :
    Arguments tokens arguments need → EndsPhrase tokens
  | .last content => content.ends
  | .more comma _ _ second => (second.ends.behind [comma]).behind _

theorem Primary.ends {tokens : List Token} {phrase : Expr} {need : Nat} :
    Primary tokens phrase need → EndsPhrase tokens
  | .identifier token named => ⟨[], token, rfl, .inl named⟩
  | .group opening _ _ closes _ => endsPhrase_closed (opening :: _) closes

end

theorem not_endsPhrase {tokens : List Token} {token : Token} {kind : Token.Kind}
    (known : token.kind = kind) (noName : kind ≠ .identifier) (noClosing : kind ≠ .rightParen) :
    ¬ EndsPhrase (tokens ++ [token]) := by
  rw [endsPhrase_concat, known]
  exact fun ends => ends.elim noName noClosing

/-- No phrase ends where one is wanted. -/
theorem Open.not_endsPhrase {frames : List Frame} {before : List Token}
    (opened : Open frames before) : ¬ EndsPhrase before := by
  cases opened with
  | outermost =>
      rintro ⟨earlier, last, same, _⟩
      exact absurd same.symm (by simp)
  | group opening opens _ => exact Grammar.not_endsPhrase opens (by decide) (by decide)
  | negation operator negates _ => exact Grammar.not_endsPhrase negates (by decide) (by decide)
  | junction operator joins _ _ _ =>
      rcases joins with joins | joins
      · exact Grammar.not_endsPhrase joins (by decide) (by decide)
      · exact Grammar.not_endsPhrase joins (by decide) (by decide)
  | argument opening opens _ _ others =>
      cases others with
      | none => exact Grammar.not_endsPhrase opens (by decide) (by decide)
      | argument comma separates _ _ =>
          rw [← List.cons_append, ← List.append_assoc]
          exact Grammar.not_endsPhrase separates (by decide) (by decide)

/-! ### Open parentheses -/

/-- How many more parentheses the tokens open than they close. -/
def surplus : List Token → Int
  | [] => 0
  | token :: tokens =>
    match token.kind with
    | .leftParen => surplus tokens + 1
    | .rightParen => surplus tokens - 1
    | _ => surplus tokens

theorem surplus_append (left right : List Token) :
    surplus (left ++ right) = surplus left + surplus right := by
  induction left with
  | nil => simp [surplus]
  | cons token tokens ih =>
      rw [List.cons_append, surplus, surplus, ih]
      split <;> omega

theorem surplus_opening {opening : Token} (opens : opening.kind = .leftParen)
    (tokens : List Token) : surplus (opening :: tokens) = surplus tokens + 1 := by
  rw [surplus, opens]

theorem surplus_closing {closing : Token} (closes : closing.kind = .rightParen)
    (tokens : List Token) : surplus (closing :: tokens) = surplus tokens - 1 := by
  rw [surplus, closes]

theorem surplus_cons {token : Token} {kind : Token.Kind} (known : token.kind = kind)
    (noOpening : kind ≠ .leftParen) (noClosing : kind ≠ .rightParen) (tokens : List Token) :
    surplus (token :: tokens) = surplus tokens := by
  rw [surplus, known]
  cases kind <;> first | rfl | exact absurd rfl noOpening | exact absurd rfl noClosing

theorem surplus_operator {operator : Token} (joins : operator.kind = .and ∨ operator.kind = .or)
    (tokens : List Token) : surplus (operator :: tokens) = surplus tokens := by
  rcases joins with joins | joins
  · exact surplus_cons joins (by decide) (by decide) tokens
  · exact surplus_cons joins (by decide) (by decide) tokens

mutual

theorem Junction.balanced {tokens : List Token} {phrase : Expr} {need : Nat} :
    Junction tokens phrase need → surplus tokens = 0
  | .operand content => content.balanced
  | .junction operator joins first second => by
      rw [surplus_append, surplus_operator joins, first.balanced, second.balanced]
      rfl

theorem Operand.balanced {tokens : List Token} {phrase : Expr} {need : Nat} :
    Operand tokens phrase need → surplus tokens = 0
  | .negation operator negates content => by
      rw [surplus_cons negates (by decide) (by decide), content.balanced]
  | .callable content => content.balanced

theorem Callable.balanced {tokens : List Token} {phrase : Expr} {need : Nat} :
    Callable tokens phrase need → surplus tokens = 0
  | .primary content => content.balanced
  | .emptyCall opening closing opens closes first => by
      rw [surplus_append, first.balanced, surplus_opening opens, surplus_closing closes]
      rfl
  | .call opening closing opens closes first second => by
      rw [surplus_append, first.balanced, surplus_opening opens, surplus_append,
        second.balanced, surplus_closing closes]
      rfl

theorem Arguments.balanced {tokens : List Token} {arguments : List Expr} {need : Nat} :
    Arguments tokens arguments need → surplus tokens = 0
  | .last content => content.balanced
  | .more comma separates first second => by
      rw [surplus_append, first.balanced, surplus_cons separates (by decide) (by decide),
        second.balanced]
      rfl

theorem Primary.balanced {tokens : List Token} {phrase : Expr} {need : Nat} :
    Primary tokens phrase need → surplus tokens = 0
  | .identifier token named => surplus_cons named (by decide) (by decide) []
  | .group opening closing opens closes content => by
      rw [surplus_opening opens, surplus_append, content.balanced, surplus_closing closes]
      rfl

end

theorem Earlier.balanced {before : List Token} {earlier : List Expr}
    (others : Earlier before earlier) : surplus before = 0 := by
  induction others with
  | none => rfl
  | argument comma separates _ content ih =>
      rw [surplus_append, surplus_append, ih, content.balanced,
        surplus_cons separates (by decide) (by decide)]
      rfl

/-- Frames that are open leave parentheses open, and never close one too many. -/
theorem Open.surplus_nonneg {frames : List Frame} {before : List Token}
    (opened : Open frames before) : 0 ≤ surplus before := by
  induction opened with
  | outermost => exact Int.le_refl 0
  | group opening opens _ ih =>
      rw [surplus_append, surplus_opening opens, surplus]
      omega
  | negation operator negates _ ih =>
      rw [surplus_append, surplus_cons negates (by decide) (by decide), surplus]
      omega
  | junction operator joins _ _ first ih =>
      rw [surplus_append, surplus_append, first.balanced, surplus_operator joins, surplus]
      omega
  | argument opening opens _ first others ih =>
      rw [surplus_append, surplus_append, first.balanced, surplus_opening opens, others.balanced]
      omega

theorem Spells.surplus_nonneg {reader : Reader} {before : List Token}
    (read : Spells reader before) : 0 ≤ surplus before := by
  cases read with
  | wanted outer => exact outer.surplus_nonneg
  | held outer content =>
      rw [surplus_append, content.balanced]
      have kept := outer.surplus_nonneg
      omega
  | opened opening opens outer first =>
      rw [surplus_append, surplus_append, first.balanced, surplus_opening opens, surplus]
      have kept := outer.surplus_nonneg
      omega

end Grammar
end Permission
