import Permission.Proofs.Display.Compiling
import Permission.Proofs.Lowering.Names
import Permission.Proofs.Storage.Compiled

/-!
# Texts of what a source spells

A source that compiles has two texts: that of its expression and that of its predicate.  The first
compiles to the same predicate unless too many phrases are open at once in it, for no negation is
called in an expression that is lowered.  The second holds nothing but calls, keywords and the names
of the source, so it compiles back as far as the limits admit it.  A name alone is shown as a call,
one level higher than it was written, so not every source is within these limits.
-/

set_option autoImplicit false

namespace Permission
namespace Expr

mutual

theorem Lowers.noNegatedCallee {expr : Expr} {predicate : Predicate} :
    Lowers expr predicate → expr.NoNegatedCallee
  | .identifier _ => trivial
  | .unary _ content => content.noNegatedCallee
  | .conjunction _ first second | .disjunction _ first second =>
      ⟨first.noNegatedCallee, second.noNegatedCallee⟩
  | .call _ _ _ content => ⟨nofun, trivial, content.noNegatedCallees⟩

theorem LowersCompound.noNegatedCallees {arguments : List Expr} {others : List Predicate} :
    LowersCompound arguments others → NoNegatedCallees arguments
  | .nil => trivial
  | .name _ later => ⟨trivial, later.noNegatedCallees⟩
  | .compound _ here later => ⟨here.noNegatedCallee, later.noNegatedCallees⟩

end

theorem Spelled.compile_text {expr : Expr} {predicate : Predicate} (spelled : expr.Spelled)
    (lowered : expr.lower = .ok predicate) :
    compile expr.display =
      if expr.need ≤ 100 ∧ expr.height ≤ 100 then .ok predicate
      else .error (.reading .tooDeep) := by
  have read := spelled.reread (lowers_of_lower expr lowered).noNegatedCallee
  rw [Predicate.compile_eq_lower read]
  change Except.bind (if expr.need ≤ 100 ∧ expr.height ≤ 100 then _ else _) _ = _
  split
  · change expr.unplaced.lower.mapError _ = _
    rw [unplaced, lower_relabel keeps_unplaced, lowered]
    rfl
  · rfl

theorem height_le_of_ofSource {source : String} {expr : Expr}
    (read : Expr.ofSource source = .ok expr) : expr.height ≤ 100 := by
  obtain ⟨tokens, _, parsed⟩ := ok_of_bind read
  have parsed := ok_of_mapError parsed
  obtain ⟨need, sentence⟩ := Grammar.junction_of_ofTokens parsed
  rw [sentence.ofTokens] at parsed
  split at parsed
  · rename_i within
    exact within.2
  · cases parsed

/-- The text of an expression that was read from a source and lowered compiles to the same
predicate, exactly if no more than 100 phrases are open at once in it; otherwise it is too deep. -/
theorem display_keeps_predicate {source : String} {expr : Expr} {predicate : Predicate}
    (read : Expr.ofSource source = .ok expr) (lowered : expr.lower = .ok predicate) :
    compile expr.display =
      if expr.need ≤ 100 then .ok predicate else .error (.reading .tooDeep) := by
  have compiled := (spelled_of_ofSource read).compile_text lowered
  simpa only [height_le_of_ofSource read, and_true] using compiled

/-- `!(a||b)&has(Not c)`: three operators in three spellings, a group and a compound argument. -/
def mixedSpellings : Expr :=
  .binary ⟨.and, "&", 7⟩
    (.unary ⟨.not, "!", 0⟩ (.binary ⟨.or, "||", 3⟩ (.identifier "a") (.identifier "b")))
    (.call (.identifier "has") [.unary ⟨.not, "Not", 12⟩ (.identifier "c")])

theorem ofSource_mixedSpellings : Expr.ofSource "!(a||b)&has(Not c)" = .ok mixedSpellings := by
  have tokens : Token.ofSource "!(a||b)&has(Not c)" =
      .ok [⟨.not, "!", 0⟩, ⟨.leftParen, "(", 1⟩, ⟨.identifier, "a", 2⟩, ⟨.or, "||", 3⟩,
        ⟨.identifier, "b", 5⟩, ⟨.rightParen, ")", 6⟩, ⟨.and, "&", 7⟩, ⟨.identifier, "has", 8⟩,
        ⟨.leftParen, "(", 11⟩, ⟨.not, "Not", 12⟩, ⟨.identifier, "c", 16⟩,
        ⟨.rightParen, ")", 17⟩, Token.atEnd 18] :=
    Cursor.remaining_of_within 13 rfl
  rw [Expr.ofSource, tokens]
  rfl

theorem lower_mixedSpellings : mixedSpellings.lower =
    .ok (.and (.not (.or (.has "a") (.has "b"))) (.not (.has "c"))) :=
  rfl

theorem display_keeps_predicate_mixedSpellings :
    Expr.ofSource "!(a||b)&has(Not c)" = .ok mixedSpellings ∧
      mixedSpellings.lower = .ok (.and (.not (.or (.has "a") (.has "b"))) (.not (.has "c"))) ∧
      compile mixedSpellings.display =
        if mixedSpellings.need ≤ 100 then
          .ok (.and (.not (.or (.has "a") (.has "b"))) (.not (.has "c")))
        else .error (.reading .tooDeep) :=
  ⟨ofSource_mixedSpellings, lower_mixedSpellings,
    display_keeps_predicate ofSource_mixedSpellings lower_mixedSpellings⟩

/-! ### Names of a source -/

mutual

theorem Spelled.names : ∀ {expr : Expr}, expr.Spelled →
    ∀ name ∈ expr.names, Token.Kind.identifier.Admits name
  | .identifier _, spelled => List.forall_mem_singleton.mpr spelled
  | .unary _ _, spelled => spelled.2.2.names
  | .binary _ _ _, spelled => List.forall_mem_append.mpr ⟨spelled.2.2.1.names, spelled.2.2.2.names⟩
  | .call _ _, spelled => spelled.2.names

theorem AllSpelled.names : ∀ {arguments : List Expr}, AllSpelled arguments →
    ∀ name ∈ argumentNames arguments, Token.Kind.identifier.Admits name
  | [], _ => List.forall_mem_nil _
  | _ :: _, spelled => List.forall_mem_append.mpr ⟨spelled.1.names, spelled.2.names⟩

end

end Expr

theorem leaves_of_compile {source : String} {predicate : Predicate}
    (compiled : compile source = .ok predicate) :
    ∀ name ∈ predicate.leaves, Token.Kind.identifier.Admits name := by
  obtain ⟨expr, read, lowered⟩ := compile_ok compiled
  intro name member
  have written := (Expr.lowers_of_lower expr lowered).names.mem_iff.mp member
  exact (Expr.spelled_of_ofSource read).names name written

theorem Predicate.compile_text {predicate : Predicate}
    (named : ∀ name ∈ predicate.leaves, Token.Kind.identifier.Admits name) :
    compile predicate.display =
      if predicate.displayNeed ≤ 100 ∧ predicate.displayHeight ≤ 100 then .ok predicate
      else .error (.reading .tooDeep) := by
  have compiled := (predicate.spelled_toExpr named).compile_text predicate.lower_toExpr
  rwa [display_toExpr, need_toExpr, height_toExpr] at compiled

/-- The text of the predicate of a source compiles back to the predicate exactly as far as the
limits admit the text; beyond them it is too deep. -/
theorem compiled_display_within_limits {source : String} {predicate : Predicate}
    (compiled : compile source = .ok predicate) :
    compile predicate.display =
      if predicate.displayNeed ≤ 100 ∧ predicate.displayHeight ≤ 100 then .ok predicate
      else .error (.reading .tooDeep) :=
  Predicate.compile_text (leaves_of_compile compiled)

theorem compiled_display_mixedSpellings :
    compile "!(a||b)&has(Not c)" =
        .ok (.and (.not (.or (.has "a") (.has "b"))) (.not (.has "c"))) ∧
      compile (Predicate.and (.not (.or (.has "a") (.has "b"))) (.not (.has "c"))).display =
        if (Predicate.and (.not (.or (.has "a") (.has "b"))) (.not (.has "c"))).displayNeed ≤ 100 ∧
            (Predicate.and (.not (.or (.has "a") (.has "b"))) (.not (.has "c"))).displayHeight ≤
              100 then
          .ok (.and (.not (.or (.has "a") (.has "b"))) (.not (.has "c")))
        else .error (.reading .tooDeep) := by
  have compiled : compile "!(a||b)&has(Not c)" =
      .ok (.and (.not (.or (.has "a") (.has "b"))) (.not (.has "c"))) := by
    rw [compile, Expr.ofSource_mixedSpellings]
    rfl
  exact ⟨compiled, compiled_display_within_limits compiled⟩

/-! ### A source at the limit -/

def negations : Nat → Expr
  | 0 => .identifier "a"
  | count + 1 => .unary ⟨.not, "Not", 0⟩ (negations count)

example : (negations 2).display = "Not Not a" := by decide

def negatedName : Nat → Predicate
  | 0 => .has "a"
  | count + 1 => .not (negatedName count)

theorem need_negations (count : Nat) : (negations count).need = count + 1 := by
  induction count with
  | zero => rfl
  | succ count ih => rw [negations, Expr.need, ih]

theorem height_negations (count : Nat) : (negations count).height = count + 1 := by
  induction count with
  | zero => rfl
  | succ count ih => rw [negations, Expr.height, ih]

theorem spelled_negations (count : Nat) : (negations count).Spelled := by
  induction count with
  | zero =>
      have alone : Token.ReadsAsName "a" := ⟨0, 1, Cursor.remaining_of_within 2 rfl⟩
      exact alone.admitted
  | succ count ih => exact ⟨rfl, .inl rfl, ih⟩

theorem lower_negations (count : Nat) : (negations count).lower = .ok (negatedName count) := by
  induction count with
  | zero => rfl
  | succ count ih =>
      rw [negations, Expr.lower, if_pos rfl, ih]
      rfl

theorem compile_negations {count : Nat} (low : count < 100) :
    compile (negations count).display = .ok (negatedName count) := by
  rw [(spelled_negations count).compile_text (lower_negations count), need_negations,
    height_negations, if_pos ⟨low, low⟩]

theorem displayHeight_negatedName (count : Nat) :
    (negatedName count).displayHeight = count + 2 := by
  induction count with
  | zero => rfl
  | succ count ih =>
      rw [negatedName, Predicate.displayHeight, ih]
      omega

/-- Ninety-nine negations of a name are as high as the limits admit; shown as a call, the name
makes the text of the predicate too high. -/
theorem negations_not_compiled_back : ∃ predicate, compile (negations 99).display = .ok predicate ∧
    compile predicate.display = .error (.reading .tooDeep) := by
  have compiled := compile_negations (show 99 < 100 by decide)
  refine ⟨negatedName 99, compiled, ?_⟩
  rw [Predicate.compile_text (leaves_of_compile compiled), displayHeight_negatedName,
    if_neg (by omega)]

end Permission
