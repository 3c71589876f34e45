import Permission.Proofs.Json.Texts
import Permission.Proofs.Storage

/-!
# Distinct predicates have distinct forms

The text of a value shows its own end and the value, however deep its brackets nest: a reader that
admits as much depth as two values need reads both of them back.  So neither the stored text nor the
embedded form of a predicate is that of another one.
-/

set_option autoImplicit false

namespace Permission

namespace Json

/-- Two values that are spelled alike, with any texts behind them, are the same. -/
theorem spelled_append_inj {spell : Char → List Char} (reads : ReadsBack spell)
    {left right : Json} (textual : Textual left) (textual' : Textual right)
    {rest rest' : List Char} (same : spelled spell left ++ rest = spelled spell right ++ rest') :
    left = right ∧ rest = rest' := by
  have first := value_takes reads left textual (max left.nesting right.nesting) rest
  have second := value_takes reads right textual' (max left.nesting right.nesting) rest'
  rw [if_pos (Nat.le_max_left _ _), same] at first
  rw [if_pos (Nat.le_max_right _ _), first] at second
  cases second
  exact ⟨rfl, rfl⟩

theorem spelled_injective {spell : Char → List Char} (reads : ReadsBack spell)
    {left right : Json} (textual : Textual left) (textual' : Textual right)
    (same : spelled spell left = spelled spell right) : left = right := by
  have followed := congrArg (· ++ []) same
  exact (spelled_append_inj reads textual textual' followed).1

/-! ### Control characters -/

theorem letterEscape_printed {letter c : Char} (stands : letterEscape? letter = some c) :
    0x20 ≤ letter.toNat := by
  unfold letterEscape? at stands
  split at stands <;> cases stands <;> decide

theorem hexDigit_printed {value : Nat} (small : value < 16) : 0x20 ≤ (hexDigit value).toNat := by
  have all : ∀ value < 16, 0x20 ≤ (hexDigit value).toNat := by decide
  exact all value small

theorem escape_printed (c : Char) : ∀ d ∈ escape c, 0x20 ≤ d.toNat := by
  rcases escape_cases c with ⟨letter, written, stands, _⟩ | ⟨control, written⟩ |
    ⟨_, _, printed, written⟩
  · simp [written, letterEscape_printed stands]
  · have high := hexDigit_printed (show c.toNat / 16 < 16 by omega)
    have low := hexDigit_printed (show c.toNat % 16 < 16 by omega)
    simp [written, high, low]
  · simp [written, printed]

end Json

namespace Predicate

theorem toJson_injective {left right : Predicate} (same : left.toJson = right.toJson) :
    left = right := by
  have presented := congrArg ofJson? same
  rw [ofJson_toJson, ofJson_toJson] at presented
  exact Option.some.inj presented

theorem store_injective {left right : Predicate} (same : left.store = right.store) :
    left = right := by
  have spelled := congrArg String.toList same
  rw [store_toList, store_toList] at spelled
  exact toJson_injective (Json.spelled_injective Json.readsBack_escape (textual_toJson left)
    (textual_toJson right) spelled)

/-- Exchanging the quotes back keeps distinct forms apart. -/
theorem embed_injective {left right : Predicate} (same : left.embed = right.embed) :
    left = right := by
  have spelled := congrArg (fun text => text.toList.map unembedCharacter) same
  simp only [embed_unembedded] at spelled
  exact toJson_injective (Json.spelled_injective readsBack_respelled (textual_toJson left)
    (textual_toJson right) spelled)

theorem store_printed (predicate : Predicate) : ∀ c ∈ predicate.store.toList, 0x20 ≤ c.toNat := by
  have composed : Json.Composed fun text => ∀ c ∈ text, 0x20 ≤ c.toNat := by
    refine ⟨nofun, ?_, ?_⟩
    · exact fun left right => List.forall_mem_append.mpr ⟨left, right⟩
    · intro c framed
      have checked : ∀ c ∈ Json.framing, 0x20 ≤ c.toNat := by simp
      exact List.forall_mem_singleton.mpr (checked c framed)
  rw [store_toList]
  apply composed.spelled (textual_toJson predicate)
  exact fun text _ c _ => Json.escape_printed c

theorem embedCharacter_printed {c : Char} (printed : 0x20 ≤ c.toNat) :
    ∀ d ∈ embedCharacter c, 0x20 ≤ d.toNat := by
  unfold embedCharacter
  split
  · simp
  · simp
  · exact List.forall_mem_singleton.mpr printed

/-- No two predicates have the same embedded form or the same stored text, whatever their names are
and however deep they nest.  The embedded form holds no double quote and no control character. -/
theorem forms_distinct (left right : Predicate) :
    (left.embed = right.embed ↔ left = right) ∧ (left.store = right.store ↔ left = right) ∧
      ∀ c ∈ left.embed.toList, c ≠ '"' ∧ 0x20 ≤ c.toNat := by
  refine ⟨⟨embed_injective, congrArg embed⟩, ⟨store_injective, congrArg store⟩, ?_⟩
  intro c member
  constructor
  · rintro rfl
    exact quote_not_mem_embed left member
  · rw [embed, String.toList_ofList] at member
    obtain ⟨d, stored, written⟩ := List.mem_flatMap.mp member
    exact embedCharacter_printed (store_printed left d stored) c written

end Predicate
end Permission
