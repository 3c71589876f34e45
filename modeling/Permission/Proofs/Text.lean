import Permission.Text.Blank

/-!
# Where a run of characters stops

A text is cut in one way only at the first character that a run does not take.  From this follow
what is trimmed off a text that is given with blanks around it.
-/

set_option autoImplicit false

namespace Permission
namespace Text

theorem takeWhile_stop {p : Char → Bool} {front rest : List Char} {c : Char}
    (taken : ∀ d ∈ front, p d = true) (stops : p c = false) :
    (front ++ c :: rest).takeWhile p = front := by
  rw [List.takeWhile_append_of_pos taken, List.takeWhile_cons_of_neg, List.append_nil]
  rw [stops]
  exact Bool.false_ne_true

theorem dropWhile_stop {p : Char → Bool} {front rest : List Char} {c : Char}
    (taken : ∀ d ∈ front, p d = true) (stops : p c = false) :
    (front ++ c :: rest).dropWhile p = c :: rest := by
  rw [List.dropWhile_append_of_pos taken, List.dropWhile_cons_of_neg]
  rw [stops]
  exact Bool.false_ne_true

/-- A run takes the front of a text if all of the front belongs to it and what follows does not. -/
theorem takeWhile_append_iff {p : Char → Bool} {front rest : List Char} :
    (front ++ rest).takeWhile p = front ↔
      (∀ c ∈ front, p c = true) ∧ ∀ c ∈ rest.head?, p c = false := by
  constructor
  · intro whole
    have taken : ∀ c ∈ front, p c = true := by
      intro c member
      rw [← whole] at member
      exact List.all_eq_true.mp List.all_takeWhile c member
    refine ⟨taken, ?_⟩
    intro c next
    obtain ⟨later, rfl⟩ := List.head?_eq_some_iff.mp next
    rw [List.takeWhile_append_of_pos taken, List.append_right_eq_self] at whole
    rw [Bool.eq_false_iff]
    intro goesOn
    rw [List.takeWhile_cons_of_pos goesOn] at whole
    cases whole
  · intro ⟨taken, stops⟩
    cases rest with
    | nil => rw [List.takeWhile_append_of_pos taken, List.takeWhile_nil, List.append_nil]
    | cons c rest => exact takeWhile_stop taken (stops c rfl)

theorem append_stop_inj {p : Char → Bool} {front front' rest rest' : List Char} {c c' : Char}
    (taken : ∀ d ∈ front, p d = true) (stops : p c = false)
    (taken' : ∀ d ∈ front', p d = true) (stops' : p c' = false)
    (same : front ++ c :: rest = front' ++ c' :: rest') :
    front = front' ∧ c = c' ∧ rest = rest' := by
  have fronts : front = front' := by
    have taking := congrArg (List.takeWhile p) same
    rwa [takeWhile_stop taken stops, takeWhile_stop taken' stops'] at taking
  rw [fronts] at same
  have later := List.append_cancel_left same
  exact ⟨fronts, (List.cons.inj later).1, (List.cons.inj later).2⟩

/-- The two ways in which a text can reach a character that its beginning does not have. -/
theorem append_cons_eq_append_cons {front inner rest text : List Char} {c : Char}
    (absent : c ∉ front) (same : inner ++ c :: text = front ++ c :: rest) :
    (inner = front ∧ text = rest) ∨
      ∃ between, inner = front ++ c :: between ∧ rest = between ++ c :: text := by
  rcases List.append_eq_append_iff.mp same with ⟨extra, whole, later⟩ | ⟨extra, whole, later⟩
  · cases extra with
    | nil =>
        rw [List.append_nil] at whole
        exact .inl ⟨whole.symm, (List.cons.inj later).2⟩
    | cons d extra =>
        have first : c = d := (List.cons.inj later).1
        apply absurd _ absent
        rw [whole, ← first]
        simp
  · cases extra with
    | nil =>
        rw [List.append_nil] at whole
        exact .inl ⟨whole, (List.cons.inj later).2.symm⟩
    | cons d extra =>
        obtain ⟨first, others⟩ := List.cons.inj later
        rw [← first] at whole
        exact .inr ⟨extra, whole, others⟩

theorem suffix_of_not_mem {tail front rest : List Char} {c : Char} (absent : c ∉ tail)
    (closes : tail <:+ front ++ c :: rest) : tail <:+ rest := by
  have behind : rest <:+ front ++ c :: rest := ⟨front ++ [c], by simp⟩
  rcases Nat.lt_or_ge rest.length tail.length with longer | shorter
  · have within : c :: rest <:+ tail :=
      List.suffix_of_suffix_length_le (List.suffix_append _ _) closes longer
    exact absurd (within.subset List.mem_cons_self) absent
  · exact List.suffix_of_suffix_length_le closes behind shorter

/-! ### Blanks -/

theorem isBlank_of_mem_leadingBlanks {text : List Char} :
    ∀ c ∈ leadingBlanks text, isBlank c = true :=
  List.all_eq_true.mp List.all_takeWhile

theorem blank_cases (text : List Char) :
    (∀ c ∈ text, isBlank c = true) ∨
      ∃ blanks c rest, text = blanks ++ c :: rest ∧ (∀ d ∈ blanks, isBlank d = true) ∧
        isBlank c = false := by
  induction text with
  | nil => exact .inl nofun
  | cons c text ih =>
      cases blank : isBlank c with
      | false => exact .inr ⟨[], c, text, rfl, nofun, blank⟩
      | true =>
          rcases ih with all | ⟨blanks, d, rest, rfl, before, stops⟩
          · exact .inl (List.forall_mem_cons.mpr ⟨blank, all⟩)
          · exact .inr ⟨c :: blanks, d, rest, rfl, List.forall_mem_cons.mpr ⟨blank, before⟩, stops⟩

theorem leadingBlanks_append {blanks rest : List Char} {c : Char}
    (blank : ∀ d ∈ blanks, isBlank d = true) (stops : isBlank c = false) :
    leadingBlanks (blanks ++ c :: rest) = blanks :=
  takeWhile_stop blank stops

theorem trimStart_append {blanks rest : List Char} {c : Char}
    (blank : ∀ d ∈ blanks, isBlank d = true) (stops : isBlank c = false) :
    trimStart (blanks ++ c :: rest) = c :: rest :=
  dropWhile_stop blank stops

theorem trimEnd_append {front blanks : List Char} {c : Char}
    (blank : ∀ d ∈ blanks, isBlank d = true) (stops : isBlank c = false) :
    trimEnd (front ++ c :: blanks) = front ++ [c] := by
  rw [trimEnd, List.reverse_append, List.reverse_cons, List.append_assoc, List.singleton_append,
    trimStart_append (fun d member => blank d (List.mem_reverse.mp member)) stops]
  simp

theorem trimEnd_split (text : List Char) :
    ∃ blanks, (∀ d ∈ blanks, isBlank d = true) ∧ text = trimEnd text ++ blanks := by
  refine ⟨(leadingBlanks text.reverse).reverse, ?_, ?_⟩
  · intro d member
    exact isBlank_of_mem_leadingBlanks d (List.mem_reverse.mp member)
  · rw [trimEnd, ← List.reverse_append, leadingBlanks_append_trimStart, List.reverse_reverse]

/-! ### Bytes -/

theorem byteLength_toList (text : String) : byteLength text.toList = text.utf8ByteSize := by
  have listed (characters : List Char) :
      byteLength characters = (String.ofList characters).utf8ByteSize := by
    induction characters with
    | nil => rfl
    | cons c characters ih =>
        rw [byteLength_cons, ih, ← List.singleton_append, String.ofList_append,
          String.utf8ByteSize_append, ← String.singleton_eq_ofList, String.utf8ByteSize_singleton]
  rw [listed, String.ofList_toList]

theorem byteLength_pos {text : List Char} (nonempty : text ≠ []) : 0 < byteLength text := by
  cases text with
  | nil => exact absurd rfl nonempty
  | cons c text =>
      have positive := c.utf8Size_pos
      rw [byteLength_cons]
      omega

/-- A character of two texts in a row is one of the first, with fewer bytes before it than the
first has, or one of the second. -/
theorem place_cases {left right front rest : List Char} {c : Char}
    (whole : left ++ right = front ++ c :: rest) :
    (c ∈ left ∧ byteLength front < byteLength left) ∨
      ∃ more, front = left ++ more ∧ right = more ++ c :: rest := by
  rcases List.append_eq_append_iff.mp whole with ⟨more, longer, later⟩ | ⟨more, longer, later⟩
  · exact .inr ⟨more, longer, later⟩
  · cases more with
    | nil =>
        rw [List.append_nil] at longer
        exact .inr ⟨[], by rw [longer, List.append_nil], later.symm⟩
    | cons d more =>
        obtain ⟨rfl, _⟩ := List.cons.inj later
        have positive := c.utf8Size_pos
        refine .inl ⟨by rw [longer]; simp, ?_⟩
        rw [longer, byteLength_append, byteLength_cons]
        omega

/-- Of two beginnings of a text, the one with fewer bytes begins the other. -/
theorem prefix_of_byteLength_le {front front' text : List Char} (begins : front <+: text)
    (begins' : front' <+: text) (shorter : byteLength front ≤ byteLength front') :
    front <+: front' := by
  rcases List.prefix_or_prefix_of_prefix begins begins' with within | ⟨more, longer⟩
  · exact within
  · cases more with
    | nil => simp [← longer]
    | cons c more =>
        have extra := byteLength_pos (List.cons_ne_nil c more)
        rw [← longer, byteLength_append] at shorter
        omega

end Text
end Permission
