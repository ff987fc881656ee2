import Mathlib.Data.List.DropRight
import OpGraph.Text.Bracketed
import OpGraph.Text.Numeral

/-!
# Written lists of integers

Many texts write the same list: there is a choice of brackets, blanks may stand around the brackets,
the numerals and the commas, and an element of blanks alone is none, such as the one behind a final
comma. Writing is a relation between a list and a text, and reading goes back from every such text to
the list. Reading takes texts that nobody would write, so nothing is said here about what else it
accepts.
-/

namespace OpGraph.Text

variable {text before after gap inside : List Char} {value : Int} {values : List Int}

/-! ### What is written -/

/-- Blanks alone. -/
def AllBlank (text : List Char) : Prop := ∀ c ∈ text, isBlank c = true

theorem allBlank_nil : AllBlank [] := fun _ hc => absurd hc List.not_mem_nil

/-- Decimal numeral of an integer, with a sign only for a negative one. -/
def numeral (value : Int) : List Char := (toString value).toList

/-- The text writes one integer, with blanks around the numeral. -/
def WritesInt (value : Int) (text : List Char) : Prop :=
  ∃ before after, AllBlank before ∧ AllBlank after ∧ text = before ++ numeral value ++ after

/-- The text writes the elements of a list, with commas between them. -/
inductive WritesItems : List Int → List Char → Prop where
  /-- Blanks alone write no element. -/
  | none {gap : List Char} : AllBlank gap → WritesItems [] gap
  /-- The last element needs no comma. -/
  | last {value : Int} {item : List Char} : WritesInt value item → WritesItems [value] item
  /-- Another element stands before a comma. -/
  | item {value : Int} {item : List Char} {values : List Int} {rest : List Char} :
      WritesInt value item → WritesItems values rest → WritesItems (value :: values) (item ++ ',' :: rest)
  /-- Blanks alone before a comma write no element. -/
  | skip {gap : List Char} {values : List Int} {rest : List Char} :
      AllBlank gap → WritesItems values rest → WritesItems values (gap ++ ',' :: rest)

/-- Brackets around a list. -/
inductive BracketStyle where
  | none
  | round
  | square

namespace BracketStyle

/-- What stands before the elements. -/
def opening : BracketStyle → List Char
  | none => []
  | round => ['(']
  | square => ['[']

/-- What stands behind the elements. -/
def closing : BracketStyle → List Char
  | none => []
  | round => [')']
  | square => [']']

end BracketStyle

/-- The text writes the list in brackets of some style, with blanks around them. -/
def WritesList (values : List Int) (text : List Char) : Prop :=
  ∃ (style : BracketStyle) (before inside after : List Char), AllBlank before ∧ AllBlank after ∧
    WritesItems values inside ∧ text = before ++ style.opening ++ inside ++ style.closing ++ after

/-! ### Numerals -/

/-- The digits of a number are read back. -/
theorem readDigits?_toDigits (number : Nat) : readDigits? (Nat.toDigits 10 number) = some number := by
  have hdigits : ∀ c ∈ Nat.toDigits 10 number, c.isDigit = true := fun c hc =>
    Nat.isDigit_of_mem_toDigits (by decide) (by decide) hc
  rw [readDigits?, if_pos ⟨Nat.toDigits_ne_nil, List.all_eq_true.mpr hdigits⟩,
    Nat.ofDigitChars_ten_toDigits]

/-- A text that starts with a digit has no sign. -/
theorem splitSign_of_digits (hdigits : ∀ c ∈ text, c.isDigit = true) :
    splitSign text = (false, text) := by
  cases text with
  | nil => rfl
  | cons first rest =>
    have hfirst := hdigits first List.mem_cons_self
    unfold splitSign
    split
    · rename_i heq
      cases heq
      cases hfirst
    · rename_i heq
      cases heq
      cases hfirst
    · rfl

theorem numeral_ofNat (number : Nat) : numeral (.ofNat number) = Nat.toDigits 10 number :=
  Nat.toList_repr

theorem numeral_negSucc (number : Nat) :
    numeral (.negSucc number) = '-' :: Nat.toDigits 10 (number + 1) := by
  change ("-" ++ (number + 1).repr).toList = _
  rw [String.toList_append, Nat.toList_repr]
  rfl

/-- A numeral is read back, whatever its size. -/
theorem readSigned?_numeral (value : Int) : readSigned? (numeral value) = some value := by
  cases value with
  | ofNat number =>
    have hdigits : ∀ c ∈ Nat.toDigits 10 number, c.isDigit = true := fun c hc =>
      Nat.isDigit_of_mem_toDigits (by decide) (by decide) hc
    rw [numeral_ofNat, readSigned?, splitSign_of_digits hdigits]
    dsimp only
    rw [readDigits?_toDigits]
    rfl
  | negSucc number =>
    have hsign : splitSign ('-' :: Nat.toDigits 10 (number + 1)) =
        (true, Nat.toDigits 10 (number + 1)) := rfl
    rw [numeral_negSucc, readSigned?, hsign]
    dsimp only
    rw [readDigits?_toDigits]
    rfl

/-- The numeral of a 64-bit integer is read back. -/
theorem readInt64?_numeral (hfits : Int64.fits value = true) :
    readInt64? (numeral value) = some value := by
  rw [readInt64?, readSigned?_numeral, Option.filter_some, if_pos hfits]

/-- A numeral is made of digits and perhaps a minus. -/
theorem isDigit_or_minus_of_mem_numeral {c : Char} (hc : c ∈ numeral value) :
    c.isDigit = true ∨ c = '-' := by
  cases value with
  | ofNat number =>
    rw [numeral_ofNat] at hc
    exact .inl (Nat.isDigit_of_mem_toDigits (by decide) (by decide) hc)
  | negSucc number =>
    rw [numeral_negSucc, List.mem_cons] at hc
    rcases hc with rfl | hc
    · exact .inr rfl
    · exact .inl (Nat.isDigit_of_mem_toDigits (by decide) (by decide) hc)

theorem numeral_ne_nil (value : Int) : numeral value ≠ [] := by
  intro hnil
  have hread := readSigned?_numeral value
  rw [hnil] at hread
  cases hread

/-! ### Characters -/

/-- No character of a numeral is blank. -/
theorem isBlank_eq_false_of_mem_numeral {c : Char} (hc : c ∈ numeral value) : isBlank c = false := by
  rcases isDigit_or_minus_of_mem_numeral hc with hdigit | rfl
  · rw [Char.isDigit_iff_toNat] at hdigit
    simp only [Char.reduceToNat] at hdigit
    simp only [isBlank, blankRanges, List.any_cons, List.any_nil, Bool.or_false, Bool.or_eq_false_iff,
      Bool.and_eq_false_iff, decide_eq_false_iff_not]
    omega
  · decide

/-- The characters that may stand between the brackets of a list. -/
def IsItemChar (c : Char) : Prop := isBlank c = true ∨ c.isDigit = true ∨ c = '-' ∨ c = ','

instance : DecidablePred IsItemChar := fun c =>
  inferInstanceAs (Decidable (isBlank c = true ∨ c.isDigit = true ∨ c = '-' ∨ c = ','))

/-- No bracket stands between the brackets. -/
theorem IsItemChar.not_bracket {c : Char} (h : IsItemChar c) :
    isOpening c = false ∧ isClosing c = false := by
  have hne : ∀ bracket, ¬ IsItemChar bracket → c ≠ bracket := fun bracket hbracket heq =>
    hbracket (heq ▸ h)
  simp only [isOpening, isClosing, Bool.or_eq_false_iff, decide_eq_false_iff_not]
  exact ⟨⟨hne '(' (by decide), hne '[' (by decide)⟩, hne ')' (by decide), hne ']' (by decide)⟩

theorem WritesInt.mem_cases {c : Char} (h : WritesInt value text) (hc : c ∈ text) :
    isBlank c = true ∨ c ∈ numeral value := by
  obtain ⟨before, after, hbefore, hafter, rfl⟩ := h
  rcases List.mem_append.mp hc with hc | hc
  · rcases List.mem_append.mp hc with hc | hc
    · exact .inl (hbefore c hc)
    · exact .inr hc
  · exact .inl (hafter c hc)

theorem WritesInt.isItemChar {c : Char} (h : WritesInt value text) (hc : c ∈ text) : IsItemChar c := by
  rcases h.mem_cases hc with hblank | hc
  · exact .inl hblank
  · rcases isDigit_or_minus_of_mem_numeral hc with hdigit | hminus
    · exact .inr (.inl hdigit)
    · exact .inr (.inr (.inl hminus))

theorem WritesItems.isItemChar (h : WritesItems values text) : ∀ c ∈ text, IsItemChar c := by
  induction h with
  | none hgap => exact fun c hc => .inl (hgap c hc)
  | last hitem => exact fun c hc => hitem.isItemChar hc
  | item hitem _ ih =>
    intro c hc
    rcases List.mem_append.mp hc with hc | hc
    · exact hitem.isItemChar hc
    · rcases List.mem_cons.mp hc with rfl | hc
      · exact .inr (.inr (.inr rfl))
      · exact ih c hc
  | skip hgap _ ih =>
    intro c hc
    rcases List.mem_append.mp hc with hc | hc
    · exact .inl (hgap c hc)
    · rcases List.mem_cons.mp hc with rfl | hc
      · exact .inr (.inr (.inr rfl))
      · exact ih c hc

/-- Blanks are no commas. -/
theorem AllBlank.comma_notMem (h : AllBlank gap) : ',' ∉ gap := fun hmem =>
  absurd (h ',' hmem) (by decide)

/-- One integer is written without a comma. -/
theorem WritesInt.comma_notMem (h : WritesInt value text) : ',' ∉ text := by
  intro hmem
  rcases h.mem_cases hmem with hblank | hmem
  · exact absurd hblank (by decide)
  · rcases isDigit_or_minus_of_mem_numeral hmem with hdigit | hminus
    · exact absurd hdigit (by decide)
    · exact absurd hminus (by decide)

/-! ### Trimming -/

variable {accepts : Char → Bool}

/-- Nothing is dropped of a text of which every character stays. -/
theorem dropWhile_eq_self (h : ∀ c ∈ text, accepts c = false) : text.dropWhile accepts = text :=
  List.dropWhile_eq_self_iff.mpr fun hlt => by simp [h _ (List.getElem_mem hlt)]

theorem dropEndWhile_eq_self (h : ∀ c ∈ text, accepts c = false) : dropEndWhile accepts text = text :=
  List.rdropWhile_eq_self_iff.mpr fun hne => by simp [h _ (List.getLast_mem hne)]

/-- Nothing is dropped in front of a character that stays. -/
theorem dropWhile_append_eq_self (hne : text ≠ []) (h : ∀ c ∈ text, accepts c = false)
    (rest : List Char) : (text ++ rest).dropWhile accepts = text ++ rest := by
  obtain ⟨first, others, rfl⟩ := List.exists_cons_of_ne_nil hne
  exact List.dropWhile_cons_of_neg (by simp [h first List.mem_cons_self])

/-- What is dropped behind a text is dropped with what is dropped at its end. -/
theorem dropEndWhile_append (hafter : ∀ c ∈ after, accepts c = true) (text : List Char) :
    dropEndWhile accepts (text ++ after) = dropEndWhile accepts text := by
  have hreverse : ∀ c ∈ after.reverse, accepts c = true := fun c hc => hafter c (List.mem_reverse.mp hc)
  rw [dropEndWhile, List.reverse_append, List.dropWhile_append_of_pos hreverse, ← dropEndWhile]

/-- Nothing is dropped in front of a character that stays at the end. -/
theorem dropEndWhile_append_cons {c : Char} (hc : accepts c = false) (front rest : List Char) :
    dropEndWhile accepts (front ++ c :: rest) = front ++ c :: dropEndWhile accepts rest := by
  have hstays : (c :: front.reverse).dropWhile accepts = c :: front.reverse :=
    List.dropWhile_cons_of_neg (by simp [hc])
  have hdropped : (rest.reverse ++ c :: front.reverse).dropWhile accepts =
      rest.reverse.dropWhile accepts ++ c :: front.reverse := by
    rw [List.dropWhile_append]
    split
    · rename_i hnil
      rw [List.isEmpty_iff.mp hnil, hstays]
      rfl
    · rfl
  rw [dropEndWhile, List.reverse_append, List.reverse_cons, List.append_assoc, List.singleton_append,
    hdropped]
  simp [dropEndWhile]

/-- Nothing is dropped behind a character that stays. -/
theorem dropEndWhile_append_eq_self (hne : text ≠ []) (h : ∀ c ∈ text, accepts c = false)
    (front : List Char) : dropEndWhile accepts (front ++ text) = front ++ text :=
  List.rdropWhile_eq_self_iff.mpr fun _ => by
    rw [List.getLast_append_of_ne_nil _ hne, h _ (List.getLast_mem hne)]
    exact Bool.false_ne_true

theorem AllBlank.dropWhile_eq_nil (h : AllBlank gap) : gap.dropWhile isBlank = [] :=
  List.dropWhile_eq_nil_iff.mpr h

theorem AllBlank.dropEndWhile_eq_nil (h : AllBlank gap) : dropEndWhile isBlank gap = [] :=
  List.rdropWhile_eq_nil_iff.mpr h

/-- Blanks around a text do not show when it is trimmed. -/
theorem trim_append (hbefore : AllBlank before) (hafter : AllBlank after) (text : List Char) :
    trim (before ++ text ++ after) = trim text := by
  rw [trim, List.append_assoc, List.dropWhile_append_of_pos hbefore, List.dropWhile_append]
  split
  · rename_i hnil
    rw [hafter.dropWhile_eq_nil, trim, List.isEmpty_iff.mp hnil]
  · rw [dropEndWhile_append hafter, trim]

theorem trim_numeral (value : Int) : trim (numeral value) = numeral value := by
  rw [trim, dropWhile_eq_self fun c hc => isBlank_eq_false_of_mem_numeral hc,
    dropEndWhile_eq_self fun c hc => isBlank_eq_false_of_mem_numeral hc]

theorem WritesInt.trim_eq (h : WritesInt value text) : trim text = numeral value := by
  obtain ⟨before, after, hbefore, hafter, rfl⟩ := h
  rw [trim_append hbefore hafter, trim_numeral]

theorem AllBlank.trim_eq_nil (h : AllBlank gap) : trim gap = [] := by
  rw [trim, h.dropWhile_eq_nil]
  rfl

/-! ### Trimmed elements -/

/-- Blanks in front of an integer may go. -/
theorem WritesInt.exists_dropWhile (h : WritesInt value text) :
    ∃ item, WritesInt value item ∧ ∀ rest, (text ++ rest).dropWhile isBlank = item ++ rest := by
  obtain ⟨before, after, hbefore, hafter, rfl⟩ := h
  refine ⟨numeral value ++ after, ⟨[], after, allBlank_nil, hafter, rfl⟩, fun rest => ?_⟩
  rw [List.append_assoc, List.append_assoc, List.append_assoc, List.dropWhile_append_of_pos hbefore]
  exact dropWhile_append_eq_self (numeral_ne_nil value)
    (fun c hc => isBlank_eq_false_of_mem_numeral hc) _

/-- Blanks behind an integer may go. -/
theorem WritesInt.dropEndWhile (h : WritesInt value text) :
    WritesInt value (dropEndWhile isBlank text) := by
  obtain ⟨before, after, hbefore, hafter, rfl⟩ := h
  rw [dropEndWhile_append hafter, dropEndWhile_append_eq_self (numeral_ne_nil value)
    fun c hc => isBlank_eq_false_of_mem_numeral hc]
  exact ⟨before, [], hbefore, allBlank_nil, (List.append_nil _).symm⟩

/-- Without the blanks at its start the text writes the same elements. -/
theorem WritesItems.dropWhile (h : WritesItems values text) :
    WritesItems values (text.dropWhile isBlank) := by
  cases h with
  | none hgap =>
    rw [hgap.dropWhile_eq_nil]
    exact .none allBlank_nil
  | last hitem =>
    obtain ⟨item, hitem, hdropped⟩ := hitem.exists_dropWhile
    rw [← List.append_nil text, hdropped, List.append_nil]
    exact .last hitem
  | item hitem hrest =>
    obtain ⟨item, hitem, hdropped⟩ := hitem.exists_dropWhile
    rw [hdropped]
    exact .item hitem hrest
  | skip hgap hrest =>
    rw [List.dropWhile_append_of_pos hgap, List.dropWhile_cons_of_neg (by decide)]
    exact .skip allBlank_nil hrest

/-- Without the blanks at its end the text writes the same elements. -/
theorem WritesItems.dropEndWhile (h : WritesItems values text) :
    WritesItems values (dropEndWhile isBlank text) := by
  induction h with
  | none hgap =>
    rw [hgap.dropEndWhile_eq_nil]
    exact .none allBlank_nil
  | last hitem => exact .last hitem.dropEndWhile
  | item hitem _ ih =>
    rw [dropEndWhile_append_cons (by decide)]
    exact .item hitem ih
  | skip hgap _ ih =>
    rw [dropEndWhile_append_cons (by decide)]
    exact .skip hgap ih

/-! ### Reading -/

/-- Between the brackets the elements are what is between the commas. -/
theorem WritesItems.pieces_eq (h : WritesItems values text) :
    ((text.splitOn ',').map trim).filter (· ≠ []) = values.map numeral := by
  induction h with
  | none hgap =>
    rw [List.splitOn_eq_singleton hgap.comma_notMem, List.map_singleton, hgap.trim_eq_nil]
    rfl
  | last hitem =>
    rw [List.splitOn_eq_singleton hitem.comma_notMem, List.map_singleton, hitem.trim_eq,
      List.filter_cons_of_pos (by simp [numeral_ne_nil])]
    rfl
  | item hitem _ ih =>
    rw [List.splitOn_append_cons_self_of_not_mem hitem.comma_notMem, List.map_cons, hitem.trim_eq,
      List.filter_cons_of_pos (by simp [numeral_ne_nil]), ih, List.map_cons]
  | skip hgap _ ih =>
    rw [List.splitOn_append_cons_self_of_not_mem hgap.comma_notMem, List.map_cons, hgap.trim_eq_nil,
      List.filter_cons_of_neg (by simp), ih]

/-- Between the brackets stands no bracket. -/
theorem WritesItems.not_bracket (h : WritesItems values text) :
    (∀ c ∈ text, isOpening c = false) ∧ ∀ c ∈ text, isClosing c = false :=
  ⟨fun c hc => (h.isItemChar c hc).not_bracket.1, fun c hc => (h.isItemChar c hc).not_bracket.2⟩

/-- A pair of brackets is taken away with the blanks around it. -/
theorem WritesItems.unbracket_bracketed (h : WritesItems values inside) (hbefore : AllBlank before)
    (hafter : AllBlank after) {opening closing : Char} (hopening : isBlank opening = false)
    (hclosing : isBlank closing = false) (hopens : isOpening opening = true)
    (hcloses : isClosing closing = true) (hnot : isOpening closing = false) :
    unbracket (before ++ [opening] ++ inside ++ [closing] ++ after) = inside := by
  have hgrouped : before ++ [opening] ++ inside ++ [closing] ++ after =
      before ++ (opening :: (inside ++ [closing])) ++ after := by simp
  have htrimmed : trim (before ++ [opening] ++ inside ++ [closing] ++ after) =
      opening :: (inside ++ [closing]) := by
    rw [hgrouped, trim_append hbefore hafter, trim, List.dropWhile_cons_of_neg (by simp [hopening])]
    exact dropEndWhile_append_cons hclosing (opening :: inside) []
  have hstays : ∀ c ∈ inside ++ [closing], isOpening c = false := by
    intro c hc
    rcases List.mem_append.mp hc with hc | hc
    · exact h.not_bracket.1 c hc
    · rw [List.mem_singleton.mp hc]
      exact hnot
  rw [unbracket, htrimmed, List.dropWhile_cons_of_pos hopens, dropWhile_eq_self hstays,
    dropEndWhile_append (by simpa using hcloses), dropEndWhile_eq_self h.not_bracket.2]

/-- What is left without the brackets writes the elements. -/
theorem WritesList.unbracket (h : WritesList values text) : WritesItems values (unbracket text) := by
  obtain ⟨style, before, inside, after, hbefore, hafter, hitems, rfl⟩ := h
  cases style with
  | none =>
    -- The blanks at the ends belong to the first and to the last element here.
    have htrimmed : WritesItems values (trim inside) := hitems.dropWhile.dropEndWhile
    simp only [BracketStyle.opening, BracketStyle.closing, List.append_nil]
    rw [Text.unbracket, trim_append hbefore hafter, dropWhile_eq_self htrimmed.not_bracket.1,
      dropEndWhile_eq_self htrimmed.not_bracket.2]
    exact htrimmed
  | round =>
    rw [BracketStyle.opening, BracketStyle.closing, hitems.unbracket_bracketed hbefore hafter
      (by decide) (by decide) (by decide) (by decide) (by decide)]
    exact hitems
  | square =>
    rw [BracketStyle.opening, BracketStyle.closing, hitems.unbracket_bracketed hbefore hafter
      (by decide) (by decide) (by decide) (by decide) (by decide)]
    exact hitems

/-- Numerals of 64-bit integers are read one by one. -/
theorem mapM_readInt64?_numeral (hfits : ∀ value ∈ values, Int64.fits value = true) :
    (values.map numeral).mapM readInt64? = some values := by
  induction values with
  | nil => rfl
  | cons value rest ih =>
    obtain ⟨hvalue, hrest⟩ := List.forall_mem_cons.mp hfits
    rw [List.map_cons, List.mapM_cons, readInt64?_numeral hvalue, ih hrest]
    rfl

/-- A written list of 64-bit integers is read back. -/
theorem WritesList.readList?_eq (h : WritesList values text)
    (hfits : ∀ value ∈ values, Int64.fits value = true) :
    readList? readInt64? text = some values := by
  rw [readList?, elements, h.unbracket.pieces_eq, mapM_readInt64?_numeral hfits]

end OpGraph.Text
