import HyperQuery.Json.Parser
import HyperQuery.Proofs.Text
import Mathlib.Data.List.TakeDrop

/-!
# Reading what is written

A JSON value whose numbers are digits where digits should be, and all whose strings have a text, is read back from its
text (`Json.parse?_compact`). What is written ends where a closing mark follows: a number would go on with a digit, a
point or an exponent, which are none.
-/

namespace HyperQuery

/-- Digits, and at least one. -/
def IsNumeral (cs : List Char) : Prop := cs ≠ [] ∧ ∀ c ∈ cs, c.isDigit = true

/-- A number whose parts are what a number is written with. -/
structure JsonNumber.WellWritten (n : JsonNumber) : Prop where
  whole : IsNumeral n.whole
  /-- There is no leading zero unless it is the only digit. -/
  leading : n.whole.head? = some '0' → n.whole = ['0']
  fraction : ∀ c ∈ n.fraction, c.isDigit = true
  exponent : ∀ e ∈ n.exponent, IsNumeral e.2

namespace Json

mutual

/-- Whether all numbers are well written and all strings have a text. -/
def WellWritten : Json → Prop
  | .number n => n.WellWritten
  | .string text => text.isSome = true
  | .array items => AllWellWritten items
  | .object fields => FieldsWellWritten fields
  | _ => True

/-- Whether all items are well written. -/
def AllWellWritten : List Json → Prop
  | [] => True
  | item :: rest => item.WellWritten ∧ AllWellWritten rest

/-- Whether all fields are well written, and their names have a text. -/
def FieldsWellWritten : List (JsonText × Json) → Prop
  | [] => True
  | (name, item) :: rest => name.isSome = true ∧ item.WellWritten ∧ FieldsWellWritten rest

end

variable {fuel : Nat} {cs rest : List Char}

/-! ### Numbers -/

/-- Nothing follows, or something that is not part of a number. -/
def NumberEnds (rest : List Char) : Prop := ∀ c ∈ rest.head?, c.isDigit = false ∧ c ∉ ['.', 'e', 'E']

theorem numberEnds_of_closed (h : Text.Closed rest) : NumberEnds rest := by
  have hall : ∀ c ∈ Text.closers, c.isDigit = false ∧ c ∉ ['.', 'e', 'E'] :=
    List.all_iff_forall_prop.mp (by decide)
  exact fun c hc => hall c (h c hc)

theorem spanDigits_append (hcs : ∀ c ∈ cs, c.isDigit = true) (hrest : ∀ c ∈ rest.head?, c.isDigit = false) :
    spanDigits (cs ++ rest) = (cs, rest) := by
  have hstop : rest.takeWhile Char.isDigit = [] ∧ rest.dropWhile Char.isDigit = rest := by
    cases rest with
    | nil => exact ⟨rfl, rfl⟩
    | cons c rest => simp [hrest c rfl]
  rw [spanDigits, List.span_eq_takeWhile_dropWhile, List.takeWhile_append_of_pos hcs, List.dropWhile_append_of_pos hcs,
    hstop.1, hstop.2, List.append_nil]

theorem readWhole_append (hcs : IsNumeral cs) (hzero : cs.head? = some '0' → cs = ['0'])
    (hrest : ∀ c ∈ rest.head?, c.isDigit = false) : readWhole (cs ++ rest) = some (cs, rest) := by
  unfold readWhole
  rw [spanDigits_append hcs.2 hrest]
  split
  · rename_i h
    exact absurd (congrArg Prod.fst h) hcs.1
  · rename_i h
    obtain rfl := congrArg Prod.fst h
    simpa using hzero rfl
  · rename_i h
    rw [h]

/-- The characters of a fraction, if there is one. -/
def fractionChars : List Char → List Char
  | [] => []
  | c :: digits => '.' :: c :: digits

theorem readFraction_append {fraction : List Char} (hfraction : ∀ c ∈ fraction, c.isDigit = true)
    (hrest : ∀ c ∈ rest.head?, c.isDigit = false ∧ c ≠ '.') :
    readFraction (fractionChars fraction ++ rest) = some (fraction, rest) := by
  cases fraction with
  | nil =>
    change readFraction rest = _
    unfold readFraction
    split
    · exact absurd rfl (hrest '.' rfl).2
    · rfl
  | cons c fraction =>
    rw [fractionChars, List.cons_append, readFraction, spanDigits_append hfraction fun c hc => (hrest c hc).1]

theorem readExponentDigits_append (negative : Bool) (hcs : IsNumeral cs)
    (hrest : ∀ c ∈ rest.head?, c.isDigit = false) :
    readExponentDigits negative (cs ++ rest) = some (some (negative, cs), rest) := by
  unfold readExponentDigits
  rw [spanDigits_append hcs.2 hrest]
  split
  · rename_i h
    exact absurd (congrArg Prod.fst h) hcs.1
  · rename_i h
    obtain ⟨rfl, rfl⟩ := Prod.mk.inj h
    rfl

/-- The characters of an exponent, if there is one. -/
def exponentChars : Option (Bool × List Char) → List Char
  | none => []
  | some (negative, digits) => 'e' :: (if negative then '-' else '+') :: digits

theorem readExponent_append {exponent : Option (Bool × List Char)} (hexponent : ∀ e ∈ exponent, IsNumeral e.2)
    (hrest : NumberEnds rest) : readExponent (exponentChars exponent ++ rest) = some (exponent, rest) := by
  cases exponent with
  | none =>
    cases rest with
    | nil => rfl
    | cons c rest =>
      have hc := (hrest c rfl).2
      simp only [List.mem_cons, List.not_mem_nil, or_false, not_or] at hc
      simp [exponentChars, readExponent, hc.2.1, hc.2.2]
  | some e =>
    obtain ⟨negative, digits⟩ := e
    have hread := fun sign => readExponentDigits_append sign (hexponent _ rfl) fun c hc => (hrest c hc).1
    cases negative with
    | false => exact hread false
    | true => exact hread true

theorem chars_eq (n : JsonNumber) : n.chars =
    (if n.negative then ['-'] else []) ++ (n.whole ++ (fractionChars n.fraction ++ exponentChars n.exponent)) := by
  obtain ⟨negative, whole, fraction, exponent⟩ := n
  cases fraction <;> cases exponent <;> simp [JsonNumber.chars, fractionChars, exponentChars]

/-- A number is read back where it ends. -/
theorem readNumber_append {n : JsonNumber} (hn : n.WellWritten) (hrest : NumberEnds rest) :
    readNumber (n.chars ++ rest) = some (n, rest) := by
  have hexponent : ∀ c ∈ (exponentChars n.exponent ++ rest).head?, c.isDigit = false ∧ c ≠ '.' := by
    cases n.exponent with
    | none => exact fun c hc => ⟨(hrest c hc).1, fun hpoint => (hrest c hc).2 (by simp [hpoint])⟩
    | some e => simp [exponentChars]
  have hfraction : ∀ c ∈ (fractionChars n.fraction ++ (exponentChars n.exponent ++ rest)).head?, c.isDigit = false := by
    cases n.fraction with
    | nil => exact fun c hc => (hexponent c hc).1
    | cons d fraction => simp [fractionChars]
  have hreadWhole := readWhole_append hn.whole hn.leading hfraction
  have hreadFraction := readFraction_append hn.fraction hexponent
  have hreadExponent := readExponent_append hn.exponent hrest
  rw [chars_eq, List.append_assoc, List.append_assoc, List.append_assoc]
  cases hneg : n.negative with
  | true =>
    simp only [if_true, List.cons_append, List.nil_append, readNumber]
    simp [hreadWhole, hreadFraction, hreadExponent, ← hneg]
  | false =>
    rw [if_neg (by decide), List.nil_append, readNumber]
    · simp [hreadWhole, hreadFraction, hreadExponent, ← hneg]
    · intro cs h
      obtain ⟨c, digits, hwhole⟩ := List.exists_cons_of_ne_nil hn.whole.1
      rw [hwhole] at h
      have hc : c = '-' := (List.cons.inj h).1
      exact absurd (hn.whole.2 c (by simp [hwhole])) (by simp [hc])

/-! ### Strings -/

/-- A character inside quotes is itself, or behind a backslash a short escape or four hexadecimal digits. -/
theorem escapeChar_cases (c : Char) :
    (c ≠ '\x22' ∧ c ≠ '\\' ∧ ¬c.toNat < 0x20 ∧ escapeChar c = [c]) ∨
    (∃ e, e ≠ 'u' ∧ shortEscape? e = some c ∧ escapeChar c = ['\\', e]) ∨
    (c.toNat < 0x20 ∧ escapeChar c =
      ['\\', 'u', '0', '0', Nat.digitChar (c.toNat / 16), Nat.digitChar (c.toNat % 16)]) := by
  unfold escapeChar
  split
  · exact .inr (.inl ⟨'\x22', by decide⟩)
  · exact .inr (.inl ⟨'\\', by decide⟩)
  · exact .inr (.inl ⟨'b', by decide⟩)
  · exact .inr (.inl ⟨'f', by decide⟩)
  · exact .inr (.inl ⟨'n', by decide⟩)
  · exact .inr (.inl ⟨'r', by decide⟩)
  · exact .inr (.inl ⟨'t', by decide⟩)
  · rename_i hquote hback _ _ _ _ _
    split
    · rename_i hcontrol
      exact .inr (.inr ⟨hcontrol, rfl⟩)
    · rename_i hcontrol
      exact .inl ⟨hquote, hback, hcontrol, rfl⟩

theorem hexValue?_digitChar {d : Nat} (h : d < 16) : hexValue? d.digitChar = some d := by
  have hall : ∀ d : Fin 16, hexValue? d.val.digitChar = some d.val := by decide
  exact hall ⟨d, h⟩

/-- A character inside quotes is read as one piece, which stands for it. -/
theorem exists_piece (c : Char) : ∃ piece,
    (∀ {fuel cs pieces rest}, readPieces fuel cs = some (pieces, rest) →
      readPieces (fuel + 1) (escapeChar c ++ cs) = some (piece :: pieces, rest)) ∧
    ∀ {pieces text}, joinPieces pieces = some text → joinPieces (piece :: pieces) = some (c :: text) := by
  have hchar : ∀ {pieces text}, joinPieces pieces = some text → joinPieces (.char c :: pieces) = some (c :: text) := by
    intro pieces text h
    rw [joinPieces, h]
    rfl
  rcases escapeChar_cases c with ⟨hquote, hback, hcontrol, hesc⟩ | ⟨e, hu, hshort, hesc⟩ | ⟨hcontrol, hesc⟩
  · refine ⟨.char c, fun h => ?_, hchar⟩
    simp [hesc, readPieces, hquote, hback, hcontrol, h]
  · refine ⟨.char c, fun {fuel cs _ _} h => ?_, hchar⟩
    have hread : readEscape (e :: cs) = some (.char c, cs) := by
      rw [readEscape, hshort]
      · rfl
      · exact hu
    simp [hesc, readPieces, hread, h]
  · refine ⟨.unit c.toNat, fun {fuel cs _ _} h => ?_, fun h => ?_⟩
    · have hread : readHex ('0' :: '0' :: Nat.digitChar (c.toNat / 16) :: Nat.digitChar (c.toNat % 16) :: cs) =
          some (c.toNat, cs) := by
        have hzero : hexValue? '0' = some 0 := by decide
        have hvalue : c.toNat / 16 * 16 + c.toNat % 16 = c.toNat := Nat.div_add_mod' _ _
        simp [readHex, hzero, hexValue?_digitChar (show c.toNat / 16 < 16 by omega),
          hexValue?_digitChar (show c.toNat % 16 < 16 by omega), hvalue]
      simp [hesc, readPieces, readEscape, hread, h]
    · unfold joinPieces
      rw [if_neg (by omega), if_neg (by omega), Char.ofNat_toNat, h]
      rfl

/-- The inside of a string is read up to the quote after it. -/
theorem exists_pieces (text : List Char) {fuel : Nat} (hfuel : text.length ≤ fuel) (rest : List Char) :
    ∃ pieces, readPieces (fuel + 1) (text.flatMap escapeChar ++ '\x22' :: rest) = some (pieces, rest) ∧
      joinPieces pieces = some text := by
  induction text generalizing fuel with
  | nil => exact ⟨[], by simp [readPieces], rfl⟩
  | cons c text ih =>
    obtain ⟨fuel, rfl⟩ : ∃ n, fuel = n + 1 := Nat.exists_eq_add_one.mpr (Nat.lt_of_lt_of_le (by simp) hfuel)
    obtain ⟨pieces, hread, hjoin⟩ := ih (Nat.le_of_succ_le_succ hfuel)
    obtain ⟨piece, hpiece, hjoinPiece⟩ := exists_piece c
    refine ⟨piece :: pieces, ?_, hjoinPiece hjoin⟩
    rw [List.flatMap_cons, List.append_assoc]
    exact hpiece hread

theorem length_le_flatMap_escapeChar (text : List Char) : text.length ≤ (text.flatMap escapeChar).length := by
  induction text with
  | nil => exact Nat.le_refl _
  | cons c text ih =>
    have hpos : 1 ≤ (escapeChar c).length := by
      rcases escapeChar_cases c with ⟨-, -, -, hesc⟩ | ⟨e, -, -, hesc⟩ | ⟨-, hesc⟩ <;> simp [hesc]
    rw [List.flatMap_cons, List.length_append, List.length_cons]
    omega

/-- A string is read back, whatever follows it. -/
theorem readText_append (s : String) (rest : List Char) :
    readText (s.toList.flatMap escapeChar ++ '\x22' :: rest) = some (some s, rest) := by
  have hlength : s.toList.length ≤ (s.toList.flatMap escapeChar ++ '\x22' :: rest).length :=
    Nat.le_trans (length_le_flatMap_escapeChar _) (by simp)
  obtain ⟨pieces, hread, hjoin⟩ := exists_pieces s.toList hlength rest
  rw [readText, hread]
  simp [hjoin]

/-! ### Values -/

theorem skipBlanks_cons {c : Char} (h : isBlank c = false) : skipBlanks (c :: cs) = c :: cs := by
  simp [skipBlanks, h]

theorem head_chars {n : JsonNumber} (hn : n.WellWritten) :
    ∃ c cs, n.chars = c :: cs ∧ (c = '-' ∨ c.isDigit = true) := by
  rw [chars_eq]
  cases n.negative with
  | true => exact ⟨'-', _, rfl, .inl rfl⟩
  | false =>
    obtain ⟨c, cs, hwhole⟩ := List.exists_cons_of_ne_nil hn.whole.1
    exact ⟨c, _, by rw [hwhole]; rfl, .inr (hn.whole.2 c (by simp [hwhole]))⟩

/-- What is written begins with a character that is neither blank nor a closing bracket. -/
theorem head_compactChars {j : Json} (h : j.WellWritten) :
    ∃ c cs, j.compactChars = c :: cs ∧ isBlank c = false ∧ c ≠ ']' := by
  cases j with
  | null => exact ⟨'n', "ull".toList, rfl, by decide⟩
  | bool b => cases b <;> exact ⟨_, _, rfl, by decide⟩
  | number n =>
    obtain ⟨c, cs, hcs, hc⟩ := head_chars h
    refine ⟨c, cs, hcs, ?_⟩
    rcases hc with rfl | hdigit
    · decide
    · have hne : ∀ b ∈ [' ', '\n', '\t', '\r', ']'], c ≠ b := by
        rintro b hb rfl
        have hall : ∀ b ∈ [' ', '\n', '\t', '\r', ']'], b.isDigit = false :=
          List.all_iff_forall_prop.mp (by decide)
        rw [hall c hb] at hdigit
        cases hdigit
      simp [isBlank, hne]
  | string text => exact ⟨'\x22', _, rfl, by decide⟩
  | array items => exact ⟨'[', _, rfl, by decide⟩
  | object fields => exact ⟨'\x7b', _, rfl, by decide⟩

theorem readValue_number {n : JsonNumber} (hn : n.WellWritten) (hrest : Text.Closed rest) :
    readValue (fuel + 1) (n.chars ++ rest) = some (.number n, rest) := by
  obtain ⟨c, cs, hcs, hc⟩ := head_chars hn
  have hread := readNumber_append hn (numberEnds_of_closed hrest)
  have hne : ∀ b ∈ [' ', '\n', '\t', '\r', 'n', 't', 'f', '\x22', '[', '\x7b'], c ≠ b := by
    rintro b hb rfl
    have hall : ∀ b ∈ [' ', '\n', '\t', '\r', 'n', 't', 'f', '\x22', '[', '\x7b'],
        b ≠ '-' ∧ b.isDigit = false := List.all_iff_forall_prop.mp (by decide)
    simp [hall c hb] at hc
  rw [hcs, List.cons_append] at hread ⊢
  rw [readValue, skipBlanks_cons (by simp [isBlank, hne])]
  simp [hne, hread]

theorem readValue_array {items : List Json} {c : Char} (hc : isBlank c = false ∧ c ≠ ']')
    (h : readItems fuel (c :: cs) = some (items, rest)) :
    readValue (fuel + 1) ('[' :: c :: cs) = some (.array items, rest) := by
  simp [readValue, skipBlanks_cons (show isBlank '[' = false from rfl), skipBlanks_cons hc.1, hc.2, h]

theorem readValue_object {fields : List (JsonText × Json)}
    (h : readFields fuel ('\x22' :: cs) = some (fields, rest)) :
    readValue (fuel + 1) ('\x7b' :: '\x22' :: cs) = some (.object fields, rest) := by
  simp [readValue, skipBlanks, isBlank, h]

theorem readItems_last {item : Json} (h : readValue fuel cs = some (item, ']' :: rest)) :
    readItems (fuel + 1) cs = some ([item], rest) := by
  simp [readItems, h, skipBlanks, isBlank]

theorem readItems_next {item : Json} {items : List Json} {cs' : List Char} (h : readValue fuel cs = some (item, ',' :: cs'))
    (hitems : readItems fuel cs' = some (items, rest)) : readItems (fuel + 1) cs = some (item :: items, rest) := by
  simp [readItems, h, hitems, skipBlanks, isBlank]

theorem readFields_last {name : String} {item : Json} (h : readValue fuel cs = some (item, '\x7d' :: rest)) :
    readFields (fuel + 1) (quotedChars (some name) ++ ':' :: cs) = some ([(some name, item)], rest) := by
  simp [readFields, quotedChars, skipBlanks, isBlank, readText_append, h]

theorem readFields_next {name : String} {item : Json} {fields : List (JsonText × Json)} {cs' : List Char}
    (h : readValue fuel cs = some (item, ',' :: cs')) (hfields : readFields fuel cs' = some (fields, rest)) :
    readFields (fuel + 1) (quotedChars (some name) ++ ':' :: cs) = some ((some name, item) :: fields, rest) := by
  simp [readFields, quotedChars, skipBlanks, isBlank, readText_append, h, hfields]

theorem head_compactItems {item : Json} (items : List Json) (h : item.WellWritten) :
    ∃ c cs, compactItems (item :: items) = c :: cs ∧ isBlank c = false ∧ c ≠ ']' := by
  obtain ⟨c, cs, hcs, hc⟩ := head_compactChars h
  cases items with
  | nil => exact ⟨c, cs, hcs, hc⟩
  | cons next items => exact ⟨c, cs ++ ',' :: compactItems (next :: items), by simp [compactItems, hcs], hc⟩

theorem head_compactFields (field : JsonText × Json) (fields : List (JsonText × Json)) :
    ∃ cs, compactFields (field :: fields) = '\x22' :: cs := by
  cases fields with
  | nil => exact ⟨_, rfl⟩
  | cons next fields => exact ⟨_, rfl⟩

mutual

/-- A value is read back where nothing or a closing mark follows. Each level of nesting takes two units of fuel, and at
least two characters. -/
theorem readValue_compactChars : (j : Json) → j.WellWritten → ∀ fuel rest, 2 * j.compactChars.length ≤ fuel →
    Text.Closed rest → readValue fuel (j.compactChars ++ rest) = some (j, rest)
  | .null, _, fuel + 1, rest, _, _ => rfl
  | .bool true, _, fuel + 1, rest, _, _ => rfl
  | .bool false, _, fuel + 1, rest, _, _ => rfl
  | .number n, h, fuel + 1, rest, _, hrest => readValue_number h hrest
  | .string (some s), _, fuel + 1, rest, _, _ => by
    simp [compactChars, quotedChars, readValue, skipBlanks, isBlank, readText_append]
  | .array [], _, fuel + 1, rest, _, _ => rfl
  | .array (item :: items), h, fuel + 1, rest, hfuel, _ => by
    simp only [compactChars, List.length_cons, List.length_append, List.length_nil] at hfuel
    have hread := readItems_compactItems (item :: items) h (List.cons_ne_nil _ _) fuel rest (by omega)
    obtain ⟨c, cs, hcs, hc⟩ := head_compactItems items h.1
    rw [hcs, List.cons_append] at hread
    simpa [compactChars, hcs] using readValue_array hc hread
  | .object [], _, fuel + 1, rest, _, _ => rfl
  | .object (field :: fields), h, fuel + 1, rest, hfuel, _ => by
    simp only [compactChars, List.length_cons, List.length_append, List.length_nil] at hfuel
    have hread := readFields_compactFields (field :: fields) h (List.cons_ne_nil _ _) fuel rest (by omega)
    obtain ⟨cs, hcs⟩ := head_compactFields field fields
    rw [hcs, List.cons_append] at hread
    simpa [compactChars, hcs] using readValue_object hread
  | j, h, 0, rest, hfuel, _ => by
    obtain ⟨c, cs, hcs, -⟩ := head_compactChars h
    simp [hcs] at hfuel

theorem readItems_compactItems : (items : List Json) → AllWellWritten items → items ≠ [] → ∀ fuel rest,
    2 * (compactItems items).length < fuel →
    readItems fuel (compactItems items ++ ']' :: rest) = some (items, rest)
  | [], _, h, _, _, _ => absurd rfl h
  | [item], h, _, fuel + 1, rest, hfuel =>
    readItems_last (readValue_compactChars item h.1 _ _ (Nat.le_of_lt_succ hfuel) (Text.closed_cons.mpr (by decide)))
  | item :: next :: items, h, _, fuel + 1, rest, hfuel => by
    simp only [compactItems, List.length_append, List.length_cons] at hfuel
    have hitem := readValue_compactChars item h.1 fuel (',' :: (compactItems (next :: items) ++ ']' :: rest)) (by omega)
      (Text.closed_cons.mpr (by decide))
    have hitems := readItems_compactItems (next :: items) h.2 (List.cons_ne_nil _ _) fuel rest (by omega)
    simpa [compactItems] using readItems_next hitem hitems

theorem readFields_compactFields : (fields : List (JsonText × Json)) → FieldsWellWritten fields → fields ≠ [] →
    ∀ fuel rest, 2 * (compactFields fields).length < fuel →
    readFields fuel (compactFields fields ++ '\x7d' :: rest) = some (fields, rest)
  | [], _, h, _, _, _ => absurd rfl h
  | [(some name, item)], h, _, fuel + 1, rest, hfuel => by
    simp only [compactFields, List.length_append, List.length_cons] at hfuel
    have hitem := readValue_compactChars item h.2.1 fuel ('\x7d' :: rest) (by omega)
      (Text.closed_cons.mpr (by decide))
    simpa [compactFields] using readFields_last hitem
  | (some name, item) :: next :: fields, h, _, fuel + 1, rest, hfuel => by
    simp only [compactFields, List.length_append, List.length_cons] at hfuel
    have hitem := readValue_compactChars item h.2.1 fuel (',' :: (compactFields (next :: fields) ++ '\x7d' :: rest))
      (by omega) (Text.closed_cons.mpr (by decide))
    have hfields := readFields_compactFields (next :: fields) h.2.2 (List.cons_ne_nil _ _) fuel rest (by omega)
    simpa [compactFields] using readFields_next hitem hfields

end

/-- What is written is read back. -/
theorem parse?_compact {j : Json} (h : j.WellWritten) : parse? j.compact = some j := by
  have hread := readValue_compactChars j h (2 * j.compactChars.length + 2) [] (by omega) Text.closed_nil
  rw [List.append_nil] at hread
  rw [parse?, compact, String.toList_ofList]
  dsimp only
  rw [hread]
  rfl

end Json

end HyperQuery
