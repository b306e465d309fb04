import HyperQuery.Value.Basic
import HyperQuery.Proofs.Double.Decimal

/-!
# What the text of a value shows

The text of a value shows its kind and its contents, except that a byte string shows only its length, a NaN not its
bits, and a number not whether it is an integer or a double: values of one text are alike (`Alike`), if the names of
record fields have no marks that could be mistaken for the structure of the text. The text can be read back also where
something follows it (`text_append_inj`).
-/

namespace HyperQuery

namespace Value

mutual

/-- Whether two values cannot be told apart by their texts. -/
def Alike : Value → Value → Prop
  | .null, .null => True
  | .bool a, .bool b => a = b
  | .int m, .int n => m = n
  | .float x, .float y => x = y ∨ (x.isNaN = true ∧ y.isNaN = true)
  | .int n, .float x => toString n.toInt = x.text
  | .float x, .int n => toString n.toInt = x.text
  | .string s, .string t => s = t
  | .bytes a, .bytes b => a.length = b.length
  | .record a, .record b => AlikeFields a b
  | _, _ => False

/-- Whether two lists of fields have the same names and values that cannot be told apart. -/
def AlikeFields : List (String × Value) → List (String × Value) → Prop
  | [], [] => True
  | (k, v) :: a, (l, w) :: b => k = l ∧ Alike v w ∧ AlikeFields a b
  | _, _ => False

end

mutual

/-- Whether the names of fields, at any depth, have no marks. -/
def Plain : Value → Prop
  | .record fields => PlainFields fields
  | _ => True

/-- Whether the names of the fields and of those inside them have no marks. -/
def PlainFields : List (String × Value) → Prop
  | [] => True
  | (k, v) :: rest => Text.IsPlain k ∧ Plain v ∧ PlainFields rest

end

theorem alikeFields_iff {a b : List (String × Value)} :
    AlikeFields a b ↔ List.Forall₂ (fun f g => f.1 = g.1 ∧ f.2.Alike g.2) a b := by
  induction a generalizing b with
  | nil => cases b <;> simp [AlikeFields]
  | cons f a ih => cases b <;> simp [AlikeFields, ih, and_assoc]

theorem plainFields_iff {a : List (String × Value)} :
    PlainFields a ↔ ∀ f ∈ a, Text.IsPlain f.1 ∧ f.2.Plain := by
  induction a with
  | nil => simp [PlainFields]
  | cons f a ih => simp [PlainFields, ih, and_assoc]

/-! ### Kinds -/

/-- The kind of a value as far as its text shows it: integers and doubles are numbers. -/
def shownKind : Value → Nat
  | .float _ => 2
  | v => v.kindRank

/-- The kind of the values whose texts begin with a character. -/
def kindOf (c : Char) : Nat :=
  if c = 'n' then 0 else if c = 't' ∨ c = 'f' then 1 else if c = '\x22' then 4 else if c = '<' then 5
  else if c = '\x7b' then 6 else 2

/-- A text begins with a character that shows the kind. -/
theorem head?_text (v : Value) : ∃ c, v.text.toList.head? = some c ∧ kindOf c = v.shownKind := by
  have hnumber : ∀ c ∈ Double.numerals, c ∉ ['n', 'f'] → kindOf c = 2 := List.all_iff_forall_prop.mp (by decide)
  cases v with
  | null => exact ⟨'n', rfl, rfl⟩
  | bool b => cases b <;> exact ⟨_, rfl, rfl⟩
  | int n =>
    have hdigit : ∀ d : Fin 10, kindOf d.val.digitChar = 2 := by decide
    simp only [text, Text.toList_toString_int]
    split
    · exact ⟨'-', rfl, rfl⟩
    · obtain ⟨c, rest, hc⟩ := List.exists_cons_of_ne_nil (Nat.toDigits_ne_nil (n := n.toInt.natAbs) (b := 10))
      obtain ⟨d, hd, rfl⟩ := Text.exists_digit_of_mem_toDigits (by decide) (hc ▸ List.mem_cons_self)
      exact ⟨_, by rw [hc]; rfl, hdigit ⟨d, hd⟩⟩
  | float x =>
    obtain ⟨c, hc, hmem, hletter⟩ := x.head?_text
    exact ⟨c, hc, hnumber c hmem hletter⟩
  | string s => exact ⟨'\x22', by simp [text, Text.quoted], rfl⟩
  | bytes data => exact ⟨'<', by simp [text], rfl⟩
  | record fields => exact ⟨'\x7b', by simp [text], rfl⟩

theorem shownKind_eq_of_text_append_eq {v w : Value} {r r' : List Char}
    (h : v.text.toList ++ r = w.text.toList ++ r') : v.shownKind = w.shownKind := by
  obtain ⟨c, hc, hv⟩ := v.head?_text
  obtain ⟨d, hd, hw⟩ := w.head?_text
  have hhead := congrArg List.head? h
  rw [List.head?_append, List.head?_append, hc, hd] at hhead
  obtain rfl : c = d := by simpa using hhead
  rw [← hv, hw]

/-! ### Words -/

/-- A value that is neither a string nor a record. -/
def IsWord : Value → Prop
  | .string _ | .record _ => False
  | _ => True

theorem notMem_closers_of_isWord {v : Value} (h : v.IsWord) {c : Char} (hc : c ∈ v.text.toList) :
    c ∉ Text.closers := by
  have hmarks : c ∉ Text.marks → c ∉ Text.closers := fun hm hcl => hm (Text.mem_marks_of_mem_closers hcl)
  cases v with
  | null =>
    have hall : ∀ c ∈ "null".toList, c ∉ Text.closers := List.all_iff_forall_prop.mp (by decide)
    exact hall c hc
  | bool b =>
    have hall : ∀ c ∈ (text (.bool b)).toList, c ∉ Text.closers := by
      cases b <;> exact List.all_iff_forall_prop.mp (by decide)
    exact hall c hc
  | int n => exact hmarks (Text.notMem_marks_of_mem_int hc)
  | float x => exact hmarks (Double.notMem_marks_of_mem_numerals (Double.mem_numerals_of_mem_text hc))
  | string s => exact h.elim
  | bytes data =>
    have hbrackets : ∀ c ∈ "<".toList ++ " bytes>".toList, c ∉ Text.closers :=
      List.all_iff_forall_prop.mp (by decide)
    simp only [text, String.toList_append] at hc
    rcases List.mem_append.mp hc with hc | hc
    · rcases List.mem_append.mp hc with hc | hc
      · exact hbrackets c (List.mem_append_left _ hc)
      · exact hmarks (Text.notMem_marks_of_mem_nat hc)
    · exact hbrackets c (List.mem_append_right _ hc)
  | record fields => exact h.elim

/-- Words of one text are alike. -/
theorem alike_of_text_eq {v w : Value} (hv : v.IsWord) (hw : w.IsWord) (h : v.text = w.text) : Alike v w := by
  have hlist : v.text.toList ++ [] = w.text.toList ++ [] := by rw [h]
  have hkind := shownKind_eq_of_text_append_eq hlist
  cases v with
  | null => cases w <;> trivial
  | bool a =>
    cases w with
    | bool b =>
      have hall : ∀ a b : Bool, text (.bool a) = text (.bool b) → a = b := by decide
      exact hall a b h
    | _ => simp [shownKind, kindRank] at hkind
  | int m =>
    cases w with
    | int n => exact Int64.toInt_inj.mp (Text.toString_int_inj h)
    | float y => exact h
    | _ => simp [shownKind, kindRank] at hkind
  | float x =>
    cases w with
    | int n => exact h.symm
    | float y => exact Double.text_eq_iff.mp h
    | _ => simp [shownKind, kindRank] at hkind
  | string s => exact hv.elim
  | bytes a =>
    cases w with
    | bytes b =>
      have hlist := congrArg String.toList h
      simp only [text, String.toList_append, List.append_assoc] at hlist
      have hdigits := List.append_cancel_right (List.append_cancel_left hlist)
      exact Text.toString_nat_inj (String.toList_inj.mp hdigits)
    | _ => simp [shownKind, kindRank] at hkind
  | record fields => exact hv.elim

theorem word_append_inj {v w : Value} (hv : v.IsWord) (hw : w.IsWord) {r r' : List Char} (hr : Text.Closed r)
    (hr' : Text.Closed r') (h : v.text.toList ++ r = w.text.toList ++ r') : Alike v w ∧ r = r' := by
  obtain ⟨htext, hrest⟩ := Text.append_inj_of_free (P := (· ∈ Text.closers))
    (fun c => notMem_closers_of_isWord hv) (fun c => notMem_closers_of_isWord hw) hr hr' h
  exact ⟨alike_of_text_eq hv hw (String.toList_inj.mp htext), hrest⟩

/-! ### Reading values back -/

/-- A field as it stands in a record. -/
def fieldText (f : String × Value) : String := f.1 ++ ": " ++ f.2.text

theorem fieldTexts_eq_map (fields : List (String × Value)) : fieldTexts fields = fields.map fieldText := by
  induction fields with
  | nil => rfl
  | cons f rest ih => simp [fieldTexts, fieldText, ih]

theorem opens_fieldText {f : String × Value} (h : Text.IsPlain f.1) : Text.Opens (fieldText f) := by
  unfold Text.Opens
  rcases hk : f.1.toList with _ | ⟨c, rest⟩
  · exact ⟨':', ' ' :: f.2.text.toList, by simp [fieldText, hk], by decide⟩
  · have hc : c ∉ Text.marks := h c (by rw [hk]; exact List.mem_cons_self)
    exact ⟨c, rest ++ ':' :: ' ' :: f.2.text.toList, by simp [fieldText, hk],
      fun hcl => hc (Text.mem_marks_of_mem_closers hcl)⟩

/-- What it takes to read a value back where a closing mark or nothing follows. -/
def ReadsBack (v : Value) : Prop :=
  ∀ (w : Value) (r r' : List Char), v.Plain → w.Plain → Text.Closed r → Text.Closed r' →
    v.text.toList ++ r = w.text.toList ++ r' → Alike v w ∧ r = r'

theorem readsBack_of_isWord {v : Value} (hv : v.IsWord) : v.ReadsBack := by
  intro w r r' _ _ hr hr' h
  have hkind := shownKind_eq_of_text_append_eq h
  cases w with
  | string s => cases v <;> first | exact hv.elim | simp [shownKind, kindRank] at hkind
  | record fields => cases v <;> first | exact hv.elim | simp [shownKind, kindRank] at hkind
  | _ => exact word_append_inj hv (by trivial) hr hr' h

theorem readsBack_string (s : String) : ReadsBack (.string s) := by
  intro w r r' _ _ _ _ h
  have hkind := shownKind_eq_of_text_append_eq h
  cases w with
  | string t => exact Text.quoted_append_inj h
  | _ => simp [shownKind, kindRank] at hkind

/-- A record can be read back if the values of its fields can. -/
theorem readsBack_record {fields : List (String × Value)} (ih : ∀ f ∈ fields, f.2.ReadsBack) :
    ReadsBack (.record fields) := by
  intro w r r' hv hw hr hr' h
  have hkind := shownKind_eq_of_text_append_eq h
  cases w with
  | record others =>
    have hfields := plainFields_iff.mp hv
    have hothers := plainFields_iff.mp hw
    have hread : Text.Readable fieldText (fun f g => f.1 = g.1 ∧ f.2.Alike g.2) fields others := by
      intro f hf g hg s s' hs hs' hfg
      simp only [fieldText, String.toList_append, List.append_assoc] at hfg
      obtain ⟨hname, hvalue⟩ := Text.append_cons_inj ((hfields f hf).1.notMem (by decide))
        ((hothers g hg).1.notMem (by decide)) hfg
      obtain ⟨halike, hrest⟩ := ih f hf g.2 s s' (hfields f hf).2 (hothers g hg).2 hs hs' (List.cons.inj hvalue).2
      exact ⟨⟨String.toList_inj.mp hname, halike⟩, hrest⟩
    simp only [text, fieldTexts_eq_map, String.toList_append, List.append_assoc] at h
    obtain ⟨hall, hrest⟩ := Text.intercalate_append_inj (by decide) (by decide) hread
      (fun f hf => opens_fieldText (hfields f hf).1) (fun g hg => opens_fieldText (hothers g hg).1)
      (List.append_cancel_left h)
    exact ⟨alikeFields_iff.mpr hall, hrest⟩
  | _ => simp [shownKind, kindRank] at hkind

mutual

/-- Every value can be read back from its text. -/
theorem readsBack : (v : Value) → v.ReadsBack
  | .record fields => readsBack_record (readsBackFields fields)
  | .string s => readsBack_string s
  | .null => readsBack_of_isWord trivial
  | .bool _ => readsBack_of_isWord trivial
  | .int _ => readsBack_of_isWord trivial
  | .float _ => readsBack_of_isWord trivial
  | .bytes _ => readsBack_of_isWord trivial

theorem readsBackFields : (fields : List (String × Value)) → ∀ f ∈ fields, f.2.ReadsBack
  | [], f, hf => absurd hf List.not_mem_nil
  | (k, v) :: rest, f, hf => by
    rcases List.mem_cons.mp hf with rfl | hf
    · exact readsBack v
    · exact readsBackFields rest f hf

end

/-! ### Alike values -/

mutual

/-- Values that are alike have one text. -/
theorem Alike.text_eq : {v w : Value} → Alike v w → v.text = w.text
  | .record a, w, h => by
    cases w with
    | record b => simp only [text, AlikeFields.fieldTexts_eq h]
    | _ => exact absurd h (by simp [Alike])
  | .float x, w, h => by
    cases w with
    | float y => exact Double.text_eq_iff.mpr h
    | int n => exact (show toString n.toInt = x.text from h).symm
    | _ => exact absurd h (by simp [Alike])
  | .int n, w, h => by
    cases w with
    | int m => exact congrArg (fun n : Int64 => toString n.toInt) h
    | float x => exact h
    | _ => exact absurd h (by simp [Alike])
  | .bytes a, w, h => by
    cases w with
    | bytes b => simp only [text, show a.length = b.length from h]
    | _ => exact absurd h (by simp [Alike])
  | .null, w, h => by
    cases w with
    | null => rfl
    | _ => exact absurd h (by simp [Alike])
  | .bool a, w, h => by
    cases w with
    | bool b => exact congrArg (fun b => text (.bool b)) h
    | _ => exact absurd h (by simp [Alike])
  | .string s, w, h => by
    cases w with
    | string t => exact congrArg Text.quoted h
    | _ => exact absurd h (by simp [Alike])

theorem AlikeFields.fieldTexts_eq : {a b : List (String × Value)} → AlikeFields a b → fieldTexts a = fieldTexts b
  | [], [], _ => rfl
  | (k, v) :: a, (l, w) :: b, h => by
    obtain ⟨rfl, hvw, hab⟩ := h
    rw [fieldTexts, fieldTexts, Alike.text_eq hvw, AlikeFields.fieldTexts_eq hab]

end

/-- The text of a value tells it apart from all that are not like it. -/
theorem text_eq_iff {v w : Value} (hv : v.Plain) (hw : w.Plain) : v.text = w.text ↔ Alike v w :=
  ⟨fun h => (readsBack v w [] [] hv hw Text.closed_nil Text.closed_nil (by rw [h])).1, Alike.text_eq⟩

mutual

theorem nulFree_text : (v : Value) → v.Plain → Text.NulFree v.text
  | .record fields, h =>
    ((by decide : Text.NulFree "\x7b").append (Text.nulFree_intercalate (nulFree_fieldTexts fields h))).append
      (by decide)
  | .string s, _ => Text.nulFree_quoted s
  | .null, _ => by decide
  | .bool b, _ => by cases b <;> decide
  | .int _, _ => Text.nulFree_of_notMem_marks fun _ => Text.notMem_marks_of_mem_int
  | .float _, _ => Text.nulFree_of_notMem_marks fun _ hc =>
      Double.notMem_marks_of_mem_numerals (Double.mem_numerals_of_mem_text hc)
  | .bytes _, _ =>
    ((by decide : Text.NulFree "<").append (Text.nulFree_of_notMem_marks fun _ => Text.notMem_marks_of_mem_nat)).append
      (by decide)

theorem nulFree_fieldTexts : (fields : List (String × Value)) → PlainFields fields →
    ∀ s ∈ fieldTexts fields, Text.NulFree s
  | [], _, s, hs => absurd hs List.not_mem_nil
  | (k, v) :: rest, h, s, hs => by
    obtain ⟨hk, hv, hrest⟩ := h
    rcases List.mem_cons.mp hs with rfl | hs
    · exact (hk.nulFree.append (by decide)).append (nulFree_text v hv)
    · exact nulFree_fieldTexts rest hrest s hs

end

end Value

end HyperQuery
