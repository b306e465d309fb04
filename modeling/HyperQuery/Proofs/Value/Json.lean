import HyperQuery.Proofs.Json.Number
import HyperQuery.Proofs.Value.Order
import HyperQuery.Value.Json

/-!
# Values read back from JSON

The serialized form of a value is a JSON text that is read back as it was written (`Json.parse?_compact`), and in it its
kind and its fields are found again. Its doubles become what their numbers stand for (`Value.reread?`), and what is
nested too deep is refused (`Value.ofJsonText?_toJsonText`). So a value is read back exactly if it is not nested too deep
and none of its doubles changes (`Value.restored_iff`). A double that is not finite is never read back: all of them are
written as null, which stands for no double.

The fields of a record are ascending in their names. Reading keeps to that (`Value.wellFormed_of_readJson?`).
-/

namespace HyperQuery

/-- The double has a number, and is what it stands for. -/
def Double.IsReread (x : Double) : Prop := (JsonNumber.ofDouble? x).bind JsonNumber.double? = some x

instance : DecidablePred Double.IsReread := fun x =>
  inferInstanceAs (Decidable ((JsonNumber.ofDouble? x).bind JsonNumber.double? = some x))

namespace Value

/-- Names in ascending order, each name once. -/
def Ascending (names : List String) : Prop := names.Pairwise fun a b => Ord.compare a b = .lt

instance : DecidablePred Ascending := fun names =>
  inferInstanceAs (Decidable (names.Pairwise fun a b => Ord.compare a b = .lt))

mutual

/-- Whether the names of the fields of all records are ascending. -/
def WellFormed : Value → Prop
  | .record fields => Ascending (fields.map Prod.fst) ∧ FieldsWellFormed fields
  | _ => True

/-- Whether the values of all fields are well formed. -/
def FieldsWellFormed : List (String × Value) → Prop
  | [] => True
  | (_, v) :: rest => v.WellFormed ∧ FieldsWellFormed rest

end

mutual

/-- How deep the serialized form is nested: a value takes up one level, and a content with parts another one. -/
def levels : Value → Nat
  | .bytes _ => 2
  | .record fields => fieldLevels fields + 2
  | _ => 1

/-- How deep the fields are nested. -/
def fieldLevels : List (String × Value) → Nat
  | [] => 0
  | (_, v) :: rest => max v.levels (fieldLevels rest)

end

mutual

/-- All doubles in the value. -/
def doubles : Value → List Double
  | .float x => [x]
  | .record fields => fieldDoubles fields
  | _ => []

/-- All doubles in the fields. -/
def fieldDoubles : List (String × Value) → List Double
  | [] => []
  | (_, v) :: rest => v.doubles ++ fieldDoubles rest

end

mutual

/-- The value with what the numbers of its doubles stand for. -/
def reread? : Value → Option Value
  | .float x => ((JsonNumber.ofDouble? x).bind JsonNumber.double?).map .float
  | .record fields => (rereadFields? fields).map .record
  | v => some v

/-- The fields with what the numbers of their doubles stand for. -/
def rereadFields? : List (String × Value) → Option (List (String × Value))
  | [] => some []
  | (name, v) :: rest => do
    let v ← v.reread?
    return (name, v) :: (← rereadFields? rest)

end

variable {v : Value} {fields : List (String × Value)} {depth : Nat}

/-! ### Records -/

/-- A field after all others is added at the end. -/
theorem setField_of_forall_lt {name : String} (h : ∀ f ∈ fields, Ord.compare f.1 name = .lt) :
    setField name v fields = fields ++ [(name, v)] := by
  induction fields with
  | nil => rfl
  | cons f rest ih =>
    have hgt : Ord.compare name f.1 = .gt := Std.OrientedCmp.gt_iff_lt.mpr (h f List.mem_cons_self)
    rw [setField, hgt, ih fun g hg => h g (List.mem_cons_of_mem _ hg)]
    rfl

/-- Fields in ascending order are a record as they are. -/
theorem ofFields_of_ascending (h : Ascending (fields.map Prod.fst)) : ofFields fields = .record fields := by
  suffices hfold : ∀ acc, Ascending ((acc ++ fields).map Prod.fst) →
      fields.foldl (fun acc f => setField f.1 f.2 acc) acc = acc ++ fields by
    rw [ofFields, hfold [] h, List.nil_append]
  clear h
  induction fields with
  | nil => simp
  | cons f rest ih =>
    intro acc hacc
    have hlast : ∀ g ∈ acc, Ord.compare g.1 f.1 = .lt := by
      rw [Ascending, List.map_append, List.pairwise_append] at hacc
      exact fun g hg => hacc.2.2 g.1 (List.mem_map_of_mem hg) f.1 List.mem_cons_self
    rw [List.foldl_cons, setField_of_forall_lt hlast, ih _ (by simpa using hacc)]
    simp

theorem mem_of_mem_setField {name : String} {f : String × Value} (h : f ∈ setField name v fields) :
    f = (name, v) ∨ f ∈ fields := by
  induction fields with
  | nil => exact .inl (List.mem_singleton.mp h)
  | cons g rest ih =>
    rw [setField] at h
    split at h
    · exact List.mem_cons.mp h
    · exact (List.mem_cons.mp h).imp_right (List.mem_cons_of_mem _)
    · rcases List.mem_cons.mp h with rfl | h
      · exact .inr List.mem_cons_self
      · exact (ih h).imp_right (List.mem_cons_of_mem _)

/-- Setting a field keeps the names ascending. -/
theorem ascending_setField {name : String} (h : Ascending (fields.map Prod.fst)) :
    Ascending ((setField name v fields).map Prod.fst) := by
  induction fields with
  | nil => exact List.pairwise_singleton _ _
  | cons g rest ih =>
    obtain ⟨hfirst, hrest⟩ := List.pairwise_cons.mp h
    rw [setField]
    split
    · rename_i hlt
      refine List.pairwise_cons.mpr ⟨fun k hk => ?_, h⟩
      rcases List.mem_cons.mp hk with rfl | hk
      · exact hlt
      · exact Std.TransCmp.lt_trans hlt (hfirst k hk)
    · rename_i heq
      rw [Std.LawfulEqOrd.eq_of_compare heq]
      exact List.pairwise_cons.mpr ⟨hfirst, hrest⟩
    · rename_i hgt
      refine List.pairwise_cons.mpr ⟨fun k hk => ?_, ih hrest⟩
      obtain ⟨f, hf, rfl⟩ := List.mem_map.mp hk
      rcases mem_of_mem_setField hf with rfl | hf
      · exact Std.OrientedCmp.gt_iff_lt.mp hgt
      · exact hfirst f.1 (List.mem_map_of_mem hf)

theorem fieldsWellFormed_iff : FieldsWellFormed fields ↔ ∀ f ∈ fields, f.2.WellFormed := by
  induction fields with
  | nil => simp [FieldsWellFormed]
  | cons f rest ih => simp [FieldsWellFormed, ih]

/-- The record of well-formed values is well formed, in whatever order they are given. -/
theorem wellFormed_ofFields (h : ∀ f ∈ fields, f.2.WellFormed) : (ofFields fields).WellFormed := by
  suffices hfold : ∀ acc, Ascending (acc.map Prod.fst) ∧ (∀ f ∈ acc, f.2.WellFormed) →
      WellFormed (.record (fields.foldl (fun acc f => setField f.1 f.2 acc) acc)) from
    hfold [] ⟨List.Pairwise.nil, List.forall_mem_nil _⟩
  induction fields with
  | nil => exact fun acc hacc => ⟨hacc.1, fieldsWellFormed_iff.mpr hacc.2⟩
  | cons f rest ih =>
    intro acc hacc
    refine ih (fun g hg => h g (List.mem_cons_of_mem _ hg)) _ ⟨ascending_setField hacc.1, fun g hg => ?_⟩
    rcases mem_of_mem_setField hg with rfl | hg
    · exact h f List.mem_cons_self
    · exact hacc.2 g hg

/-! ### Writing -/

/-- A value other than null is written with its kind and its content. -/
theorem toJson_of_ne_null (h : v ≠ .null) :
    v.toJson = .object [(some "t", .string (some v.tag)), (some "v", v.contentJson)] := by
  cases v with
  | null => exact absurd rfl h
  | _ => simp only [toJson]

theorem allWellWritten_of_forall {items : List Json} (h : ∀ j ∈ items, j.WellWritten) : Json.AllWellWritten items := by
  induction items with
  | nil => trivial
  | cons j rest ih => exact ⟨h j List.mem_cons_self, ih fun k hk => h k (List.mem_cons_of_mem _ hk)⟩

mutual

/-- The content of a value is well written. -/
theorem wellWritten_contentJson : (v : Value) → v.contentJson.WellWritten
  | .null => by simp [contentJson, Json.WellWritten]
  | .bool b => by simp [contentJson, Json.WellWritten]
  | .int n => by
    rw [contentJson]
    exact JsonNumber.wellWritten_ofInt _
  | .float x => by
    rw [contentJson]
    split
    · exact JsonNumber.wellWritten_ofDouble? ‹_›
    · trivial
  | .string s => by simp [contentJson, Json.WellWritten]
  | .bytes data => by
    rw [contentJson]
    refine allWellWritten_of_forall fun j hj => ?_
    obtain ⟨byte, -, rfl⟩ := List.mem_map.mp hj
    exact JsonNumber.wellWritten_ofInt _
  | .record fields => by
    rw [contentJson]
    exact fieldsWellWritten_fieldsJson fields

theorem fieldsWellWritten_fieldsJson : (fields : List (String × Value)) → Json.FieldsWellWritten (fieldsJson fields)
  | [] => by
    rw [fieldsJson]
    trivial
  | (name, v) :: rest => by
    rw [fieldsJson]
    refine ⟨rfl, ?_, fieldsWellWritten_fieldsJson rest⟩
    by_cases hnull : v = .null
    · subst hnull
      rw [toJson]
      exact ⟨rfl, rfl, trivial⟩
    · rw [toJson_of_ne_null hnull]
      exact ⟨rfl, rfl, rfl, wellWritten_contentJson v, trivial⟩

end

theorem wellWritten_toJson (v : Value) : v.toJson.WellWritten := by
  have h := fieldsWellWritten_fieldsJson [("", v)]
  rw [fieldsJson] at h
  exact h.2.1

/-! ### Reading -/

/-- Reading a value that was written is reading its content, with the kind known. -/
theorem readJson?_toJson {kind : Kind} (hnull : v ≠ .null) (hkind : Kind.ofTag? v.tag = some kind) :
    readJson? (depth + 2) .text v.toJson = readContent? (depth + 1) (readJson? depth .text) kind v.contentJson := by
  simp [toJson_of_ne_null hnull, readJson?, tagAndContent?, relevantFields, readTagField?, hkind]

/-- Rereading doubles keeps the names of fields. -/
theorem names_of_rereadFields? {others : List (String × Value)} (h : rereadFields? fields = some others) :
    others.map Prod.fst = fields.map Prod.fst := by
  induction fields generalizing others with
  | nil =>
    cases h
    rfl
  | cons f rest ih =>
    simp only [rereadFields?, bind, Option.bind_eq_some_iff, pure, Option.some.injEq] at h
    obtain ⟨w, -, ws, hws, rfl⟩ := h
    simp [ih hws]

theorem readByte?_ofInt (byte : UInt8) : readByte? (.number (JsonNumber.ofInt byte.toNat)) = some byte := by
  have hbyte := byte.toNat_lt
  have hmin : Int64.minValue.toInt = -2 ^ 63 := by decide
  have hmax : UInt64.size = 2 ^ 64 := rfl
  rw [readByte?, JsonNumber.int?_ofInt (by omega) (by omega), Option.bind_some, if_pos (by omega), Int.toNat_natCast,
    UInt8.ofNat_toNat]

theorem readContent?_int {readValue : Json → Option Value} (n : Int64) :
    readContent? depth readValue .int (.number (JsonNumber.ofInt n.toInt)) = some (.int n) := by
  have hlow := Int64.minValue_le_toInt n
  have hhigh := Int64.toInt_le n
  have hmax : Int64.maxValue.toInt = 2 ^ 63 - 1 := by decide
  have hsize : UInt64.size = 2 ^ 64 := rfl
  rw [readContent?, JsonNumber.int?_ofInt hlow (by omega), Option.bind_some, if_pos ⟨hlow, hhigh⟩, Int64.ofInt_toInt]

theorem mapM_readByte? (data : List UInt8) :
    (data.map fun byte => Json.number (JsonNumber.ofInt byte.toNat)).mapM readByte? = some data := by
  induction data with
  | nil => rfl
  | cons byte rest ih => simp [readByte?_ofInt, ih]

theorem one_le_levels (v : Value) : 1 ≤ v.levels := by
  cases v <;> simp [levels]

mutual

/-- What a value that was written is read as. -/
theorem readJson?_toJson_eq : (v : Value) → v.WellFormed → (depth : Nat) →
    readJson? depth .text v.toJson = if v.levels < depth then v.reread? else none
  | v, _, 0 => by simp [readJson?]
  | v, _, 1 => by
    have hlevels := v.one_le_levels
    rw [readJson?, if_neg (by omega)]
  | .null, _, depth + 2 => by
    simp [toJson, readJson?, tagAndContent?, relevantFields, readTagField?, Kind.ofTag?, levels, reread?]
  | .bool b, _, depth + 2 => by
    rw [readJson?_toJson (by simp) rfl]
    simp [contentJson, readContent?, levels, reread?]
  | .int n, _, depth + 2 => by
    rw [readJson?_toJson (by simp) rfl, contentJson, readContent?_int]
    simp [levels, reread?]
  | .float x, _, depth + 2 => by
    rw [readJson?_toJson (by simp) rfl, contentJson]
    rcases hn : JsonNumber.ofDouble? x with _ | n <;> simp [readContent?, levels, reread?, hn]
  | .string s, _, depth + 2 => by
    rw [readJson?_toJson (by simp) rfl]
    simp [contentJson, readContent?, levels, reread?]
  | .bytes data, _, depth + 2 => by
    rw [readJson?_toJson (by simp) rfl, contentJson, readContent?, mapM_readByte?]
    simp [levels, reread?]
  | .record fields, h, depth + 2 => by
    rw [readJson?_toJson (by simp) rfl, contentJson, readContent?]
    by_cases hdepth : 0 < depth
    · rw [if_pos (by omega), readFields?_fieldsJson fields h.2 depth hdepth]
      by_cases hlevels : fieldLevels fields < depth
      · rw [if_pos hlevels, if_pos (by rw [levels]; omega), reread?]
        rcases hothers : rereadFields? fields with _ | others
        · rfl
        · exact congrArg some (ofFields_of_ascending (names_of_rereadFields? hothers ▸ h.1))
      · rw [if_neg hlevels, if_neg (by rw [levels]; omega)]
        rfl
    · rw [if_neg (by omega), if_neg (by rw [levels]; omega)]

theorem readFields?_fieldsJson : (fields : List (String × Value)) → FieldsWellFormed fields →
    (depth : Nat) → 0 < depth → readFields? (readJson? depth .text) (fieldsJson fields) =
      if fieldLevels fields < depth then rereadFields? fields else none
  | [], _, depth, hdepth => by simp [fieldsJson, readFields?, rereadFields?, fieldLevels, hdepth]
  | (name, v) :: rest, h, depth, hdepth => by
    rw [fieldsJson, readFields?, readJson?_toJson_eq v h.1, readFields?_fieldsJson rest h.2 depth hdepth, rereadFields?]
    by_cases hv : v.levels < depth <;> by_cases hrest : fieldLevels rest < depth <;>
      simp [fieldLevels, hv, hrest]

end

/-- What the text of a value is read as. -/
theorem ofJsonText?_toJsonText (hv : v.WellFormed) :
    ofJsonText? v.toJsonText = if v.levels < depthLimit then v.reread? else none := by
  rw [ofJsonText?, toJsonText, Json.parse?_compact (wellWritten_toJson v), Option.bind_some, ofJson?,
    readJson?_toJson_eq v hv]

/-! ### What is read is well formed -/

section

variable {readValue : Json → Option Value} (hread : ∀ {j v}, readValue j = some v → v.WellFormed)

include hread

theorem wellFormed_of_readFields? {items : List (JsonText × Json)} (h : readFields? readValue items = some fields) :
    ∀ f ∈ fields, f.2.WellFormed := by
  induction items generalizing fields with
  | nil =>
    cases h
    exact List.forall_mem_nil _
  | cons item rest ih =>
    obtain ⟨_ | name, j⟩ := item
    · cases h
    · simp only [readFields?, bind, Option.bind_eq_some_iff, pure, Option.some.injEq] at h
      obtain ⟨w, hw, ws, hws, rfl⟩ := h
      exact List.forall_mem_cons.mpr ⟨hread hw, ih hws⟩

theorem wellFormed_of_readContent? {kind : Kind} {content : Json}
    (h : readContent? depth readValue kind content = some v) : v.WellFormed := by
  unfold readContent? at h
  split at h
  · cases h
    trivial
  · cases h
    trivial
  · simp only [Option.bind_eq_some_iff] at h
    obtain ⟨n, -, h⟩ := h
    split at h <;> cases h
    trivial
  · obtain ⟨x, -, rfl⟩ := Option.map_eq_some_iff.mp h
    trivial
  · obtain ⟨s, -, rfl⟩ := Option.map_eq_some_iff.mp h
    trivial
  · split at h
    · obtain ⟨data, -, rfl⟩ := Option.map_eq_some_iff.mp h
      trivial
    · cases h
  · split at h
    · obtain ⟨fields, hfields, rfl⟩ := Option.map_eq_some_iff.mp h
      exact wellFormed_ofFields (wellFormed_of_readFields? hread hfields)
    · cases h
  · cases h

end

/-- Whatever is read is well formed. -/
theorem wellFormed_of_readJson? : (depth : Nat) → ∀ {source j v}, readJson? depth source j = some v → v.WellFormed
  | 0, _, _, _, h => by cases h
  | 1, _, _, _, h => by cases h
  | depth + 2, _, _, _, h => by
    simp only [readJson?, bind, Option.bind_eq_some_iff] at h
    obtain ⟨⟨kind, content⟩, -, h⟩ := h
    split at h
    · exact wellFormed_of_readContent? (wellFormed_of_readJson? depth) h
    · cases h
      trivial
    · cases h

/-! ### Which values are read back -/

mutual

/-- Rereading its doubles leaves a value as it is exactly if it does so for each of them. -/
theorem reread?_eq_self_iff : (v : Value) → (v.reread? = some v ↔ ∀ x ∈ v.doubles, x.IsReread)
  | .float x => by
    rw [reread?, Option.map_eq_some_iff]
    simp [doubles, Double.IsReread]
  | .record fields => by
    simp [reread?, doubles, ← rereadFields?_eq_self_iff fields]
  | .null | .bool _ | .int _ | .string _ | .bytes _ => by simp [reread?, doubles]

theorem rereadFields?_eq_self_iff :
    (fields : List (String × Value)) → (rereadFields? fields = some fields ↔ ∀ x ∈ fieldDoubles fields, x.IsReread)
  | [] => by simp [rereadFields?, fieldDoubles]
  | (name, v) :: rest => by
    simp only [fieldDoubles, List.forall_mem_append, ← reread?_eq_self_iff v, ← rereadFields?_eq_self_iff rest]
    simp [rereadFields?, Option.bind_eq_some_iff]

end

mutual

/-- A value with a double that has no number is not reread. -/
theorem reread?_eq_none : (v : Value) → ∀ x ∈ v.doubles, JsonNumber.ofDouble? x = none → v.reread? = none
  | .float y, x, hx, hnone => by
    rw [doubles, List.mem_singleton] at hx
    rw [reread?, ← hx, hnone]
    rfl
  | .record fields, x, hx, hnone => by
    rw [doubles] at hx
    rw [reread?, rereadFields?_eq_none fields x hx hnone]
    rfl
  | .null, _, hx, _ | .bool _, _, hx, _ | .int _, _, hx, _ | .string _, _, hx, _ | .bytes _, _, hx, _ => by
    simp [doubles] at hx

theorem rereadFields?_eq_none : (fields : List (String × Value)) → ∀ x ∈ fieldDoubles fields,
    JsonNumber.ofDouble? x = none → rereadFields? fields = none
  | [], _, hx, _ => by simp [fieldDoubles] at hx
  | (name, v) :: rest, x, hx, hnone => by
    rw [fieldDoubles, List.mem_append] at hx
    rcases hx with hx | hx
    · simp [rereadFields?, reread?_eq_none v x hx hnone]
    · simp [rereadFields?, rereadFields?_eq_none rest x hx hnone]

end

/-- A value is read back exactly if it is not nested too deep and each of its doubles is what its number stands for. If
a double in it is not finite, the text is refused. -/
theorem restored_iff (hv : v.WellFormed) :
    ((∃ w, ofJsonText? v.toJsonText = some w ∧ (w == v) = true) ↔
        v.levels < depthLimit ∧ ∀ x ∈ v.doubles, x.IsReread) ∧
      ∀ x ∈ v.doubles, x.isNaN = true ∨ x.isInfinite = true → ofJsonText? v.toJsonText = none := by
  rw [ofJsonText?_toJsonText hv]
  refine ⟨?_, fun x hx hinfinite => ?_⟩
  · by_cases hlevels : v.levels < depthLimit
    · rw [if_pos hlevels, ← reread?_eq_self_iff]
      simp [hlevels]
    · rw [if_neg hlevels]
      simp [hlevels]
  · rw [reread?_eq_none v x hx (JsonNumber.ofDouble?_eq_none_iff.mpr hinfinite), ite_self]

/-- A record in a record is read back with `1.5` in it, but not with `10928588.983213553`, and it is refused with an
infinity in it. -/
theorem restored_iff_nested :
    let nested : Double → Value := fun x =>
      .record [("", .null), ("a\n\x22", .record [("b", .bytes [0, 255]), ("x", .float x)]), ("n", .int (-7))]
    (∀ x, (nested x).WellFormed) ∧
      (∃ w, ofJsonText? (nested ⟨0x3ff8000000000000⟩).toJsonText = some w ∧
        (w == nested ⟨0x3ff8000000000000⟩) = true) ∧
      (¬ ∃ w, ofJsonText? (nested ⟨0x4164d8399f767c45⟩).toJsonText = some w ∧
        (w == nested ⟨0x4164d8399f767c45⟩) = true) ∧
      ofJsonText? (nested .infinity).toJsonText = none := by
  intro nested
  have houter : Ascending ["", "a\n\x22", "n"] := by decide
  have hinner : Ascending ["b", "x"] := by decide
  have hnested : ∀ x, (nested x).WellFormed := fun x =>
    ⟨houter, trivial, ⟨hinner, trivial, trivial, trivial⟩, trivial, trivial⟩
  have hdoubles : ∀ x, (nested x).doubles = [x] := fun _ => rfl
  refine ⟨hnested, (restored_iff (hnested _)).1.mpr ⟨by decide, ?_⟩, fun h => ?_,
    (restored_iff (hnested _)).2 .infinity (by simp [hdoubles]) (.inr (by decide))⟩
  · rw [hdoubles, List.forall_mem_singleton]
    decide +kernel
  · have hreread := ((restored_iff (hnested _)).1.mp h).2 ⟨0x4164d8399f767c45⟩ (by simp [hdoubles])
    exact absurd hreread (by decide +kernel)

/-- An infinity has the text of a NaN, and is not read back from it. -/
theorem exists_unrestored :
    toJsonText (.float .infinity) = toJsonText (.float .nan) ∧
      ¬ ∀ v : Value, v.WellFormed → ∃ w, ofJsonText? v.toJsonText = some w ∧ (w == v) = true := by
  have hinfinity : JsonNumber.ofDouble? .infinity = none := JsonNumber.ofDouble?_eq_none_iff.mpr (.inr (by decide))
  have hnan : JsonNumber.ofDouble? .nan = none := JsonNumber.ofDouble?_eq_none_iff.mpr (.inl (by decide))
  refine ⟨by simp [toJsonText, toJson, tag, contentJson, hinfinity, hnan], fun hall => ?_⟩
  obtain ⟨w, hw, -⟩ := hall (.float .infinity) trivial
  rw [ofJsonText?_toJsonText (v := .float .infinity) trivial, reread?, hinfinity] at hw
  simp at hw

end Value

end HyperQuery
