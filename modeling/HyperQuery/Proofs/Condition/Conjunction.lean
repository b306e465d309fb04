import HyperQuery.Condition.Simplify
import HyperQuery.Proofs.Condition.Truth
import HyperQuery.Proofs.Value.Order

/-!
# What the slots of a conjunction mean

`Conjunction.Core` says what the slots for types, values and parts ask of an atom; unlike the other conditions they
are decided by every atom. A conjunction *answers* as a list of conditions does (`Conjunction.Answers`) if the list is
false where the core fails, and has the answer of the other conditions where the core is met. Sorting in one more
condition keeps this (`answers_of_sortsIn`, `Answers.addOther`), and so does writing the conjunction out again
(`eval_toCondition`), provided that the slots fit each other as `Conjunction.WellFormed` demands.
-/

namespace HyperQuery

/-! ### Equal conditions are the same -/

namespace Condition

private theorem eq_of_beq_both :
    (∀ c d : Condition, beq c d = true → c = d) ∧ (∀ cs ds : List Condition, beqList cs ds = true → cs = ds) := by
  apply beq.mutual_induct (fun c d => beq c d = true → c = d) (fun cs ds => beqList cs ds = true → cs = ds)
  all_goals
    intros
    simp_all [beq, beqList]

theorem eq_of_beq {c d : Condition} (h : (c == d) = true) : c = d := eq_of_beq_both.1 c d h

end Condition

theorem Constraint.eq_of_beq {c d : Constraint} (h : (c == d) = true) : c = d := by
  obtain ⟨literal, op⟩ := c
  obtain ⟨literal', op'⟩ := d
  change (literal == literal' && op == op') = true at h
  simp only [Bool.and_eq_true, beq_iff_eq] at h
  rw [h.1, h.2]

namespace Conjunction

/-! ### Lists without repeats -/

section AddNew

variable {α : Type} [BEq α]

theorem addNew_eq {x : α} (xs : List α) (heq : ∀ y, (x == y) = true → x = y) :
    (x ∈ xs ∧ addNew x xs = xs) ∨ addNew x xs = xs ++ [x] := by
  unfold addNew
  by_cases h : xs.contains x = true
  · obtain ⟨y, hy, hxy⟩ := List.contains_iff_exists_mem_beq.mp h
    rw [if_pos h]
    exact .inl ⟨heq y hxy ▸ hy, rfl⟩
  · rw [if_neg h]
    exact .inr rfl

theorem mem_addNew {x y : α} {xs : List α} (heq : ∀ y, (x == y) = true → x = y) :
    y ∈ addNew x xs ↔ y ∈ xs ∨ y = x := by
  rcases addNew_eq xs heq with ⟨hx, h⟩ | h
  · rw [h]
    exact ⟨.inl, fun hy => hy.elim id fun hyx => hyx ▸ hx⟩
  · rw [h, List.mem_append, List.mem_singleton]

end AddNew

theorem nodup_addNew {α : Type} [BEq α] [LawfulBEq α] {x : α} {xs : List α} (h : xs.Nodup) :
    (addNew x xs).Nodup := by
  unfold addNew
  split
  · exact h
  · rename_i hx
    rw [List.contains_iff_mem] at hx
    exact List.nodup_append.mpr ⟨h, by simp, fun y hy z hz => by
      rw [List.mem_singleton.mp hz]
      rintro rfl
      exact hx hy⟩

theorem mem_types_requireType {k : Conjunction} {ty x : AtomId} :
    x ∈ (k.requireType ty).types ↔ x ∈ k.types ∨ x = ty := mem_addNew fun _ => beq_iff_eq.mp

theorem mem_values_addValue {k : Conjunction} {literal : Value} {op : Comparison} {c : Constraint} :
    c ∈ (k.addValue literal op).values ↔ c ∈ k.values ∨ c = ⟨literal, op⟩ :=
  mem_addNew fun _ => Constraint.eq_of_beq

theorem mem_parts_addPart {k : Conjunction} {path : String} {literal : Value} {op : Comparison}
    {part : String × Constraint} :
    part ∈ (k.addPart path literal op).parts ↔ part ∈ k.parts ∨ part = (path, ⟨literal, op⟩) := by
  refine mem_addNew fun y h => ?_
  obtain ⟨hp, hc⟩ := Bool.and_eq_true_iff.mp h
  exact Prod.ext (beq_iff_eq.mp hp) (Constraint.eq_of_beq hc)

theorem mem_others_addOther {k : Conjunction} {c d : Condition} :
    d ∈ (k.addOther c).others ↔ d ∈ k.others ∨ d = c := mem_addNew fun _ => Condition.eq_of_beq

/-! ### Sorting in one condition -/

/-- How a condition is sorted into a conjunction over the store. -/
inductive SortsIn (s : Store) (k : Conjunction) : Condition → Option Conjunction → Prop
  | nothing : SortsIn s k .nothing none
  | any : SortsIn s k .any (some k)
  | type {ty : TypeRef} {id : AtomId} (hty : ty.resolve s = .ok id) :
    SortsIn s k (.ofType ty) (some { k.requireType id with explicitType := true })
  | typedValue {ty : TypeRef} {literal : Value} {op : Comparison} {id : AtomId} (hnull : literal.isNull = false)
    (hty : ty.resolve s = .ok id) :
    SortsIn s k (.typedValue ty literal op) (some ((k.requireType id).addValue literal op))
  | defaultTyped {literal : Value} {op : Comparison} {ty : AtomId} (hnull : literal.isNull = false)
    (hty : s.typeOfValue literal = some ty) :
    SortsIn s k (.value literal op) (some ((k.requireType ty).addValue literal op))
  | untyped {literal : Value} {op : Comparison} (hnull : literal.isNull = false)
    (hty : s.typeOfValue literal = none) : SortsIn s k (.value literal op) (some (k.addValue literal op))
  | part {path : String} {literal : Value} {op : Comparison} :
    SortsIn s k (.part path literal op) (some (k.addPart path literal op))
  | other {c : Condition} : SortsIn s k c (some (k.addOther c))

theorem sortsIn_of_addLeaf {s : Store} {k : Conjunction} {c : Condition} {r : Option Conjunction}
    (h : k.addLeaf s c = .ok r) : SortsIn s k c r := by
  unfold addLeaf at h
  split at h
  · cases h; exact .nothing
  · cases h; exact .any
  · obtain ⟨id, hid, h⟩ := bind_eq_ok_iff.mp h
    cases h; exact .type hid
  · split at h
    · cases h; exact .other
    · rename_i hnull
      obtain ⟨id, hid, h⟩ := bind_eq_ok_iff.mp h
      cases h; exact .typedValue (Bool.eq_false_iff.mpr hnull) hid
  · split at h
    · cases h; exact .other
    · rename_i hnull
      have hnull := Bool.eq_false_iff.mpr hnull
      split at h
      · cases h; exact .defaultTyped hnull ‹_›
      · cases h; exact .untyped hnull ‹_›
  · cases h; exact .part
  · cases h; exact .other

/-! ### The core -/

/-- The atom meets the constraints on its type, its value and the parts of its value. -/
structure Core (k : Conjunction) (a : Atom) : Prop where
  types : ∀ ty ∈ k.types, a.type = ty
  values : ∀ c ∈ k.values, a.value.satisfies c.op c.literal = true
  parts : ∀ part ∈ k.parts, Condition.partSatisfies a part.1 part.2.op part.2.literal = true

variable {k : Conjunction} {a : Atom}

theorem core_requireType {ty : AtomId} : (k.requireType ty).Core a ↔ k.Core a ∧ a.type = ty := by
  constructor
  · intro h
    exact ⟨⟨fun x hx => h.types x (mem_types_requireType.mpr (.inl hx)), h.values, h.parts⟩,
      h.types ty (mem_types_requireType.mpr (.inr rfl))⟩
  · rintro ⟨h, hty⟩
    exact ⟨fun x hx => (mem_types_requireType.mp hx).elim (h.types x) fun hx => hx ▸ hty, h.values, h.parts⟩

theorem core_addValue {literal : Value} {op : Comparison} :
    (k.addValue literal op).Core a ↔ k.Core a ∧ a.value.satisfies op literal = true := by
  constructor
  · intro h
    exact ⟨⟨h.types, fun c hc => h.values c (mem_values_addValue.mpr (.inl hc)), h.parts⟩,
      h.values ⟨literal, op⟩ (mem_values_addValue.mpr (.inr rfl))⟩
  · rintro ⟨h, hv⟩
    exact ⟨h.types, fun c hc => (mem_values_addValue.mp hc).elim (h.values c) fun hc => hc ▸ hv, h.parts⟩

theorem core_addPart {path : String} {literal : Value} {op : Comparison} :
    (k.addPart path literal op).Core a ↔ k.Core a ∧ Condition.partSatisfies a path op literal = true := by
  constructor
  · intro h
    exact ⟨⟨h.types, h.values, fun x hx => h.parts x (mem_parts_addPart.mpr (.inl hx))⟩,
      h.parts (path, ⟨literal, op⟩) (mem_parts_addPart.mpr (.inr rfl))⟩
  · rintro ⟨h, hp⟩
    exact ⟨h.types, h.values, fun x hx => (mem_parts_addPart.mp hx).elim (h.parts x) fun hx => hx ▸ hp⟩

theorem core_addOther {c : Condition} : (k.addOther c).Core a ↔ k.Core a :=
  ⟨fun h => ⟨h.types, h.values, h.parts⟩, fun h => ⟨h.types, h.values, h.parts⟩⟩

theorem core_explicitType {b : Bool} : ({ k with explicitType := b } : Conjunction).Core a ↔ k.Core a :=
  ⟨fun h => ⟨h.types, h.values, h.parts⟩, fun h => ⟨h.types, h.values, h.parts⟩⟩

theorem core_empty : empty.Core a := ⟨by simp [empty], by simp [empty], by simp [empty]⟩

/-! ### The answer of a conjunction -/

variable {g : Graph}

/-- The conjunction answers `b`: no if the core fails, otherwise what the other conditions answer in their order. -/
def Answers (k : Conjunction) (g : Graph) (a : Atom) (b : Bool) : Prop :=
  (k.Core a ∧ (Condition.evalAll g a k.others).answer = .ok b) ∨ (¬ k.Core a ∧ b = false)

/-- The same for the outcome of sorting in; none answers no. -/
def OutcomeAnswers (g : Graph) (a : Atom) : Option Conjunction → Bool → Prop
  | some k, b => k.Answers g a b
  | none, b => b = false

theorem answers_empty : empty.Answers g a true := .inl ⟨core_empty, rfl⟩

/-- One more constraint `p` in the core answers like a condition with the answer `p` at the end. -/
theorem Answers.strengthen {k' : Conjunction} {p before b : Bool} (h : k.Answers g a before)
    (hcore : k'.Core a ↔ k.Core a ∧ p = true) (hothers : k'.others = k.others) (hb : before = true → p = b) :
    k'.Answers g a (before && b) := by
  rcases h with ⟨hk, h⟩ | ⟨hk, h⟩
  · cases p with
    | true =>
      refine .inl ⟨hcore.mpr ⟨hk, rfl⟩, ?_⟩
      rw [hothers, h]
      cases before with
      | true => rw [← hb rfl]; rfl
      | false => rfl
    | false =>
      refine .inr ⟨fun h' => Bool.noConfusion (hcore.mp h').2, ?_⟩
      cases before with
      | true => exact (hb rfl).symm
      | false => rfl
  · exact .inr ⟨fun h' => hk (hcore.mp h').1, by rw [h]; rfl⟩

theorem Answers.addOther {c : Condition} {before b : Bool} (h : k.Answers g a before)
    (hb : before = true → (c.eval g a).answer = .ok b) : (k.addOther c).Answers g a (before && b) := by
  rcases h with ⟨hk, h⟩ | ⟨hk, h⟩
  · refine .inl ⟨core_addOther.mpr hk, ?_⟩
    rcases addNew_eq k.others fun d => Condition.eq_of_beq (c := c) (d := d) with ⟨hc, hnew⟩ | hnew
    · show (Condition.evalAll g a (addNew c k.others)).answer = _
      rw [hnew, h]
      cases before with
      | true =>
        have hhold : c.Holds g a := Condition.evalAll_eq_true_iff.mp h c hc
        rw [← Except.ok.inj (hhold.symm.trans (hb rfl))]
        rfl
      | false => rfl
    · show (Condition.evalAll g a (addNew c k.others)).answer = _
      rw [hnew]
      exact Condition.evalAll_concat h hb
  · exact .inr ⟨fun h' => hk (core_addOther.mp h'), by rw [h]; rfl⟩

/-- Sorting in a condition answers like evaluating it after the rest. -/
theorem answers_of_sortsIn {c : Condition} {r : Option Conjunction} {before b : Bool}
    (hr : SortsIn g.store k c r) (h : k.Answers g a before)
    (hb : before = true → (c.eval g a).answer = .ok b) : OutcomeAnswers g a r (before && b) := by
  cases hr with
  | nothing =>
    cases before with
    | true => exact (Except.ok.inj (hb rfl)).symm
    | false => rfl
  | any =>
    refine h.strengthen (p := true) (by simp) rfl fun hbefore => ?_
    exact Except.ok.inj (hb hbefore)
  | type hty =>
    refine h.strengthen (core_explicitType.trans (core_requireType.trans (by rw [← beq_iff_eq]))) rfl fun hbefore => ?_
    exact Except.ok.inj ((Condition.eval_ofType hty).symm.trans (hb hbefore))
  | @typedValue _ literal op ty hnull hty =>
    refine h.strengthen (p := a.type == ty && a.value.satisfies op literal) ?_ rfl fun hbefore => ?_
    · rw [core_addValue, core_requireType, Bool.and_eq_true, beq_iff_eq, and_assoc]
    · exact Except.ok.inj ((Condition.eval_typedValue hnull hty).symm.trans (hb hbefore))
  | @defaultTyped literal op ty hnull hty =>
    refine h.strengthen (p := a.type == ty && a.value.satisfies op literal) ?_ rfl fun hbefore => ?_
    · rw [core_addValue, core_requireType, Bool.and_eq_true, beq_iff_eq, and_assoc]
    · exact Except.ok.inj ((Condition.eval_value_of_some hnull hty).symm.trans (hb hbefore))
  | untyped hnull hty =>
    refine h.strengthen core_addValue rfl fun hbefore => ?_
    exact Except.ok.inj ((Condition.eval_value_of_none hnull hty).symm.trans (hb hbefore))
  | part =>
    refine h.strengthen core_addPart rfl fun hbefore => ?_
    exact Except.ok.inj (hb hbefore)
  | other => exact h.addOther hb

/-! ### Slots that fit each other -/

/-- The slots of a conjunction over the store fit each other: no type is required twice, a value of a kind with a
default type comes with a type, and every type comes from a value or was required by itself. -/
structure WellFormed (s : Store) (k : Conjunction) : Prop where
  nodup : k.types.Nodup
  notNull : ∀ c ∈ k.values, c.literal.isNull = false
  untyped : k.types = [] → ∀ c ∈ k.values, s.typeOfValue c.literal = none
  typed : k.types ≠ [] → k.explicitType = true ∨ k.values ≠ []

variable {s : Store}

theorem wellFormed_empty : WellFormed s empty :=
  ⟨List.nodup_nil, by simp [empty], by simp [empty], fun h => absurd rfl h⟩

theorem types_requireType_ne_nil {ty : AtomId} : (k.requireType ty).types ≠ [] :=
  List.ne_nil_of_mem (mem_types_requireType.mpr (.inr rfl))

theorem values_addValue_ne_nil {literal : Value} {op : Comparison} : (k.addValue literal op).values ≠ [] :=
  List.ne_nil_of_mem (mem_values_addValue.mpr (.inr rfl))

private theorem notNull_addValue {literal : Value} {op : Comparison} (h : ∀ c ∈ k.values, c.literal.isNull = false)
    (hnull : literal.isNull = false) : ∀ c ∈ (k.addValue literal op).values, c.literal.isNull = false := by
  intro c hc
  rcases mem_values_addValue.mp hc with hc | rfl
  · exact h c hc
  · exact hnull

/-- Sorting in a condition keeps the slots fitting. -/
theorem wellFormed_of_sortsIn {c : Condition} {k' : Conjunction} (hr : SortsIn s k c (some k'))
    (h : WellFormed s k) : WellFormed s k' := by
  cases hr with
  | any => exact h
  | type _ =>
    exact ⟨nodup_addNew h.nodup, h.notNull, fun ht => absurd ht types_requireType_ne_nil, fun _ => .inl rfl⟩
  | typedValue hnull _ | defaultTyped hnull _ =>
    exact ⟨nodup_addNew h.nodup, notNull_addValue (k := k.requireType _) h.notNull hnull,
      fun ht => absurd ht types_requireType_ne_nil, fun _ => .inr values_addValue_ne_nil⟩
  | untyped hnull hty =>
    refine ⟨h.nodup, notNull_addValue h.notNull hnull, fun ht c hc => ?_, fun _ => .inr values_addValue_ne_nil⟩
    rcases mem_values_addValue.mp hc with hc | rfl
    · exact h.untyped ht c hc
    · exact hty
  | part => exact ⟨h.nodup, h.notNull, h.untyped, h.typed⟩
  | other => exact ⟨h.nodup, h.notNull, h.untyped, h.typed⟩

/-! ### Writing a conjunction out -/

/-- An index found for a part is the one registered for the required type, and it can answer the comparison. -/
theorem indexFor_eq_some {ty? : Option AtomId} {path : String} {op : Comparison} {ty : AtomId} {index : IndexHandle}
    (h : indexFor s ty? path op = some (ty, index)) :
    ty? = some ty ∧ s.partIndex? ty path = some index ∧ (op.isRange = true → index.isOrdered = true) := by
  unfold indexFor at h
  obtain ⟨ty', hty, h⟩ := Option.bind_eq_some_iff.mp h
  obtain ⟨index', hindex, h⟩ := Option.bind_eq_some_iff.mp h
  split at h
  · rename_i hop
    cases h
    exact ⟨hty, hindex, fun hr => by simpa [hr] using hop⟩
  · simp at h

theorem mem_indexedParts {path : String} {c : Condition} :
    (path, c) ∈ k.indexedParts s ↔ ∃ literal op ty index, (path, ⟨literal, op⟩) ∈ k.parts ∧
      indexFor s k.types.head? path op = some (ty, index) ∧ c = .indexedPart ty path index literal op := by
  unfold indexedParts
  simp only [List.mem_filterMap, Option.map_eq_some_iff, Prod.exists, Prod.mk.injEq]
  constructor
  · rintro ⟨_, ⟨literal, op⟩, hmem, ty, index, hindex, rfl, rfl⟩
    exact ⟨literal, op, ty, index, hmem, hindex, rfl⟩
  · rintro ⟨literal, op, ty, index, hmem, hindex, rfl⟩
    exact ⟨path, ⟨literal, op⟩, hmem, ty, index, hindex, rfl, rfl⟩

theorem mem_plainParts {c : Condition} :
    c ∈ k.plainParts s ↔ ∃ path literal op, (path, ⟨literal, op⟩) ∈ k.parts ∧
      indexFor s k.types.head? path op = none ∧ c = .part path literal op := by
  unfold plainParts
  simp only [List.mem_filterMap, Prod.exists]
  constructor
  · rintro ⟨path, ⟨literal, op⟩, hmem, h⟩
    split at h
    · simp at h
    · exact ⟨path, literal, op, hmem, ‹_›, (Option.some.inj h).symm⟩
  · rintro ⟨path, literal, op, hmem, hindex, rfl⟩
    exact ⟨path, ⟨literal, op⟩, hmem, by simp [hindex]⟩

/-- The conditions for type and values: comparisons without a type if none is required, comparisons bound to the
required type if there are values, and otherwise the type, which may be left out if an index of the type is
read. -/
theorem typeAndValues_cases {first : List Condition} (h : k.typeAndValues s (k.indexedParts s) = .ok first) :
    (k.types = [] ∧ first = k.values.map fun c => .value c.literal c.op) ∨
    (∃ ty rest, k.types = ty :: rest ∧ k.values ≠ [] ∧
      first = k.values.map fun c => .typedValue (.handle ty) c.literal c.op) ∨
    (∃ ty rest, k.types = ty :: rest ∧ k.values = [] ∧
      (first = [.ofType (.handle ty)] ∨ first = [] ∧
        (k.explicitType = false ∨ ∃ part, part ∈ k.indexedParts s))) := by
  unfold typeAndValues at h
  rcases htypes : k.types with _ | ⟨ty, rest⟩
  · rw [htypes] at h
    cases h
    exact .inl ⟨rfl, rfl⟩
  · rw [htypes] at h
    simp only [List.head?_cons] at h
    split at h
    · rename_i hvalues
      obtain ⟨d, hd, h⟩ := bind_eq_ok_iff.mp h
      refine .inr (.inr ⟨ty, rest, rfl, List.isEmpty_iff.mp hvalues, ?_⟩)
      split at h
      · cases h
        exact .inl rfl
      · rename_i hcovered
        cases h
        refine .inr ⟨rfl, ?_⟩
        rcases hexplicit : k.explicitType with _ | _
        · exact .inl rfl
        · right
          -- the type has a dimension, and the index of that dimension is among those read
          simp only [hexplicit, Bool.true_and, Bool.not_eq_true', Bool.not_eq_false, Bool.and_eq_true] at hcovered
          obtain ⟨hne, hall⟩ := hcovered
          rcases hdim : d.dimensions with _ | ⟨dimension, more⟩
          · simp [hdim] at hne
          · have hany := List.all_eq_true.mp hall dimension (by simp [hdim])
            obtain ⟨part, hpart, -⟩ := List.any_eq_true.mp hany
            exact ⟨part, hpart⟩
    · rename_i hvalues
      cases h
      exact .inr (.inl ⟨ty, rest, rfl, fun hv => hvalues (by rw [hv]; rfl), rfl⟩)

/-- What the slots for types, values and parts are written out as. -/
def coreConditions (k : Conjunction) (s : Store) (first : List Condition) : List Condition :=
  first ++ (k.indexedParts s).map Prod.snd ++ k.plainParts s

theorem mem_coreConditions {first : List Condition} {c : Condition} :
    c ∈ k.coreConditions s first ↔ c ∈ first ∨ (∃ path, (path, c) ∈ k.indexedParts s) ∨ c ∈ k.plainParts s := by
  simp [coreConditions]

/-- The shapes of the conditions that a core is written out as. -/
inductive CoreCondition (s : Store) : Condition → Prop
  | type {ty : AtomId} : CoreCondition s (.ofType (.handle ty))
  | value {literal : Value} {op : Comparison} : CoreCondition s (.value literal op)
  | typedValue {ty : AtomId} {literal : Value} {op : Comparison} : CoreCondition s (.typedValue (.handle ty) literal op)
  | part {path : String} {literal : Value} {op : Comparison} : CoreCondition s (.part path literal op)
  | indexedPart {ty : AtomId} {path : String} {index : IndexHandle} {literal : Value} {op : Comparison}
    (hindex : s.partIndex? ty path = some index) : CoreCondition s (.indexedPart ty path index literal op)

theorem coreCondition_of_mem {first : List Condition} (h : k.typeAndValues s (k.indexedParts s) = .ok first)
    {c : Condition} (hc : c ∈ k.coreConditions s first) : CoreCondition s c := by
  rcases mem_coreConditions.mp hc with hc | ⟨path, hc⟩ | hc
  · rcases typeAndValues_cases h with ⟨-, rfl⟩ | ⟨ty, rest, -, -, rfl⟩ | ⟨ty, rest, -, -, rfl | ⟨rfl, -⟩⟩
    · obtain ⟨v, -, rfl⟩ := List.mem_map.mp hc
      exact .value
    · obtain ⟨v, -, rfl⟩ := List.mem_map.mp hc
      exact .typedValue
    · rw [List.mem_singleton.mp hc]
      exact .type
    · simp at hc
  · obtain ⟨literal, op, ty, index, -, hindex, rfl⟩ := mem_indexedParts.mp hc
    exact .indexedPart (indexFor_eq_some hindex).2.1
  · obtain ⟨path, literal, op, -, -, rfl⟩ := mem_plainParts.mp hc
    exact .part

/-- Every atom decides the core as written out. -/
theorem decided_coreConditions {first : List Condition} (hw : WellFormed g.store k)
    (h : k.typeAndValues g.store (k.indexedParts g.store) = .ok first) :
    ∀ c ∈ k.coreConditions g.store first, c.Decided g a := by
  intro c hc
  rcases mem_coreConditions.mp hc with hc | ⟨path, hc⟩ | hc
  · rcases typeAndValues_cases h with ⟨htypes, rfl⟩ | ⟨ty, rest, htypes, hvalues, rfl⟩ |
      ⟨ty, rest, htypes, hvalues, rfl | ⟨rfl, -⟩⟩
    · obtain ⟨v, hv, rfl⟩ := List.mem_map.mp hc
      exact ⟨_, Condition.eval_value_of_none (hw.notNull v hv) (hw.untyped htypes v hv)⟩
    · obtain ⟨v, hv, rfl⟩ := List.mem_map.mp hc
      exact ⟨_, Condition.eval_typedValue (hw.notNull v hv) rfl⟩
    · rw [List.mem_singleton.mp hc]
      exact ⟨_, Condition.eval_ofType rfl⟩
    · simp at hc
  · obtain ⟨literal, op, ty, index, -, -, rfl⟩ := mem_indexedParts.mp hc
    exact ⟨_, Condition.eval_indexedPart⟩
  · obtain ⟨path, literal, op, -, -, rfl⟩ := mem_plainParts.mp hc
    exact ⟨_, Condition.eval_part⟩

/-- An atom that meets the core satisfies the conditions it is written out as. -/
theorem holds_coreConditions {first : List Condition} (hw : WellFormed g.store k)
    (h : k.typeAndValues g.store (k.indexedParts g.store) = .ok first) (hcore : k.Core a) :
    ∀ c ∈ k.coreConditions g.store first, c.Holds g a := by
  intro c hc
  rcases mem_coreConditions.mp hc with hc | ⟨path, hc⟩ | hc
  · rcases typeAndValues_cases h with ⟨htypes, rfl⟩ | ⟨ty, rest, htypes, hvalues, rfl⟩ |
      ⟨ty, rest, htypes, hvalues, rfl | ⟨rfl, -⟩⟩
    · obtain ⟨v, hv, rfl⟩ := List.mem_map.mp hc
      rw [Condition.Holds, Condition.eval_value_of_none (hw.notNull v hv) (hw.untyped htypes v hv),
        hcore.values v hv]
    · obtain ⟨v, hv, rfl⟩ := List.mem_map.mp hc
      rw [Condition.Holds, Condition.eval_typedValue (hw.notNull v hv) rfl, hcore.values v hv,
        hcore.types ty (by simp [htypes])]
      simp
    · rw [List.mem_singleton.mp hc, Condition.Holds, Condition.eval_ofType rfl, hcore.types ty (by simp [htypes])]
      simp
    · simp at hc
  · obtain ⟨literal, op, ty, index, hmem, hindex, rfl⟩ := mem_indexedParts.mp hc
    have hty := List.mem_of_head? (indexFor_eq_some hindex).1
    rw [Condition.Holds, Condition.eval_indexedPart, hcore.types ty hty, hcore.parts _ hmem]
    simp
  · obtain ⟨path, literal, op, hmem, -, rfl⟩ := mem_plainParts.mp hc
    rw [Condition.Holds, Condition.eval_part, hcore.parts _ hmem]

private theorem holds_indexedPart {ty : AtomId} {path : String} {index : IndexHandle} {literal : Value}
    {op : Comparison} (h : (Condition.indexedPart ty path index literal op).Holds g a) :
    a.type = ty ∧ Condition.partSatisfies a path op literal = true := by
  rw [Condition.Holds, Condition.eval_indexedPart] at h
  simpa using Except.ok.inj h

private theorem holds_typedValue {ty : AtomId} {literal : Value} {op : Comparison} (hnull : literal.isNull = false)
    (h : (Condition.typedValue (.handle ty) literal op).Holds g a) :
    a.type = ty ∧ a.value.satisfies op literal = true := by
  rw [Condition.Holds, Condition.eval_typedValue hnull rfl] at h
  simpa using Except.ok.inj h

/-- An atom that satisfies the conditions the core is written out as meets the core, if no two types are
required. -/
theorem core_of_holds_coreConditions {first : List Condition} (hw : WellFormed g.store k)
    (hone : k.types.length ≤ 1) (h : k.typeAndValues g.store (k.indexedParts g.store) = .ok first)
    (hholds : ∀ c ∈ k.coreConditions g.store first, c.Holds g a) : k.Core a := by
  have hfirst : ∀ c ∈ first, c.Holds g a := fun c hc => hholds c (mem_coreConditions.mpr (.inl hc))
  have hindexed : ∀ path c, (path, c) ∈ k.indexedParts g.store → c.Holds g a := fun path c hc =>
    hholds c (mem_coreConditions.mpr (.inr (.inl ⟨path, hc⟩)))
  have hparts : ∀ part ∈ k.parts, Condition.partSatisfies a part.1 part.2.op part.2.literal = true := by
    rintro ⟨path, literal, op⟩ hmem
    rcases hindex : indexFor g.store k.types.head? path op with _ | ⟨ty, index⟩
    · have hc := hholds _ (mem_coreConditions.mpr (.inr (.inr
        (mem_plainParts.mpr ⟨path, literal, op, hmem, hindex, rfl⟩))))
      exact Except.ok.inj hc
    · exact (holds_indexedPart (hindexed path _
        (mem_indexedParts.mpr ⟨literal, op, ty, index, hmem, hindex, rfl⟩))).2
  have heq : ∀ {ty rest}, k.types = ty :: rest → a.type = ty → ∀ x ∈ k.types, a.type = x := by
    intro ty rest htypes hty x hx
    rw [htypes] at hone hx
    have hrest : rest = [] := List.length_eq_zero_iff.mp (by simpa using hone)
    rw [hrest, List.mem_singleton] at hx
    rw [hx, hty]
  rcases typeAndValues_cases h with ⟨htypes, rfl⟩ | ⟨ty, rest, htypes, hvalues, rfl⟩ |
    ⟨ty, rest, htypes, hvalues, hfirst'⟩
  · refine ⟨by simp [htypes], fun v hv => ?_, hparts⟩
    have hc := hfirst _ (List.mem_map.mpr ⟨v, hv, rfl⟩)
    rw [Condition.Holds, Condition.eval_value_of_none (hw.notNull v hv) (hw.untyped htypes v hv)] at hc
    exact Except.ok.inj hc
  · have hall : ∀ v ∈ k.values, a.type = ty ∧ a.value.satisfies v.op v.literal = true := fun v hv =>
      holds_typedValue (hw.notNull v hv) (hfirst _ (List.mem_map.mpr ⟨v, hv, rfl⟩))
    obtain ⟨v, hv⟩ := List.exists_mem_of_ne_nil _ hvalues
    exact ⟨heq htypes (hall v hv).1, fun v hv => (hall v hv).2, hparts⟩
  · refine ⟨heq htypes ?_, by simp [hvalues], hparts⟩
    rcases hfirst' with rfl | ⟨rfl, hexplicit | ⟨⟨path, c⟩, hpart⟩⟩
    · have hc := hfirst _ (List.mem_singleton_self _)
      rw [Condition.Holds, Condition.eval_ofType rfl] at hc
      exact beq_iff_eq.mp (Except.ok.inj hc)
    · rcases hw.typed (by simp [htypes]) with ht | hv
      · rw [hexplicit] at ht
        exact absurd ht (by simp)
      · exact absurd hvalues hv
    · have hc := hindexed path c hpart
      obtain ⟨literal, op, ty', index, -, hindex, rfl⟩ := mem_indexedParts.mp hpart
      have hty := (indexFor_eq_some hindex).1
      rw [htypes, List.head?_cons, Option.some.injEq] at hty
      rw [hty]
      exact (holds_indexedPart hc).1

/-- Written out, a conjunction has the answer it had as slots. -/
theorem eval_toCondition {d : Condition} {b : Bool} (hw : WellFormed g.store k) (hone : k.types.length ≤ 1)
    (h : k.Answers g a b) (hd : k.toCondition g.store = .ok d) : (d.eval g a).answer = .ok b := by
  obtain ⟨first, hfirst, hd⟩ := bind_eq_ok_iff.mp hd
  cases hd
  show ((Condition.conjunction (k.coreConditions g.store first ++ k.others)).eval g a).answer = _
  rw [Condition.answer_conjunction, Condition.answer_evalAll_append]
  rcases h with ⟨hcore, h⟩ | ⟨hcore, rfl⟩
  · rw [Condition.evalAll_eq_true_iff.mpr (holds_coreConditions hw hfirst hcore)]
    exact h
  · rw [Condition.evalAll_eq_false (decided_coreConditions hw hfirst) fun hall =>
      hcore (core_of_holds_coreConditions hw hone hfirst hall)]
    rfl

end Conjunction

end HyperQuery
