import HyperQuery.Proofs.Condition.Text
import HyperQuery.Proofs.Plan.Stream

/-!
# What the hash of a plan is taken of

The bytes that are hashed of a plan show its operators, their order and nesting, and what the texts of its literals
and conditions show, if no name in it has marks: plans with the same bytes are alike (`Plan.stream_eq_iff`). They do
not show the contents of byte strings, nor which of two equal numbers is an integer and which a double
(`Plan.exists_equal_streams`).
-/

namespace HyperQuery

open Text (IsPlain NulFree)

variable {catalog : Catalog}

/-! ### Plans that cannot be told apart -/

mutual

/-- Whether two plans have the same operators and inputs, with literals and conditions that cannot be told apart by
their texts, and indexes, mappings and costs that are written the same. -/
def Plan.Alike (catalog : Catalog) : Plan → Plan → Prop
  | .empty, .empty => True
  | .fullScan, .fullScan => True
  | .typeScan t, .typeScan u => t = u
  | .indexLookup i v p, .indexLookup j w q => i.name = j.name ∧ p = q ∧ v.Alike w
  | .incidence a, .incidence b => a = b
  | .targetSet a, .targetSet b => a = b
  | .traversal v, .traversal w => v = w
  | .zigZag a b, .zigZag c d => Plan.Alike catalog a c ∧ Plan.Alike catalog b d
  | .sortedMerge a b, .sortedMerge c d => Plan.Alike catalog a c ∧ Plan.Alike catalog b d
  | .union a b, .union c d => Plan.Alike catalog a c ∧ Plan.Alike catalog b d
  | .filter a s, .filter b t => Plan.Alike catalog a b ∧ FilterStep.AlikeAll catalog s t
  | .map a m, .map b n => m.Alike catalog n ∧ Plan.Alike catalog a b
  | _, _ => False

/-- Whether two steps cannot be told apart. -/
def FilterStep.Alike (catalog : Catalog) : FilterStep → FilterStep → Prop
  | .predicate c x, .predicate d y => c.Alike catalog d ∧ x.fixed 2 = y.fixed 2
  | .membership p x, .membership q y => x.fixed 2 = y.fixed 2 ∧ Plan.Alike catalog p q
  | .materialized p, .materialized q => Plan.Alike catalog p q
  | _, _ => False

/-- Whether two lists have as many steps, one by one not to be told apart. -/
def FilterStep.AlikeAll (catalog : Catalog) : List FilterStep → List FilterStep → Prop
  | [], [] => True
  | s :: steps, t :: others => FilterStep.Alike catalog s t ∧ FilterStep.AlikeAll catalog steps others
  | _, _ => False

end

mutual

/-- Whether no name in the plan has marks, and no filter has more inputs than a machine word counts. -/
def Plan.Plain (catalog : Catalog) : Plan → Prop
  | .indexLookup index key _ => IsPlain index.name ∧ key.Plain
  | .zigZag left right => Plan.Plain catalog left ∧ Plan.Plain catalog right
  | .sortedMerge left right => Plan.Plain catalog left ∧ Plan.Plain catalog right
  | .union left right => Plan.Plain catalog left ∧ Plan.Plain catalog right
  | .filter base steps =>
    Plan.Plain catalog base ∧ steps.length + 1 < 2 ^ 64 ∧ FilterStep.PlainAll catalog steps
  | .map base mapping => Plan.Plain catalog base ∧ mapping.Plain catalog
  | _ => True

/-- Whether the same holds inside a step. -/
def FilterStep.Plain (catalog : Catalog) : FilterStep → Prop
  | .predicate condition _ => condition.Plain catalog
  | .membership plan _ => Plan.Plain catalog plan
  | .materialized plan => Plan.Plain catalog plan

/-- Whether the same holds inside the steps of a list. -/
def FilterStep.PlainAll (catalog : Catalog) : List FilterStep → Prop
  | [] => True
  | s :: steps => FilterStep.Plain catalog s ∧ FilterStep.PlainAll catalog steps

end

/-! ### Headings -/

namespace ExplainNode

/-- A property is read back behind its key. -/
theorem property_inj {op key value value' : String} {b : Bool} {ins ins' : List ExplainNode}
    (h : heading (.node op [⟨key, value, b⟩] ins) = heading (.node op [⟨key, value', b⟩] ins')) : value = value' := by
  simp only [heading, List.flatMap_cons, List.flatMap_nil, List.append_nil] at h
  exact String.toList_inj.mp (List.append_cancel_left (List.append_cancel_left h))

/-- The characters of comparison operators. -/
def signs : List Char := ['=', '<', '>']

private theorem notMem_signs_of_mem_name {name : String} (hname : IsPlain name) :
    ∀ c ∈ name.toList ++ "op".toList, ¬c ∈ signs := by
  intro c hc hsign
  have hmarks : ∀ c ∈ signs, c ∈ Text.marks ∧ c ∉ "op".toList :=
    List.all_iff_forall_prop.mp (by decide)
  rcases List.mem_append.mp hc with hc | hc
  · exact hname c hc (hmarks c hsign).1
  · exact (hmarks c hsign).2 hc

private theorem mem_signs_of_mem_symbol (p : Comparison) : ∀ c ∈ p.symbol.toList, ¬c ∉ signs := by
  cases p <;> exact List.all_iff_forall_prop.mp (by decide)

private theorem symbol_append_begins (p : Comparison) (s : List Char) :
    ∀ c ∈ (p.symbol.toList ++ s).head?, c ∈ signs := by
  cases p <;> simp [Comparison.symbol, signs]

/-- The name of an index ends where the comparison operator begins, which ends where the key is announced. -/
theorem lookup_inj {name name' key key' : String} {p q : Comparison} {b : Bool} (hname : IsPlain name)
    (hname' : IsPlain name')
    (h : heading (.node "IndexLookup" [.plain "index" name, .plain "op" p.symbol, ⟨"key", key, b⟩] []) =
      heading (.node "IndexLookup" [.plain "index" name', .plain "op" q.symbol, ⟨"key", key', b⟩] [])) :
    name = name' ∧ p = q ∧ key = key' := by
  simp only [heading, ExplainProp.plain, List.flatMap_cons, List.flatMap_nil, List.append_nil, List.append_assoc] at h
  have hname_op := List.append_cancel_left (List.append_cancel_left h)
  rw [← List.append_assoc, ← List.append_assoc name'.toList] at hname_op
  obtain ⟨hnames, hop_key⟩ := Text.append_inj_of_free (notMem_signs_of_mem_name hname) (notMem_signs_of_mem_name hname')
    (symbol_append_begins p _) (symbol_append_begins q _) hname_op
  obtain ⟨hpq, hkey⟩ := Text.append_inj_of_free (P := (· ∉ signs)) (mem_signs_of_mem_symbol p)
    (mem_signs_of_mem_symbol q) (by simp [signs]) (by simp [signs]) hop_key
  exact ⟨String.toList_inj.mp (List.append_cancel_right hnames), Comparison.symbol_inj (String.toList_inj.mp hpq),
    String.toList_inj.mp (List.append_cancel_left hkey)⟩

theorem predicate_inj {condition condition' : String} {x y : Double} {b : Bool}
    (h : heading (.node "Predicate" [⟨"condition", condition, b⟩, .plain "cost" (x.fixed 2)] []) =
      heading (.node "Predicate" [⟨"condition", condition', b⟩, .plain "cost" (y.fixed 2)] [])) :
    condition = condition' ∧ x.fixed 2 = y.fixed 2 := by
  have hcost : ∀ x : Double, 'c' ∉ "ost".toList ++ (x.fixed 2).toList := by
    intro x hc
    rcases List.mem_append.mp hc with hc | hc
    · exact absurd hc (by decide)
    · exact absurd (Double.mem_numerals_of_mem_fixed hc) (by decide)
  simp only [heading, ExplainProp.plain, List.flatMap_cons, List.flatMap_nil, List.append_nil, List.append_assoc] at h
  obtain ⟨hcondition, hrest⟩ := Text.append_cons_inj_last (hcost x) (hcost y)
    (List.append_cancel_left (List.append_cancel_left h))
  exact ⟨String.toList_inj.mp hcondition, String.toList_inj.mp (List.append_cancel_left hrest)⟩

end ExplainNode

theorem nulFree_fixed (x : Double) : NulFree (x.fixed 2) := Text.nulFree_of_notMem_marks fun _ hc =>
  Double.notMem_marks_of_mem_numerals (Double.mem_numerals_of_mem_fixed hc)

namespace Plan

/-- The operator of a plan. -/
def operator : Plan → String
  | .empty => "Empty"
  | .fullScan => "FullScan"
  | .typeScan _ => "TypeScan"
  | .indexLookup _ _ _ => "IndexLookup"
  | .incidence _ => "Incidence"
  | .targetSet _ => "TargetSet"
  | .traversal _ => "Traversal"
  | .zigZag _ _ => "ZigZagIntersect"
  | .sortedMerge _ _ => "SortedMergeIntersect"
  | .union _ _ => "Union"
  | .filter _ _ => "Filter"
  | .map _ _ => "Map"

theorem op_explain (p : Plan) : (p.explain catalog).op = p.operator := by cases p <;> rfl

theorem operator_mem_ops (p : Plan) : p.operator ∈ ExplainNode.ops := by cases p <;> (simp only [operator]; decide)

theorem operator_eq_of_stream_append_eq {p q : Plan} {r r' : List UInt8}
    (h : (p.explain catalog).stream ++ r = (q.explain catalog).stream ++ r') : p.operator = q.operator := by
  have hp : (p.explain catalog).op = p.operator := op_explain p
  have hq : (q.explain catalog).op = q.operator := op_explain q
  rw [← hp, ← hq]
  exact ExplainNode.op_eq_of_stream_append_eq (hp ▸ operator_mem_ops p) (hq ▸ operator_mem_ops q) h

theorem nul_notMem_heading (p : Plan) (h : p.Plain catalog) : '\x00' ∉ (p.explain catalog).heading := by
  have hone : ∀ {op key value : String} {ins : List ExplainNode}, NulFree op → NulFree key → NulFree value →
      '\x00' ∉ ExplainNode.heading (.node op [.plain key value] ins) := fun hop hkey hvalue =>
    ExplainNode.nul_notMem_heading hop (List.forall_mem_singleton.mpr ⟨hkey, hvalue⟩)
  cases p with
  | empty | fullScan | zigZag l r | sortedMerge l r | union l r | filter b steps =>
    exact ExplainNode.nul_notMem_heading (by decide) (by simp)
  | typeScan ty => exact hone (by decide) (by decide) (AtomId.nulFree_text ty)
  | incidence id | targetSet id => exact hone (by decide) (by decide) (AtomId.nulFree_text id)
  | traversal w => exact hone (by decide) (by decide) w.nulFree_text
  | map b m => exact hone (by decide) (by decide) (m.nulFree_text h.2)
  | indexLookup index key op =>
    refine ExplainNode.nul_notMem_heading (by decide) ?_
    simp only [List.forall_mem_cons, ExplainProp.plain, ExplainProp.literal]
    exact ⟨⟨by decide, h.1.nulFree⟩, ⟨by decide, op.nulFree_symbol⟩, ⟨by decide, key.nulFree_text h.2⟩, by simp⟩

/-! ### Reading plans back -/

/-- What it takes to read a plan back whatever follows it in the stream. -/
def ReadsBack (catalog : Catalog) (p : Plan) : Prop :=
  ∀ (q : Plan) (r r' : List UInt8), p.Plain catalog → q.Plain catalog →
    (p.explain catalog).stream ++ r = (q.explain catalog).stream ++ r' → p.Alike catalog q ∧ r = r'

/-- Whether the plan reads without other plans as inputs. -/
def isLeaf : Plan → Bool
  | .zigZag _ _ | .sortedMerge _ _ | .union _ _ | .filter _ _ | .map _ _ => false
  | _ => true

theorem readsBack_leaf {p : Plan} (hleaf : p.isLeaf = true) : p.ReadsBack catalog := by
  intro q r r' hp hq h
  have hop := operator_eq_of_stream_append_eq h
  have hnul := p.nul_notMem_heading hp
  have hnul' := q.nul_notMem_heading hq
  cases p with
  | empty => cases q with
    | empty => exact ⟨trivial, List.append_cancel_left h⟩
    | _ => simp [operator] at hop
  | fullScan => cases q with
    | fullScan => exact ⟨trivial, List.append_cancel_left h⟩
    | _ => simp [operator] at hop
  | typeScan t => cases q with
    | typeScan u =>
      obtain ⟨hhead, hrest⟩ := ExplainNode.leaf_append_inj hnul hnul' rfl rfl h
      exact ⟨AtomId.text_inj (ExplainNode.property_inj hhead), hrest⟩
    | _ => simp [operator] at hop
  | indexLookup i v p => cases q with
    | indexLookup j w q =>
      obtain ⟨hhead, hrest⟩ := ExplainNode.leaf_append_inj hnul hnul' rfl rfl h
      obtain ⟨hname, hpq, hkey⟩ := ExplainNode.lookup_inj hp.1 hq.1 hhead
      exact ⟨⟨hname, hpq, (Value.text_eq_iff hp.2 hq.2).mp hkey⟩, hrest⟩
    | _ => simp [operator] at hop
  | incidence a => cases q with
    | incidence b =>
      obtain ⟨hhead, hrest⟩ := ExplainNode.leaf_append_inj hnul hnul' rfl rfl h
      exact ⟨AtomId.text_inj (ExplainNode.property_inj hhead), hrest⟩
    | _ => simp [operator] at hop
  | targetSet a => cases q with
    | targetSet b =>
      obtain ⟨hhead, hrest⟩ := ExplainNode.leaf_append_inj hnul hnul' rfl rfl h
      exact ⟨AtomId.text_inj (ExplainNode.property_inj hhead), hrest⟩
    | _ => simp [operator] at hop
  | traversal v => cases q with
    | traversal w =>
      obtain ⟨hhead, hrest⟩ := ExplainNode.leaf_append_inj hnul hnul' rfl rfl h
      exact ⟨Walk.text_inj (ExplainNode.property_inj hhead), hrest⟩
    | _ => simp [operator] at hop
  | zigZag _ _ | sortedMerge _ _ | union _ _ | filter _ _ | map _ _ => simp [isLeaf] at hleaf

end Plan

/-- What it takes to read a step back whatever follows it in the stream. -/
def FilterStep.ReadsBack (catalog : Catalog) (s : FilterStep) : Prop :=
  ∀ (t : FilterStep) (r r' : List UInt8), s.Plain catalog → t.Plain catalog →
    (s.explain catalog).stream ++ r = (t.explain catalog).stream ++ r' → s.Alike catalog t ∧ r = r'

section

variable {m n : ExplainNode} {a b c d : Plan} {r r' : List UInt8}

/-- A node with one plan as input can be read back if the plan can. -/
private theorem unary_append_inj (ha : a.ReadsBack catalog) (hm : '\x00' ∉ m.heading) (hn : '\x00' ∉ n.heading)
    (hinputs : m.inputs = [a.explain catalog]) (hinputs' : n.inputs = [b.explain catalog]) (hap : a.Plain catalog)
    (hbp : b.Plain catalog) (h : m.stream ++ r = n.stream ++ r') :
    m.heading = n.heading ∧ a.Alike catalog b ∧ r = r' := by
  obtain ⟨hheading, hrest⟩ :=
    ExplainNode.stream_append_inj hm hn (by rw [hinputs, hinputs']; rfl) (by simp [hinputs]) h
  simp only [hinputs, hinputs', ExplainNode.streamAll, List.append_nil] at hrest
  exact ⟨hheading, ha b r r' hap hbp hrest⟩

/-- A plan with two inputs can be read back if they can. -/
private theorem binary_append_inj {p q : Plan} (ha : a.ReadsBack catalog) (hb : b.ReadsBack catalog)
    (hp : p.Plain catalog) (hq : q.Plain catalog)
    (hinputs : (p.explain catalog).inputs = [a.explain catalog, b.explain catalog])
    (hinputs' : (q.explain catalog).inputs = [c.explain catalog, d.explain catalog])
    (hab : a.Plain catalog ∧ b.Plain catalog) (hcd : c.Plain catalog ∧ d.Plain catalog)
    (h : (p.explain catalog).stream ++ r = (q.explain catalog).stream ++ r') :
    (a.Alike catalog c ∧ b.Alike catalog d) ∧ r = r' := by
  obtain ⟨-, hrest⟩ := ExplainNode.stream_append_inj (p.nul_notMem_heading hp) (q.nul_notMem_heading hq)
    (by rw [hinputs, hinputs']; rfl) (by simp [hinputs]) h
  simp only [hinputs, hinputs', ExplainNode.streamAll, List.append_nil, List.append_assoc] at hrest
  obtain ⟨hleft, hrest⟩ := ha c _ _ hab.1 hcd.1 hrest
  obtain ⟨hright, hrest⟩ := hb d _ _ hab.2 hcd.2 hrest
  exact ⟨⟨hleft, hright⟩, hrest⟩

end

namespace FilterStep

/-- The operator of a step. -/
def operator : FilterStep → String
  | .predicate _ _ => "Predicate"
  | .membership _ _ => "Membership"
  | .materialized _ => "Materialize"

theorem op_explain (s : FilterStep) : (s.explain catalog).op = s.operator := by cases s <;> rfl

theorem operator_mem_ops (s : FilterStep) : s.operator ∈ ExplainNode.ops := by
  cases s <;> (simp only [operator]; decide)

theorem operator_eq_of_stream_append_eq {s t : FilterStep} {r r' : List UInt8}
    (h : (s.explain catalog).stream ++ r = (t.explain catalog).stream ++ r') : s.operator = t.operator := by
  have hs : (s.explain catalog).op = s.operator := op_explain s
  have ht : (t.explain catalog).op = t.operator := op_explain t
  rw [← hs, ← ht]
  exact ExplainNode.op_eq_of_stream_append_eq (hs ▸ operator_mem_ops s) (ht ▸ operator_mem_ops t) h

theorem nul_notMem_heading (s : FilterStep) (h : s.Plain catalog) : '\x00' ∉ (s.explain catalog).heading := by
  cases s with
  | predicate condition cost =>
    refine ExplainNode.nul_notMem_heading (by decide) ?_
    simp only [List.forall_mem_cons, ExplainProp.plain, ExplainProp.literal]
    exact ⟨⟨by decide, condition.nulFree_text h⟩, ⟨by decide, nulFree_fixed cost⟩, by simp⟩
  | membership plan cost =>
    exact ExplainNode.nul_notMem_heading (by decide)
      (List.forall_mem_singleton.mpr ⟨(by decide : NulFree "cost"), nulFree_fixed cost⟩)
  | materialized plan => exact ExplainNode.nul_notMem_heading (by decide) (by simp)

theorem readsBack_predicate (condition : Condition) (cost : Double) :
    ReadsBack catalog (.predicate condition cost) := by
  intro t r r' hs ht h
  have hop := operator_eq_of_stream_append_eq h
  cases t with
  | predicate other y =>
    obtain ⟨hhead, hrest⟩ :=
      ExplainNode.leaf_append_inj (nul_notMem_heading _ hs) (nul_notMem_heading _ ht) rfl rfl h
    obtain ⟨hcondition, hcost⟩ := ExplainNode.predicate_inj hhead
    exact ⟨⟨(Condition.text_eq_iff hs ht).mp hcondition, hcost⟩, hrest⟩
  | _ => simp [operator] at hop

theorem readsBack_membership {p : Plan} (cost : Double) (hp : p.ReadsBack catalog) :
    ReadsBack catalog (.membership p cost) := by
  intro t r r' hs ht h
  have hop := operator_eq_of_stream_append_eq h
  cases t with
  | membership q y =>
    obtain ⟨hhead, halike, hrest⟩ :=
      unary_append_inj hp (nul_notMem_heading _ hs) (nul_notMem_heading _ ht) rfl rfl hs ht h
    exact ⟨⟨ExplainNode.property_inj hhead, halike⟩, hrest⟩
  | _ => simp [operator] at hop

theorem readsBack_materialized {p : Plan} (hp : p.ReadsBack catalog) : ReadsBack catalog (.materialized p) := by
  intro t r r' hs ht h
  have hop := operator_eq_of_stream_append_eq h
  cases t with
  | materialized q =>
    exact (unary_append_inj hp (nul_notMem_heading _ hs) (nul_notMem_heading _ ht) rfl rfl hs ht h).2
  | _ => simp [operator] at hop

theorem length_explainAll (steps : List FilterStep) : (explainAll catalog steps).length = steps.length := by
  induction steps with
  | nil => rfl
  | cons s steps ih => rw [explainAll, List.length_cons, List.length_cons, ih]

/-- As many steps can be read back one by one. -/
theorem streamAll_append_inj {steps others : List FilterStep} {r r' : List UInt8}
    (ih : ∀ s ∈ steps, s.ReadsBack catalog) (hlen : steps.length = others.length) (hs : PlainAll catalog steps)
    (ht : PlainAll catalog others)
    (h : ExplainNode.streamAll (explainAll catalog steps) ++ r =
      ExplainNode.streamAll (explainAll catalog others) ++ r') : AlikeAll catalog steps others ∧ r = r' := by
  induction steps generalizing others with
  | nil => cases others with
    | nil => exact ⟨trivial, h⟩
    | cons t others => simp at hlen
  | cons s steps ihs => cases others with
    | nil => simp at hlen
    | cons t others =>
      simp only [explainAll, ExplainNode.streamAll, List.append_assoc] at h
      obtain ⟨hst, h⟩ := ih s List.mem_cons_self t _ _ hs.1 ht.1 h
      obtain ⟨hrest, hr⟩ := ihs (fun x hx => ih x (List.mem_cons_of_mem _ hx)) (Nat.succ.inj hlen) hs.2 ht.2 h
      exact ⟨⟨hst, hrest⟩, hr⟩

end FilterStep

namespace Plan

theorem readsBack_map {a : Plan} {m : Mapping} (ha : a.ReadsBack catalog) : ReadsBack catalog (.map a m) := by
  intro q r r' hp hq h
  have hop := operator_eq_of_stream_append_eq h
  cases q with
  | map b n =>
    obtain ⟨hhead, halike, hrest⟩ :=
      unary_append_inj ha (nul_notMem_heading _ hp) (nul_notMem_heading _ hq) rfl rfl hp.1 hq.1 h
    exact ⟨⟨Mapping.alike_of_text_eq hp.2 hq.2 (ExplainNode.property_inj hhead), halike⟩, hrest⟩
  | _ => simp [operator] at hop

/-- The number of steps of a filter is read off the number of its inputs. -/
theorem readsBack_filter {a : Plan} {steps : List FilterStep} (ha : a.ReadsBack catalog)
    (hsteps : ∀ s ∈ steps, s.ReadsBack catalog) : ReadsBack catalog (.filter a steps) := by
  intro q r r' hp hq h
  have hop := operator_eq_of_stream_append_eq h
  cases q with
  | filter b others =>
    have hlength : ∀ (a : Plan) (steps : List FilterStep),
        (Plan.explain catalog (.filter a steps)).inputs.length = steps.length + 1 := fun a steps =>
      congrArg (· + 1) (FilterStep.length_explainAll steps)
    have hheading : ∀ (a : Plan) (steps : List FilterStep),
        (Plan.explain catalog (.filter a steps)).heading = "Filter".toList := fun _ _ => rfl
    rw [ExplainNode.stream_eq, ExplainNode.stream_eq, hheading, hheading, hlength, hlength, List.append_assoc,
      List.append_assoc, List.append_assoc, List.append_assoc] at h
    obtain ⟨hcount, hinputs⟩ := List.append_inj (List.append_cancel_left h)
      (by rw [ExplainNode.length_countBytes, ExplainNode.length_countBytes])
    have hnumber : steps.length = others.length := Nat.succ.inj (ExplainNode.countBytes_inj hp.2.1 hq.2.1 hcount)
    have hbase : (a.explain catalog).stream ++ (ExplainNode.streamAll (FilterStep.explainAll catalog steps) ++ r) =
        (b.explain catalog).stream ++ (ExplainNode.streamAll (FilterStep.explainAll catalog others) ++ r') := by
      simpa only [Plan.explain, ExplainNode.inputs, ExplainNode.streamAll, List.append_assoc] using hinputs
    obtain ⟨halike, hrest⟩ := ha b _ _ hp.1 hq.1 hbase
    obtain ⟨hall, hr⟩ := FilterStep.streamAll_append_inj hsteps hnumber hp.2.2 hq.2.2 hrest
    exact ⟨⟨halike, hall⟩, hr⟩
  | _ => simp [operator] at hop

mutual

/-- Every plan can be read back from its stream. -/
theorem readsBack : (p : Plan) → p.ReadsBack catalog
  | .zigZag a b => by
    intro q r r' hp hq h
    have hop := operator_eq_of_stream_append_eq h
    cases q with
    | zigZag c d => exact binary_append_inj (readsBack a) (readsBack b) hp hq rfl rfl hp hq h
    | _ => simp [operator] at hop
  | .sortedMerge a b => by
    intro q r r' hp hq h
    have hop := operator_eq_of_stream_append_eq h
    cases q with
    | sortedMerge c d => exact binary_append_inj (readsBack a) (readsBack b) hp hq rfl rfl hp hq h
    | _ => simp [operator] at hop
  | .union a b => by
    intro q r r' hp hq h
    have hop := operator_eq_of_stream_append_eq h
    cases q with
    | union c d => exact binary_append_inj (readsBack a) (readsBack b) hp hq rfl rfl hp hq h
    | _ => simp [operator] at hop
  | .filter a steps => readsBack_filter (readsBack a) (readsBackSteps steps)
  | .map a _ => readsBack_map (readsBack a)
  | .empty | .fullScan | .typeScan _ | .indexLookup _ _ _ | .incidence _ | .targetSet _ | .traversal _ =>
    readsBack_leaf rfl

theorem readsBackStep : (s : FilterStep) → s.ReadsBack catalog
  | .predicate condition cost => FilterStep.readsBack_predicate condition cost
  | .membership p cost => FilterStep.readsBack_membership cost (readsBack p)
  | .materialized p => FilterStep.readsBack_materialized (readsBack p)

theorem readsBackSteps : (steps : List FilterStep) → ∀ s ∈ steps, s.ReadsBack catalog
  | [] => fun _ hs => absurd hs List.not_mem_nil
  | t :: rest => List.forall_mem_cons.mpr ⟨readsBackStep t, readsBackSteps rest⟩

end

/-! ### Alike plans -/

mutual

/-- Plans that are alike are explained the same. -/
theorem Alike.explain_eq : {p q : Plan} → p.Alike catalog q → p.explain catalog = q.explain catalog
  | .empty, q, h => by cases q with
    | empty => rfl
    | _ => exact False.elim h
  | .fullScan, q, h => by cases q with
    | fullScan => rfl
    | _ => exact False.elim h
  | .typeScan t, q, h => by cases q with
    | typeScan u => exact congrArg (fun ty => explain catalog (.typeScan ty)) h
    | _ => exact False.elim h
  | .indexLookup i v op, q, h => by cases q with
    | indexLookup j w op' =>
      obtain ⟨hname, rfl, hkey⟩ := h
      rw [explain, explain, hname, hkey.text_eq]
    | _ => exact False.elim h
  | .incidence a, q, h => by cases q with
    | incidence b => exact congrArg (fun id => explain catalog (.incidence id)) h
    | _ => exact False.elim h
  | .targetSet a, q, h => by cases q with
    | targetSet b => exact congrArg (fun id => explain catalog (.targetSet id)) h
    | _ => exact False.elim h
  | .traversal v, q, h => by cases q with
    | traversal w => exact congrArg (fun w => explain catalog (.traversal w)) h
    | _ => exact False.elim h
  | .zigZag a b, q, h => by cases q with
    | zigZag c d => rw [explain, explain, Alike.explain_eq h.1, Alike.explain_eq h.2]
    | _ => exact False.elim h
  | .sortedMerge a b, q, h => by cases q with
    | sortedMerge c d => rw [explain, explain, Alike.explain_eq h.1, Alike.explain_eq h.2]
    | _ => exact False.elim h
  | .union a b, q, h => by cases q with
    | union c d => rw [explain, explain, Alike.explain_eq h.1, Alike.explain_eq h.2]
    | _ => exact False.elim h
  | .filter a steps, q, h => by cases q with
    | filter b others => rw [explain, explain, Alike.explain_eq h.1, Alike.explainAll_eq h.2]
    | _ => exact False.elim h
  | .map a m, q, h => by cases q with
    | map b n => rw [explain, explain, Mapping.Alike.text_eq h.1, Alike.explain_eq h.2]
    | _ => exact False.elim h

theorem Alike.explainStep_eq : {s t : FilterStep} → s.Alike catalog t → s.explain catalog = t.explain catalog
  | .predicate c x, t, h => by cases t with
    | predicate d y => rw [FilterStep.explain, FilterStep.explain, Condition.Alike.text_eq h.1, h.2]
    | _ => exact False.elim h
  | .membership p x, t, h => by cases t with
    | membership q y => rw [FilterStep.explain, FilterStep.explain, h.1, Alike.explain_eq h.2]
    | _ => exact False.elim h
  | .materialized p, t, h => by cases t with
    | materialized q => rw [FilterStep.explain, FilterStep.explain, Alike.explain_eq h]
    | _ => exact False.elim h

theorem Alike.explainAll_eq : {steps others : List FilterStep} → FilterStep.AlikeAll catalog steps others →
    FilterStep.explainAll catalog steps = FilterStep.explainAll catalog others
  | [], [], _ => rfl
  | s :: steps, t :: others, h => by
    rw [FilterStep.explainAll, FilterStep.explainAll, Alike.explainStep_eq h.1, Alike.explainAll_eq h.2]

end

/-- Plans whose names have no marks are hashed from the same bytes exactly if they have the same operators in the same
places and literals and conditions that cannot be told apart by their texts. -/
theorem stream_eq_iff {p q : Plan} (hp : p.Plain catalog) (hq : q.Plain catalog) :
    (p.explain catalog).stream = (q.explain catalog).stream ↔ p.Alike catalog q := by
  constructor
  · intro h
    exact (readsBack p q [] [] hp hq (by rw [h])).1
  · intro h
    rw [h.explain_eq]

/-- The key of a look-up shows, the contents of a byte string in a condition do not. -/
theorem stream_eq_iff_lookups :
    let catalog : Catalog := (Graph.ofStore .initial).catalog
    let plan : Int64 → UInt8 → Plan := fun n b =>
      .filter (.indexLookup ⟨0, "Point.x", .ranged, none⟩ (.record [("x", .int n)]) .gt)
        [.predicate (.part "y" (.bytes [b]) .eq) .zero]
    (∀ n b, (plan n b).Plain catalog) ∧
      ((plan 1 7).explain catalog).stream ≠ ((plan 2 7).explain catalog).stream ∧
      ((plan 1 7).explain catalog).stream = ((plan 1 8).explain catalog).stream := by
  intro catalog plan
  have hplain : ∀ n b, (plan n b).Plain catalog := fun n b =>
    ⟨⟨by decide, by decide, trivial, trivial⟩, (show 1 + 1 < 2 ^ 64 by decide), ⟨by decide, trivial⟩, trivial⟩
  refine ⟨hplain, fun h => ?_, (stream_eq_iff (hplain 1 7) (hplain 1 8)).mpr ?_⟩
  · obtain ⟨⟨-, -, hkey⟩, -⟩ := (stream_eq_iff (hplain 1 7) (hplain 2 7)).mp h
    have hnumber : (1 : Int64) = 2 := hkey.2.1
    exact absurd hnumber (by decide)
  · exact ⟨⟨rfl, rfl, rfl, rfl, trivial⟩, ⟨⟨rfl, rfl, rfl⟩, rfl⟩, trivial⟩

/-- Look-ups of different byte strings of one length are hashed from the same bytes. -/
theorem exists_equal_streams :
    ¬ ∀ (catalog : Catalog) (index : IndexHandle) (op : Comparison) (v w : Value),
      ((Plan.indexLookup index v op).explain catalog).stream = ((Plan.indexLookup index w op).explain catalog).stream →
        v = w := by
  intro hall
  have hbytes := hall (Graph.ofStore .initial).catalog ⟨0, "Blob", .ranged, none⟩ .eq (.bytes [1]) (.bytes [2]) rfl
  simp at hbytes

end Plan

end HyperQuery
