import HyperQuery.Proofs.Condition.Parts
import HyperQuery.Proofs.Condition.Tree
import HyperQuery.Proofs.Value.Text

/-!
# What the text of a condition shows

The text of a condition begins with a word that shows its kind, and no such word is the beginning of another
(`head_eq_of_text_append_eq`). What follows shows the parts of the condition, if none of its names has marks: all
of them except which index it is to be answered from, which predicate or mapping of a name it calls, and what texts of
literals do not show. Conditions of one text are alike in this sense (`text_eq_iff`).
-/

namespace HyperQuery

open Text (IsPlain Closed NulFree closers marks)

namespace Condition

variable {catalog : Catalog}

mutual

/-- Whether two conditions cannot be told apart by their texts: the same constraints, with literals that cannot be told
apart, of the same types, paths and atoms, and predicates and mappings of the same names. -/
def Alike (catalog : Catalog) : Condition → Condition → Prop
  | .any, .any => True
  | .nothing, .nothing => True
  | .ofType t, .ofType u => t = u
  | .ofTypePlus t, .ofTypePlus u => t = u
  | .value v p, .value w q => p = q ∧ v.Alike w
  | .typedValue t v p, .typedValue u w q => t = u ∧ p = q ∧ v.Alike w
  | .part x v p, .part y w q => x = y ∧ p = q ∧ v.Alike w
  | .indexedPart t x _ v p, .indexedPart u y _ w q => t = u ∧ x = y ∧ p = q ∧ v.Alike w
  | .incident a, .incident b => a = b
  | .link a, .link b => a = b
  | .orderedLink a, .orderedLink b => a = b
  | .targetOf a, .targetOf b => a = b
  | .subsumes a, .subsumes b => a = b
  | .subsumed a, .subsumed b => a = b
  | .walk v, .walk w => v = w
  | .predicate m, .predicate n => (catalog.predicate m).name = (catalog.predicate n).name
  | .and a, .and b => AlikeAll catalog a b
  | .or a, .or b => AlikeAll catalog a b
  | .not a, .not b => Alike catalog a b
  | .map a m, .map b n => Alike catalog a b ∧ m.Alike catalog n
  | _, _ => False

/-- Whether two lists have as many conditions, one by one alike. -/
def AlikeAll (catalog : Catalog) : List Condition → List Condition → Prop
  | [], [] => True
  | a :: as, b :: bs => Alike catalog a b ∧ AlikeAll catalog as bs
  | _, _ => False

end

mutual

/-- Whether no name in the condition has marks: of types, paths, fields, predicates and mappings. -/
def Plain (catalog : Catalog) : Condition → Prop
  | .ofType ty => ty.Plain
  | .ofTypePlus ty => ty.Plain
  | .value literal _ => literal.Plain
  | .typedValue ty literal _ => ty.Plain ∧ literal.Plain
  | .part path literal _ => IsPlain path ∧ literal.Plain
  | .indexedPart _ path _ literal _ => IsPlain path ∧ literal.Plain
  | .predicate number => IsPlain (catalog.predicate number).name
  | .and conjuncts => PlainAll catalog conjuncts
  | .or arms => PlainAll catalog arms
  | .not operand => Plain catalog operand
  | .map operand mapping => Plain catalog operand ∧ mapping.Plain catalog
  | _ => True

/-- Whether no name in a list of conditions has marks. -/
def PlainAll (catalog : Catalog) : List Condition → Prop
  | [] => True
  | c :: rest => Plain catalog c ∧ PlainAll catalog rest

end

theorem alikeAll_iff {a b : List Condition} : AlikeAll catalog a b ↔ List.Forall₂ (Alike catalog) a b := by
  induction a generalizing b with
  | nil =>
    cases b with
    | nil => exact iff_of_true trivial .nil
    | cons d b => exact iff_of_false id nofun
  | cons c a ih =>
    cases b with
    | nil => exact iff_of_false id nofun
    | cons d b => exact (and_congr_right' ih).trans List.forall₂_cons.symm

theorem plainAll_iff {cs : List Condition} : PlainAll catalog cs ↔ ∀ c ∈ cs, Plain catalog c := by
  induction cs with
  | nil => simp [PlainAll]
  | cons c cs ih => simp [PlainAll, ih]

theorem texts_eq_map (cs : List Condition) : texts catalog cs = cs.map (text catalog) := by
  induction cs with
  | nil => rfl
  | cons c cs ih => rw [texts, ih, List.map_cons]

/-! ### The first word -/

/-- What the text of a condition of the same kind begins with. -/
def head : Condition → String
  | .any => "any"
  | .nothing => "nothing"
  | .ofType _ => "type("
  | .ofTypePlus _ => "type+("
  | .value _ _ => "value "
  | .typedValue _ _ _ => "value:"
  | .part _ _ _ => "part("
  | .indexedPart _ _ _ _ _ => "part:"
  | .incident _ => "incident("
  | .link _ => "link\x7b"
  | .orderedLink _ => "link["
  | .targetOf _ => "target_of("
  | .subsumes _ => "subsumes("
  | .subsumed _ => "subsumed("
  | .walk _ => "traverse("
  | .predicate _ => "pred("
  | .and _ => "and("
  | .or _ => "or("
  | .not _ => "not("
  | .map _ _ => "map("

/-- Every such beginning. -/
def heads : List String :=
  ["any", "nothing", "type(", "type+(", "value ", "value:", "part(", "part:", "incident(", "link\x7b", "link[",
    "target_of(", "subsumes(", "subsumed(", "traverse(", "pred(", "and(", "or(", "not(", "map("]

theorem head_mem_heads (c : Condition) : c.head ∈ heads := by cases c <;> (simp only [head]; decide)

theorem heads_prefixFree : ∀ a ∈ heads, ∀ b ∈ heads, a.toList <+: b.toList → a = b := by decide

/-- What stands in the text behind its beginning, and what follows the text. -/
def afterHead (catalog : Catalog) (r : List Char) : Condition → List Char
  | .any | .nothing => r
  | .ofType ty | .ofTypePlus ty => ty.text.toList ++ ')' :: r
  | .value literal op => op.symbol.toList ++ ' ' :: (literal.text.toList ++ r)
  | .typedValue ty literal op => ty.text.toList ++ ' ' :: (op.symbol.toList ++ ' ' :: (literal.text.toList ++ r))
  | .part path literal op => path.toList ++ ')' :: ' ' :: (op.symbol.toList ++ ' ' :: (literal.text.toList ++ r))
  | .indexedPart ty path _ literal op => (AtomId.text ty).toList ++
      '(' :: (path.toList ++ ')' :: ' ' :: (op.symbol.toList ++ ' ' :: (literal.text.toList ++ r)))
  | .incident id | .targetOf id | .subsumes id | .subsumed id => (AtomId.text id).toList ++ ')' :: r
  | .link pattern => (patternText pattern).toList ++ '\x7d' :: r
  | .orderedLink pattern => (patternText pattern).toList ++ ']' :: r
  | .walk w => w.text.toList.drop 9 ++ r
  | .predicate number => (catalog.predicate number).name.toList ++ ')' :: r
  | .and cs | .or cs => (", ".intercalate (texts catalog cs)).toList ++ ')' :: r
  | .not operand => (operand.text catalog).toList ++ ')' :: r
  | .map operand mapping =>
    (operand.text catalog).toList ++ ',' :: ' ' :: ((mapping.text catalog).toList ++ ')' :: r)

theorem toList_text_append (catalog : Catalog) (c : Condition) (r : List Char) :
    (c.text catalog).toList ++ r = c.head.toList ++ c.afterHead catalog r := by
  cases c with
  | walk w =>
    simp only [head, afterHead, text]
    unfold Walk.text
    simp
  | _ => simp [head, afterHead, text, comparisonText]

/-- The beginning shows the kind, and what stands behind it can be compared. -/
theorem head_eq_of_text_append_eq {c d : Condition} {r r' : List Char}
    (h : (c.text catalog).toList ++ r = (d.text catalog).toList ++ r') :
    c.head = d.head ∧ c.afterHead catalog r = d.afterHead catalog r' := by
  rw [toList_text_append, toList_text_append] at h
  have hhead : c.head = d.head := by
    have hd : d.head.toList <+: c.head.toList ++ c.afterHead catalog r := h ▸ List.prefix_append _ _
    rcases List.prefix_or_prefix_of_prefix (List.prefix_append _ _) hd with hcd | hdc
    · exact heads_prefixFree _ (head_mem_heads c) _ (head_mem_heads d) hcd
    · exact (heads_prefixFree _ (head_mem_heads d) _ (head_mem_heads c) hdc).symm
  rw [hhead] at h
  exact ⟨hhead, List.append_cancel_left h⟩

private theorem opens_text (c : Condition) : Text.Opens (c.text catalog) := by
  have hall : ∀ a ∈ heads, a.toList.head?.any (fun l => decide (l ∉ closers)) = true := by decide
  have hopen := hall c.head (head_mem_heads c)
  have htext := toList_text_append catalog c []
  rcases hhead : c.head.toList with _ | ⟨l, rest⟩
  · simp [hhead] at hopen
  · exact ⟨l, rest ++ c.afterHead catalog [], by simpa [hhead] using htext, by simpa [hhead] using hopen⟩

/-! ### Reading conditions back -/

/-- What it takes to read a condition back where a closing mark or nothing follows. -/
def ReadsBack (catalog : Catalog) (c : Condition) : Prop :=
  ∀ (d : Condition) (r r' : List Char), c.Plain catalog → d.Plain catalog → Closed r → Closed r' →
    (c.text catalog).toList ++ r = (d.text catalog).toList ++ r' → c.Alike catalog d ∧ r = r'

section

variable {v w : Value} {p q : Comparison} {r r' : List Char}

private theorem comparison_append_inj (hv : v.Plain) (hw : w.Plain) (hr : Closed r) (hr' : Closed r')
    (h : p.symbol.toList ++ ' ' :: (v.text.toList ++ r) = q.symbol.toList ++ ' ' :: (w.text.toList ++ r')) :
    (p = q ∧ v.Alike w) ∧ r = r' := by
  obtain ⟨hpq, hvw⟩ := Comparison.symbol_append_inj h
  obtain ⟨halike, hrest⟩ := v.readsBack w r r' hv hw hr hr' hvw
  exact ⟨⟨hpq, halike⟩, hrest⟩

private theorem atom_append_inj {a b : AtomId} {c : Char} (hne : c ≠ '#') (hdigit : ∀ d : Fin 10, c ≠ d.val.digitChar)
    (h : (AtomId.text a).toList ++ c :: r = (AtomId.text b).toList ++ c :: r') : a = b ∧ r = r' := by
  obtain ⟨hab, hrest⟩ :=
    Text.append_cons_inj (AtomId.notMem_text hne hdigit) (AtomId.notMem_text hne hdigit) h
  exact ⟨AtomId.text_inj (String.toList_inj.mp hab), hrest⟩

private theorem typeRef_append_inj {t u : TypeRef} {c : Char} (ht : t.Plain) (hu : u.Plain) (hc : c ∈ marks)
    (hne : c ≠ '#') (hdigit : ∀ d : Fin 10, c ≠ d.val.digitChar)
    (h : t.text.toList ++ c :: r = u.text.toList ++ c :: r') : t = u ∧ r = r' := by
  obtain ⟨htu, hrest⟩ :=
    Text.append_cons_inj (TypeRef.notMem_text ht hc hne hdigit) (TypeRef.notMem_text hu hc hne hdigit) h
  exact ⟨TypeRef.text_inj ht hu (String.toList_inj.mp htu), hrest⟩

private theorem name_append_inj {s t : String} {c : Char} (hs : IsPlain s) (ht : IsPlain t) (hc : c ∈ marks)
    (h : s.toList ++ c :: r = t.toList ++ c :: r') : s = t ∧ r = r' := by
  obtain ⟨hst, hrest⟩ := Text.append_cons_inj (hs.notMem hc) (ht.notMem hc) h
  exact ⟨String.toList_inj.mp hst, hrest⟩

end

private theorem pattern_append_inj {a b : List Target} {close : Char} {r r' : List Char} (hclose : close ∈ closers)
    (hcomma : close ≠ ',') (h : (patternText a).toList ++ close :: r = (patternText b).toList ++ close :: r') :
    a = b ∧ r = r' := by
  have hsharp : ∀ {id : AtomId} {s : List Char}, (AtomId.text id).toList ++ s = '#' :: ((toString id).toList ++ s) := by
    intro id s
    rw [AtomId.toList_text, List.cons_append]
  have hopens : ∀ t : Target, Text.Opens t.text := by
    intro t
    cases t with
    | atom id => exact ⟨'#', _, AtomId.toList_text id, by decide⟩
    | any => exact ⟨'_', [], rfl, by decide⟩
  have hread : Text.Readable Target.text (· = ·) a b := by
    intro t _ u _ s s' hs hs' htu
    cases t with
    | atom id =>
      cases u with
      | atom id' =>
        simp only [Target.text, hsharp, List.cons.injEq, true_and] at htu
        obtain ⟨hid, hrest⟩ := Text.append_inj_of_free (P := (· ∈ closers))
          (fun c hc hcl => Text.notMem_marks_of_mem_nat hc (Text.mem_marks_of_mem_closers hcl))
          (fun c hc hcl => Text.notMem_marks_of_mem_nat hc (Text.mem_marks_of_mem_closers hcl)) hs hs' htu
        exact ⟨congrArg Target.atom (Text.toString_nat_inj (String.toList_inj.mp hid)), hrest⟩
      | any => simp [Target.text, hsharp] at htu
    | any =>
      cases u with
      | atom id => simp [Target.text, hsharp] at htu
      | any => exact ⟨rfl, List.append_cancel_left htu⟩
  obtain ⟨hall, hrest⟩ := Text.intercalate_append_inj hclose hcomma hread (fun t _ => hopens t) (fun t _ => hopens t) h
  exact ⟨List.forall₂_eq_eq_eq ▸ hall, hrest⟩

private theorem list_append_inj {as bs : List Condition} (ih : ∀ c ∈ as, c.ReadsBack catalog) {r r' : List Char}
    (ha : PlainAll catalog as) (hb : PlainAll catalog bs)
    (h : (", ".intercalate (texts catalog as)).toList ++ ')' :: r =
      (", ".intercalate (texts catalog bs)).toList ++ ')' :: r') :
    AlikeAll catalog as bs ∧ r = r' := by
  have hread : Text.Readable (text catalog) (Alike catalog) as bs := fun c hc d hd s s' hs hs' hcd =>
    ih c hc d s s' (plainAll_iff.mp ha c hc) (plainAll_iff.mp hb d hd) hs hs' hcd
  rw [texts_eq_map, texts_eq_map] at h
  obtain ⟨hall, hrest⟩ := Text.intercalate_append_inj (by decide) (by decide) hread (fun c _ => opens_text c)
    (fun d _ => opens_text d) h
  exact ⟨alikeAll_iff.mpr hall, hrest⟩

/-- Conditions that are not made of others can be read back. -/
theorem readsBack_leaf {c : Condition} (hleaf : c.isCompound = false) : c.ReadsBack catalog := by
  intro d r r' hc hd hr hr' htext
  obtain ⟨hhead, h⟩ := head_eq_of_text_append_eq htext
  cases c with
  | any => cases d with
    | any => exact ⟨trivial, h⟩
    | _ => simp [head] at hhead
  | nothing => cases d with
    | nothing => exact ⟨trivial, h⟩
    | _ => simp [head] at hhead
  | ofType t => cases d with
    | ofType u => exact typeRef_append_inj hc hd (by decide) (by decide) (by decide) h
    | _ => simp [head] at hhead
  | ofTypePlus t => cases d with
    | ofTypePlus u => exact typeRef_append_inj hc hd (by decide) (by decide) (by decide) h
    | _ => simp [head] at hhead
  | value v p => cases d with
    | value w q => exact comparison_append_inj hc hd hr hr' h
    | _ => simp [head] at hhead
  | typedValue t v p => cases d with
    | typedValue u w q =>
      obtain ⟨htu, h⟩ := typeRef_append_inj hc.1 hd.1 (by decide) (by decide) (by decide) h
      obtain ⟨hpq, hrest⟩ := comparison_append_inj hc.2 hd.2 hr hr' h
      exact ⟨⟨htu, hpq⟩, hrest⟩
    | _ => simp [head] at hhead
  | part x v p => cases d with
    | part y w q =>
      obtain ⟨hxy, h⟩ := name_append_inj hc.1 hd.1 (by decide) h
      obtain ⟨hpq, hrest⟩ := comparison_append_inj hc.2 hd.2 hr hr' (List.cons.inj h).2
      exact ⟨⟨hxy, hpq⟩, hrest⟩
    | _ => simp [head] at hhead
  | indexedPart t x i v p => cases d with
    | indexedPart u y j w q =>
      obtain ⟨htu, h⟩ := atom_append_inj (by decide) (by decide) h
      obtain ⟨hxy, h⟩ := name_append_inj hc.1 hd.1 (by decide) h
      obtain ⟨hpq, hrest⟩ := comparison_append_inj hc.2 hd.2 hr hr' (List.cons.inj h).2
      exact ⟨⟨htu, hxy, hpq⟩, hrest⟩
    | _ => simp [head] at hhead
  | incident a => cases d with
    | incident b => exact atom_append_inj (by decide) (by decide) h
    | _ => simp [head] at hhead
  | link a => cases d with
    | link b => exact pattern_append_inj (by decide) (by decide) h
    | _ => simp [head] at hhead
  | orderedLink a => cases d with
    | orderedLink b => exact pattern_append_inj (by decide) (by decide) h
    | _ => simp [head] at hhead
  | targetOf a => cases d with
    | targetOf b => exact atom_append_inj (by decide) (by decide) h
    | _ => simp [head] at hhead
  | subsumes a => cases d with
    | subsumes b => exact atom_append_inj (by decide) (by decide) h
    | _ => simp [head] at hhead
  | subsumed a => cases d with
    | subsumed b => exact atom_append_inj (by decide) (by decide) h
    | _ => simp [head] at hhead
  | walk v => cases d with
    | walk w => exact Walk.text_append_inj htext
    | _ => simp [head] at hhead
  | predicate m => cases d with
    | predicate n => exact name_append_inj hc hd (by decide) h
    | _ => simp [head] at hhead
  | and _ | or _ | not _ | map _ _ => simp [isCompound] at hleaf

/-- Every condition can be read back from its text. -/
theorem readsBack (c : Condition) : c.ReadsBack catalog := by
  induction c using treeInduction with
  | and cs ih =>
    intro d r r' hc hd hr hr' htext
    obtain ⟨hhead, h⟩ := head_eq_of_text_append_eq htext
    cases d with
    | and ds => exact list_append_inj ih hc hd h
    | _ => simp [head] at hhead
  | or cs ih =>
    intro d r r' hc hd hr hr' htext
    obtain ⟨hhead, h⟩ := head_eq_of_text_append_eq htext
    cases d with
    | or ds => exact list_append_inj ih hc hd h
    | _ => simp [head] at hhead
  | not c ih =>
    intro d r r' hc hd hr hr' htext
    obtain ⟨hhead, h⟩ := head_eq_of_text_append_eq htext
    cases d with
    | not d =>
      obtain ⟨hcd, hrest⟩ := ih d _ _ hc hd (Text.closed_cons.mpr (by decide)) (Text.closed_cons.mpr (by decide)) h
      exact ⟨hcd, (List.cons.inj hrest).2⟩
    | _ => simp [head] at hhead
  | map c m ih =>
    intro d r r' hc hd hr hr' htext
    obtain ⟨hhead, h⟩ := head_eq_of_text_append_eq htext
    cases d with
    | map d n =>
      obtain ⟨hcd, h⟩ := ih d _ _ hc.1 hd.1 (Text.closed_cons.mpr (by decide)) (Text.closed_cons.mpr (by decide)) h
      obtain ⟨hmn, hrest⟩ := Text.append_cons_inj (Mapping.bracket_notMem_text hc.2) (Mapping.bracket_notMem_text hd.2)
        (List.cons.inj (List.cons.inj h).2).2
      exact ⟨⟨hcd, Mapping.alike_of_text_eq hc.2 hd.2 (String.toList_inj.mp hmn)⟩, hrest⟩
    | _ => simp [head] at hhead
  | leaf c hleaf => exact readsBack_leaf hleaf

/-! ### Alike conditions -/

private theorem comparisonText_eq {what : String} {p q : Comparison} {v w : Value} (h : p = q ∧ v.Alike w) :
    comparisonText what p v = comparisonText what q w := by
  obtain ⟨rfl, hvw⟩ := h
  rw [comparisonText, comparisonText, hvw.text_eq]

private theorem text_eq_of_alike_leaf {c d : Condition} (hleaf : c.isCompound = false) (h : c.Alike catalog d) :
    c.text catalog = d.text catalog := by
  cases c with
  | any => cases d with
    | any => rfl
    | _ => exact False.elim h
  | nothing => cases d with
    | nothing => rfl
    | _ => exact False.elim h
  | ofType t => cases d with
    | ofType u => exact congrArg (fun ty => text catalog (.ofType ty)) h
    | _ => exact False.elim h
  | ofTypePlus t => cases d with
    | ofTypePlus u => exact congrArg (fun ty => text catalog (.ofTypePlus ty)) h
    | _ => exact False.elim h
  | value v p => cases d with
    | value w q => exact comparisonText_eq h
    | _ => exact False.elim h
  | typedValue t v p => cases d with
    | typedValue u w q =>
      obtain ⟨rfl, hpq⟩ := h
      exact comparisonText_eq hpq
    | _ => exact False.elim h
  | part x v p => cases d with
    | part y w q =>
      obtain ⟨rfl, hpq⟩ := h
      exact comparisonText_eq hpq
    | _ => exact False.elim h
  | indexedPart t x i v p => cases d with
    | indexedPart u y j w q =>
      obtain ⟨rfl, rfl, hpq⟩ := h
      exact comparisonText_eq hpq
    | _ => exact False.elim h
  | incident a => cases d with
    | incident b => exact congrArg (fun id => text catalog (.incident id)) h
    | _ => exact False.elim h
  | link a => cases d with
    | link b => exact congrArg (fun pattern => text catalog (.link pattern)) h
    | _ => exact False.elim h
  | orderedLink a => cases d with
    | orderedLink b => exact congrArg (fun pattern => text catalog (.orderedLink pattern)) h
    | _ => exact False.elim h
  | targetOf a => cases d with
    | targetOf b => exact congrArg (fun id => text catalog (.targetOf id)) h
    | _ => exact False.elim h
  | subsumes a => cases d with
    | subsumes b => exact congrArg (fun id => text catalog (.subsumes id)) h
    | _ => exact False.elim h
  | subsumed a => cases d with
    | subsumed b => exact congrArg (fun id => text catalog (.subsumed id)) h
    | _ => exact False.elim h
  | walk v => cases d with
    | walk w => exact congrArg Walk.text h
    | _ => exact False.elim h
  | predicate m => cases d with
    | predicate n => exact congrArg (fun name => "pred(" ++ name ++ ")") h
    | _ => exact False.elim h
  | and _ | or _ | not _ | map _ _ => simp [isCompound] at hleaf

private theorem texts_eq_of_alikeAll {as bs : List Condition}
    (ih : ∀ c ∈ as, ∀ {d}, c.Alike catalog d → c.text catalog = d.text catalog) (h : AlikeAll catalog as bs) :
    texts catalog as = texts catalog bs := by
  induction as generalizing bs with
  | nil => cases bs with
    | nil => rfl
    | cons d bs => exact False.elim h
  | cons c as ihas => cases bs with
    | nil => exact False.elim h
    | cons d bs =>
      obtain ⟨hcd, hrest⟩ := h
      rw [texts, texts, ih c List.mem_cons_self hcd, ihas (fun c hc => ih c (List.mem_cons_of_mem _ hc)) hrest]

/-- Conditions that are alike have one text. -/
theorem Alike.text_eq {c d : Condition} (h : c.Alike catalog d) : c.text catalog = d.text catalog := by
  induction c using treeInduction generalizing d with
  | and cs ih => cases d with
    | and ds => rw [text, text, texts_eq_of_alikeAll ih h]
    | _ => exact False.elim h
  | or cs ih => cases d with
    | or ds => rw [text, text, texts_eq_of_alikeAll ih h]
    | _ => exact False.elim h
  | not c ih => cases d with
    | not d => rw [text, text, ih h]
    | _ => exact False.elim h
  | map c m ih => cases d with
    | map d n => rw [text, text, ih h.1, Mapping.Alike.text_eq h.2]
    | _ => exact False.elim h
  | leaf c hleaf => exact text_eq_of_alike_leaf hleaf h

/-- The text of a condition tells it apart from all that are not like it. -/
theorem text_eq_iff {c d : Condition} (hc : c.Plain catalog) (hd : d.Plain catalog) :
    c.text catalog = d.text catalog ↔ c.Alike catalog d :=
  ⟨fun h => (readsBack c d [] [] hc hd Text.closed_nil Text.closed_nil (by rw [h])).1, Alike.text_eq⟩

/-! ### Texts without NUL -/

private theorem nulFree_comparisonText {what : String} {op : Comparison} {literal : Value} (hwhat : NulFree what)
    (h : literal.Plain) : NulFree (comparisonText what op literal) :=
  (((hwhat.append (by decide)).append op.nulFree_symbol).append (by decide)).append (literal.nulFree_text h)

private theorem nulFree_bracketed {first inner last : String} (hfirst : NulFree first) (hinner : NulFree inner)
    (hlast : NulFree last) : NulFree (first ++ inner ++ last) := (hfirst.append hinner).append hlast

private theorem nulFree_patternText (pattern : List Target) : NulFree (patternText pattern) := by
  refine Text.nulFree_intercalate fun s hs => ?_
  obtain ⟨t, -, rfl⟩ := List.mem_map.mp hs
  cases t with
  | atom id => exact AtomId.nulFree_text id
  | any => exact (by decide : NulFree "_")

private theorem nulFree_texts {cs : List Condition} (ih : ∀ c ∈ cs, c.Plain catalog → NulFree (c.text catalog))
    (h : PlainAll catalog cs) : NulFree (", ".intercalate (texts catalog cs)) := by
  rw [texts_eq_map]
  refine Text.nulFree_intercalate fun s hs => ?_
  obtain ⟨c, hc, rfl⟩ := List.mem_map.mp hs
  exact ih c hc (plainAll_iff.mp h c hc)

theorem nulFree_text (c : Condition) (h : c.Plain catalog) : NulFree (c.text catalog) := by
  induction c using treeInduction with
  | and cs ih | or cs ih => exact nulFree_bracketed (by decide) (nulFree_texts ih h) (by decide)
  | not c ih => exact nulFree_bracketed (by decide) (ih h) (by decide)
  | map c m ih =>
    exact (((NulFree.append (by decide) (ih h.1)).append (by decide)).append (m.nulFree_text h.2)).append (by decide)
  | leaf c hleaf =>
    cases c with
    | any => exact (by decide : NulFree "any")
    | nothing => exact (by decide : NulFree "nothing")
    | ofType ty | ofTypePlus ty => exact nulFree_bracketed (by decide) (TypeRef.nulFree_text h) (by decide)
    | value literal op => exact nulFree_comparisonText (by decide) h
    | typedValue ty literal op =>
      exact nulFree_comparisonText (NulFree.append (by decide) (TypeRef.nulFree_text h.1)) h.2
    | part path literal op =>
      exact nulFree_comparisonText (nulFree_bracketed (by decide) h.1.nulFree (by decide)) h.2
    | indexedPart ty path index literal op =>
      exact nulFree_comparisonText (nulFree_bracketed
        ((NulFree.append (by decide) (AtomId.nulFree_text ty)).append (by decide)) h.1.nulFree (by decide)) h.2
    | incident id | targetOf id | subsumes id | subsumed id =>
      exact nulFree_bracketed (by decide) (AtomId.nulFree_text id) (by decide)
    | link pattern | orderedLink pattern =>
      exact nulFree_bracketed (by decide) (nulFree_patternText pattern) (by decide)
    | walk w => exact w.nulFree_text
    | predicate number => exact nulFree_bracketed (by decide) (IsPlain.nulFree h) (by decide)
    | and _ | or _ | not _ | map _ _ => simp [isCompound] at hleaf

end Condition

end HyperQuery
