import HyperQuery.Condition.Basic
import HyperQuery.Proofs.Text

/-!
# Texts of handles, types, mappings and walks

The parts of conditions that are written without literals can be read back from their texts: handles
(`AtomId.text_inj`), comparison operators (`Comparison.symbol_append_inj`) and walks (`Walk.text_append_inj`) always,
types and mappings if the names in them have no marks (`TypeRef.text_inj`, `Mapping.alike_of_text_eq`).
-/

namespace HyperQuery

open Text (IsPlain NulFree marks)

/-! ### Handles, types and mappings -/

theorem AtomId.toList_text (id : AtomId) : (AtomId.text id).toList = '#' :: (toString id).toList := by
  simp [AtomId.text]

theorem AtomId.text_inj {a b : AtomId} (h : AtomId.text a = AtomId.text b) : a = b := by
  have hlist := congrArg String.toList h
  rw [AtomId.toList_text, AtomId.toList_text] at hlist
  exact Text.toString_nat_inj (String.toList_inj.mp (List.cons.inj hlist).2)

theorem AtomId.notMem_text {id : AtomId} {c : Char} (hne : c ≠ '#') (hdigit : ∀ d : Fin 10, c ≠ d.val.digitChar) :
    c ∉ (AtomId.text id).toList := by
  rw [AtomId.toList_text, List.mem_cons]
  rintro (h | h)
  · exact hne h
  · obtain ⟨d, hd, hcd⟩ := Text.exists_digit_of_mem_toDigits (by decide) (Text.toList_toString_nat id ▸ h)
    exact hdigit ⟨d, hd⟩ hcd

theorem AtomId.nulFree_text (id : AtomId) : NulFree (AtomId.text id) := AtomId.notMem_text (by decide) (by decide)

namespace TypeRef

/-- Whether the name, if the type is named, has no marks. -/
def Plain : TypeRef → Prop
  | .handle _ => True
  | .named name => IsPlain name

theorem notMem_text {ty : TypeRef} (h : ty.Plain) {c : Char} (hc : c ∈ marks) (hne : c ≠ '#')
    (hdigit : ∀ d : Fin 10, c ≠ d.val.digitChar) : c ∉ ty.text.toList := by
  cases ty with
  | handle id => exact AtomId.notMem_text hne hdigit
  | named name => exact IsPlain.notMem h hc

/-- A plain name is not written like a handle. -/
theorem text_inj {ty other : TypeRef} (h : ty.Plain) (h' : other.Plain) (htext : ty.text = other.text) :
    ty = other := by
  have hsharp : ∀ {id : AtomId} {name : String}, IsPlain name → AtomId.text id ≠ name := by
    rintro id name hname rfl
    exact hname.notMem (c := '#') (by decide) (by simp [AtomId.toList_text])
  cases ty with
  | handle id =>
    cases other with
    | handle id' => exact congrArg handle (AtomId.text_inj htext)
    | named name => exact absurd htext (hsharp h')
  | named name =>
    cases other with
    | handle id => exact absurd htext.symm (hsharp h)
    | named name' => exact congrArg named htext

theorem nulFree_text {ty : TypeRef} (h : ty.Plain) : NulFree ty.text :=
  notMem_text h (by decide) (by decide) (by decide)

end TypeRef

namespace Mapping

/-- Whether the name of a user's mapping has no marks. -/
def Plain (catalog : Catalog) : Mapping → Prop
  | .custom number => IsPlain (catalog.mapping number).name
  | _ => True

/-- Whether two mappings are called the same. -/
def Alike (catalog : Catalog) : Mapping → Mapping → Prop
  | .target i, .target j => i = j
  | .typeOf, .typeOf => True
  | .custom m, .custom n => (catalog.mapping m).name = (catalog.mapping n).name
  | .typeOf, .custom n => (catalog.mapping n).name = "type_of"
  | .custom n, .typeOf => (catalog.mapping n).name = "type_of"
  | _, _ => False

variable {catalog : Catalog} {m n : Mapping}

theorem toList_text_target (position : Nat) :
    (text catalog (.target position)).toList = "target[".toList ++ ((toString position).toList ++ [']']) := by
  simp [text]

theorem Alike.text_eq (h : m.Alike catalog n) : m.text catalog = n.text catalog := by
  cases m with
  | target i => cases n with
    | target j => exact congrArg (fun position => text catalog (.target position)) h
    | _ => exact False.elim h
  | typeOf => cases n with
    | target j => exact False.elim h
    | typeOf => rfl
    | custom number => exact Eq.symm h
  | custom number => cases n with
    | target j => exact False.elim h
    | _ => exact h

/-- A plain name is not written like a position. -/
theorem alike_of_text_eq (hm : m.Plain catalog) (hn : n.Plain catalog) (h : m.text catalog = n.text catalog) :
    m.Alike catalog n := by
  have htarget : ∀ {position : Nat} {name : String}, IsPlain name → text catalog (.target position) ≠ name := by
    rintro position name hname rfl
    exact hname.notMem (c := ']') (by decide) (by simp [toList_text_target])
  have htypeOf : IsPlain (text catalog .typeOf) := (by decide : IsPlain "type_of")
  cases m with
  | target i => cases n with
    | target j =>
      have hlist := congrArg String.toList h
      rw [toList_text_target, toList_text_target] at hlist
      exact Text.toString_nat_inj (String.toList_inj.mp (List.append_cancel_right (List.append_cancel_left hlist)))
    | typeOf => exact absurd h (htarget htypeOf)
    | custom number => exact absurd h (htarget hn)
  | typeOf => cases n with
    | target j => exact absurd h.symm (htarget htypeOf)
    | typeOf => trivial
    | custom number => exact h.symm
  | custom number => cases n with
    | target j => exact absurd h.symm (htarget hm)
    | typeOf => exact h
    | custom number' => exact h

theorem bracket_notMem_text (h : m.Plain catalog) : ')' ∉ (m.text catalog).toList := by
  cases m with
  | target position =>
    have hdigits : ')' ∉ (toString position).toList := fun hc => Text.notMem_marks_of_mem_nat hc (by decide)
    rw [toList_text_target, List.mem_append, List.mem_append]
    rintro (hc | hc | hc)
    · exact absurd hc (by decide)
    · exact hdigits hc
    · exact absurd hc (by decide)
  | typeOf => simp [text]
  | custom number => exact IsPlain.notMem h (by decide)

theorem nulFree_text (h : m.Plain catalog) : NulFree (m.text catalog) := by
  cases m with
  | target position =>
    exact (NulFree.append (by decide) (Text.nulFree_of_notMem_marks fun _ => Text.notMem_marks_of_mem_nat)).append
      (by decide)
  | typeOf => exact (by decide : NulFree "type_of")
  | custom number => exact IsPlain.nulFree h

end Mapping

/-! ### Walks and comparisons -/

namespace Walk

private theorem order_append_inj {o o' : VisitOrder} {b b' : Bool} {r r' : List Char}
    (h : o.text.toList ++ ((if b then " +start" else "").toList ++ ')' :: r) =
      o'.text.toList ++ ((if b' then " +start" else "").toList ++ ')' :: r')) :
    o = o' ∧ b = b' ∧ r = r' := by
  cases o <;> cases o' <;> cases b <;> cases b' <;>
    simp only [VisitOrder.text, if_true, if_false, Bool.false_eq_true, String.reduceToList, List.cons_append,
      List.nil_append, List.cons.injEq, reduceCtorEq, true_and, false_and, and_false] at h ⊢ <;>
    first | exact h | simp at h

theorem text_append_inj {v w : Walk} {r r' : List Char} (h : v.text.toList ++ r = w.text.toList ++ r') :
    v = w ∧ r = r' := by
  have hdirection : ∀ d : Direction, ' ' ∉ d.text.toList := by
    intro d
    cases d <;> decide
  have hsame : ∀ d e : Direction, d.text.toList = e.text.toList → d = e := by
    intro d e hde
    cases d <;> cases e <;> first | rfl | simp [Direction.text] at hde
  have hspace : ∀ {id : AtomId}, ' ' ∉ (AtomId.text id).toList := AtomId.notMem_text (by decide) (by decide)
  obtain ⟨start, via, direction, order, includeStart⟩ := v
  obtain ⟨start', via', direction', order', includeStart'⟩ := w
  unfold text at h
  simp only [String.toList_append, String.reduceToList, List.append_assoc, List.cons_append, List.nil_append,
    List.cons.injEq, true_and] at h
  obtain ⟨hstart, h⟩ := Text.append_cons_inj hspace hspace h
  obtain rfl := AtomId.text_inj (String.toList_inj.mp hstart)
  -- behind the direction stands a space, followed by the type if there is one and else by the order
  rcases via with _ | ty <;> rcases via' with _ | ty' <;>
    simp only [String.toList_append, String.reduceToList, List.cons_append, List.nil_append] at h <;>
    obtain ⟨hdir, hrest⟩ := Text.append_cons_inj (hdirection _) (hdirection _) h <;>
    obtain rfl := hsame _ _ hdir
  · obtain ⟨rfl, rfl, rfl⟩ := order_append_inj hrest
    exact ⟨rfl, rfl⟩
  · cases order <;> simp [VisitOrder.text] at hrest
  · cases order' <;> simp [VisitOrder.text] at hrest
  · simp only [List.cons.injEq, true_and] at hrest
    obtain ⟨hty, hrest⟩ := Text.append_cons_inj hspace hspace hrest
    obtain rfl := AtomId.text_inj (String.toList_inj.mp hty)
    obtain ⟨rfl, rfl, rfl⟩ := order_append_inj hrest
    exact ⟨rfl, rfl⟩

theorem text_inj {v w : Walk} (h : v.text = w.text) : v = w := by
  have hlist : v.text.toList ++ [] = w.text.toList ++ [] := by rw [h]
  exact (text_append_inj hlist).1

theorem nulFree_text (w : Walk) : NulFree w.text := by
  have hdirection : NulFree w.direction.text := by cases w.direction <;> decide
  have horder : NulFree w.order.text := by cases w.order <;> decide
  have hstart : NulFree (if w.includeStart then " +start" else "") := by split <;> decide
  have hfirst : NulFree ("traverse(" ++ AtomId.text w.start ++ " ") :=
    ((by decide : NulFree "traverse(").append (AtomId.nulFree_text _)).append (by decide)
  unfold Walk.text
  refine (((((hfirst.append hdirection).append ?_).append (by decide)).append horder).append hstart).append (by decide)
  split
  · exact NulFree.append (by decide) (AtomId.nulFree_text _)
  · decide

end Walk

namespace Comparison

theorem symbol_inj {p q : Comparison} (h : p.symbol = q.symbol) : p = q := by
  cases p <;> cases q <;> first | rfl | simp [symbol] at h

theorem symbol_append_inj {p q : Comparison} {r r' : List Char}
    (h : p.symbol.toList ++ ' ' :: r = q.symbol.toList ++ ' ' :: r') : p = q ∧ r = r' := by
  have hspace : ∀ p : Comparison, ' ' ∉ p.symbol.toList := by
    intro p
    cases p <;> decide
  obtain ⟨hpq, hr⟩ := Text.append_cons_inj (hspace p) (hspace q) h
  exact ⟨symbol_inj (String.toList_inj.mp hpq), hr⟩

theorem nulFree_symbol (p : Comparison) : NulFree p.symbol := by cases p <;> decide

end Comparison

end HyperQuery
