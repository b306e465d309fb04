import HyperQuery.Text.Quoted
import Mathlib.Data.Bool.AllAny
import Mathlib.Data.List.Forall2

/-!
# Reading texts back

Texts of values, conditions and plans are put together from names, numbers and quoted strings without lengths, so
where one part ends is told by the mark that follows it. A part that is free of the mark can be read back
(`append_inj_of_free`), and so can numbers (`toDigits_inj`), quoted strings (`quoted_append_inj`), and lists of parts
that are separated by commas (`intercalate_append_inj`).
-/

namespace HyperQuery.Text

/-! ### Marks -/

/-- The marks that follow a part inside a list, a record or a pair of brackets. -/
def closers : List Char := [',', ')', ']', '\x7d']

/-- The marks that no name should have. -/
def marks : List Char := closers ++ ['\x00', ' ', '#', ':', '<', '=', '>']

/-- A name without marks. -/
def IsPlain (name : String) : Prop := ∀ c ∈ name.toList, c ∉ marks

instance : DecidablePred IsPlain := fun name => List.decidableBAll (· ∉ marks) name.toList

/-- Nothing follows, or a closing mark. -/
def Closed (rest : List Char) : Prop := ∀ c ∈ rest.head?, c ∈ closers

theorem closed_nil : Closed [] := by simp [Closed]

theorem closed_cons {c : Char} {rest : List Char} : Closed (c :: rest) ↔ c ∈ closers := by simp [Closed]

theorem mem_marks_of_mem_closers {c : Char} (h : c ∈ closers) : c ∈ marks := List.mem_append_left _ h

theorem IsPlain.notMem {name : String} (h : IsPlain name) {c : Char} (hc : c ∈ marks) : c ∉ name.toList :=
  fun hmem => h c hmem hc

/-- A text without the character NUL, the one whose byte is zero. -/
def NulFree (s : String) : Prop := '\x00' ∉ s.toList

instance : DecidablePred NulFree := fun s => inferInstanceAs (Decidable ('\x00' ∉ s.toList))

theorem IsPlain.nulFree {name : String} (h : IsPlain name) : NulFree name := h.notMem (by decide)

theorem nulFree_of_notMem_marks {s : String} (h : ∀ c ∈ s.toList, c ∉ marks) : NulFree s :=
  IsPlain.nulFree h

theorem NulFree.append {s t : String} (hs : NulFree s) (ht : NulFree t) : NulFree (s ++ t) := by
  unfold NulFree at *
  rw [String.toList_append, List.mem_append]
  exact not_or.mpr ⟨hs, ht⟩

theorem nulFree_intercalate {l : List String} (h : ∀ s ∈ l, NulFree s) : NulFree (", ".intercalate l) := by
  induction l with
  | nil => decide
  | cons s l ih =>
    have hs := h s List.mem_cons_self
    have hl := ih fun t ht => h t (List.mem_cons_of_mem _ ht)
    cases l with
    | nil => simpa using hs
    | cons t l =>
      rw [String.intercalate_cons_cons]
      exact (hs.append (by decide)).append hl

/-! ### Where a part ends -/

section

variable {α : Type} {P : α → Prop} {s t r r' : List α}

/-- A part that is free of what comes next can be told from what comes next. -/
theorem append_inj_of_free (hs : ∀ a ∈ s, ¬P a) (ht : ∀ a ∈ t, ¬P a) (hr : ∀ a ∈ r.head?, P a)
    (hr' : ∀ a ∈ r'.head?, P a) (h : s ++ r = t ++ r') : s = t ∧ r = r' := by
  induction s generalizing t with
  | nil =>
    cases t with
    | nil => exact ⟨rfl, h⟩
    | cons b t =>
      subst h
      exact absurd (hr b rfl) (ht b List.mem_cons_self)
  | cons a s ih =>
    cases t with
    | nil =>
      subst h
      exact absurd (hr' a rfl) (hs a List.mem_cons_self)
    | cons b t =>
      obtain ⟨rfl, hrest⟩ := List.cons.inj h
      obtain ⟨rfl, rfl⟩ := ih (fun x hx => hs x (List.mem_cons_of_mem _ hx))
        (fun x hx => ht x (List.mem_cons_of_mem _ hx)) hrest
      exact ⟨rfl, rfl⟩

theorem append_cons_inj {a : α} (hs : a ∉ s) (ht : a ∉ t) (h : s ++ a :: r = t ++ a :: r') : s = t ∧ r = r' := by
  obtain ⟨hst, hr⟩ := append_inj_of_free (P := (· = a)) (fun x hx hxa => hs (hxa ▸ hx))
    (fun x hx hxa => ht (hxa ▸ hx)) (by simp) (by simp) h
  exact ⟨hst, (List.cons.inj hr).2⟩

/-- The same, split where the mark stands for the last time. -/
theorem append_cons_inj_last {a : α} (hr : a ∉ r) (hr' : a ∉ r') (h : s ++ a :: r = t ++ a :: r') :
    s = t ∧ r = r' := by
  have hrev : r.reverse ++ a :: s.reverse = r'.reverse ++ a :: t.reverse := by
    simpa using congrArg List.reverse h
  obtain ⟨hrr, hst⟩ := append_cons_inj (by simpa using hr) (by simpa using hr') hrev
  exact ⟨List.reverse_injective hst, List.reverse_injective hrr⟩

end

/-! ### Numbers -/

theorem digitChar_notMem_marks {d : Nat} (h : d < 16) : d.digitChar ∉ marks := by
  have hall : ∀ d : Fin 16, d.val.digitChar ∉ marks := by decide
  exact hall ⟨d, h⟩

theorem digitChar_inj {d e : Nat} (hd : d < 16) (he : e < 16) (h : d.digitChar = e.digitChar) : d = e := by
  have hall : ∀ d e : Fin 16, d.val.digitChar = e.val.digitChar → d = e := by decide
  exact Fin.mk.inj_iff.mp (hall ⟨d, hd⟩ ⟨e, he⟩ h)

theorem exists_digit_of_mem_toDigits {b n : Nat} (hb : 1 < b) {c : Char} (hc : c ∈ Nat.toDigits b n) :
    ∃ d < b, c = d.digitChar := by
  induction n using Nat.strongRecOn with
  | ind n ih =>
    rw [Nat.toDigits_eq_if hb] at hc
    split at hc
    · rename_i hn
      exact ⟨n, hn, List.mem_singleton.mp hc⟩
    · rename_i hn
      rcases List.mem_append.mp hc with hc | hc
      · exact ih (n / b) (Nat.div_lt_self (by omega) hb) hc
      · exact ⟨n % b, Nat.mod_lt _ (by omega), List.mem_singleton.mp hc⟩

theorem notMem_marks_of_mem_toDigits {b n : Nat} (hb : 1 < b) (hb' : b ≤ 16) {c : Char}
    (hc : c ∈ Nat.toDigits b n) : c ∉ marks := by
  obtain ⟨d, hd, rfl⟩ := exists_digit_of_mem_toDigits hb hc
  exact digitChar_notMem_marks (by omega)

theorem toDigits_inj {b m n : Nat} (hb : 1 < b) (hb' : b ≤ 16) (h : Nat.toDigits b m = Nat.toDigits b n) :
    m = n := by
  induction m using Nat.strongRecOn generalizing n with
  | ind m ih =>
    by_cases hm : m < b <;> by_cases hn : n < b
    · rw [Nat.toDigits_of_lt_base hm, Nat.toDigits_of_lt_base hn] at h
      exact digitChar_inj (by omega) (by omega) (List.singleton_inj.mp h)
    · rw [Nat.toDigits_of_lt_base hm, Nat.toDigits_of_base_le hb (by omega)] at h
      simpa using congrArg List.length h
    · rw [Nat.toDigits_of_base_le hb (by omega), Nat.toDigits_of_lt_base hn] at h
      simpa using congrArg List.length h
    · rw [Nat.toDigits_of_base_le hb (show b ≤ m by omega), Nat.toDigits_of_base_le hb (show b ≤ n by omega)] at h
      obtain ⟨hdiv, hmod⟩ := List.append_inj' h rfl
      have hq : m / b = n / b := ih (m / b) (Nat.div_lt_self (by omega) hb) hdiv
      have hmb : m % b < b := Nat.mod_lt _ (by omega)
      have hnb : n % b < b := Nat.mod_lt _ (by omega)
      have hr : m % b = n % b := digitChar_inj (by omega) (by omega) (List.singleton_inj.mp hmod)
      rw [← Nat.div_add_mod m b, ← Nat.div_add_mod n b, hq, hr]

theorem toList_toString_nat (n : Nat) : (toString n).toList = Nat.toDigits 10 n := by simp

theorem notMem_marks_of_mem_nat {n : Nat} {c : Char} (hc : c ∈ (toString n).toList) : c ∉ marks :=
  notMem_marks_of_mem_toDigits (by decide) (by decide) (toList_toString_nat n ▸ hc)

theorem toString_nat_inj {m n : Nat} (h : toString m = toString n) : m = n :=
  toDigits_inj (b := 10) (by decide) (by decide) (by simpa [← String.toList_inj] using h)

/-- A number is written with its digits, a negative one behind a minus. -/
theorem toList_toString_int (n : Int) :
    (toString n).toList = (if n < 0 then ['-'] else []) ++ Nat.toDigits 10 n.natAbs := by
  rw [Int.toString_eq_repr, Int.repr_eq_if]
  by_cases hn : 0 ≤ n
  · have habs : n.toNat = n.natAbs := by omega
    rw [if_pos hn, if_neg (by omega), Nat.toList_repr, habs, List.nil_append]
  · have habs : (-n).toNat = n.natAbs := by omega
    rw [if_neg hn, if_pos (by omega), String.toList_append, Nat.toList_repr, habs]
    rfl

theorem notMem_marks_of_mem_int {n : Int} {c : Char} (hc : c ∈ (toString n).toList) : c ∉ marks := by
  rw [toList_toString_int] at hc
  rcases List.mem_append.mp hc with hc | hc
  · have hminus : c = '-' := by
      split at hc
      · exact List.mem_singleton.mp hc
      · exact absurd hc List.not_mem_nil
    rw [hminus]
    decide
  · exact notMem_marks_of_mem_toDigits (by decide) (by decide) hc

theorem minus_notMem_toDigits {n : Nat} : '-' ∉ Nat.toDigits 10 n := by
  intro h
  obtain ⟨d, hd, hminus⟩ := exists_digit_of_mem_toDigits (by decide) h
  have hall : ∀ d : Fin 10, '-' ≠ d.val.digitChar := by decide
  exact hall ⟨d, hd⟩ hminus

theorem toString_int_inj {m n : Int} (h : toString m = toString n) : m = n := by
  have hlist : (toString m).toList = (toString n).toList := congrArg String.toList h
  rw [toList_toString_int, toList_toString_int] at hlist
  have hminus : ∀ k l : Nat, Nat.toDigits 10 k ≠ '-' :: Nat.toDigits 10 l := fun k l hkl =>
    minus_notMem_toDigits (n := k) (hkl ▸ List.mem_cons_self)
  have habs : ∀ {k l : Nat}, Nat.toDigits 10 k = Nat.toDigits 10 l → k = l := toDigits_inj (by decide) (by decide)
  by_cases hm : m < 0 <;> by_cases hn : n < 0
  · rw [if_pos hm, if_pos hn] at hlist
    have := habs (List.append_cancel_left hlist)
    omega
  · rw [if_pos hm, if_neg hn] at hlist
    exact absurd hlist.symm (hminus _ _)
  · rw [if_neg hm, if_pos hn] at hlist
    exact absurd hlist (hminus _ _)
  · rw [if_neg hm, if_neg hn] at hlist
    have := habs hlist
    omega

/-! ### Quoted strings -/

/-- What a short escape stands for. -/
def unescape : Char → Char
  | '0' => '\x00'
  | 't' => '\t'
  | 'n' => '\n'
  | 'r' => '\r'
  | c => c

/-- A character inside quotes is itself, or behind a backslash a short escape or a number in braces. -/
theorem escapeChar_cases (c : Char) :
    (c ≠ '\\' ∧ c ≠ '\x22' ∧ c ≠ '\x00' ∧ escapeChar c = [c]) ∨
    (∃ e, e ≠ 'u' ∧ e ≠ '\x00' ∧ c = unescape e ∧ escapeChar c = ['\\', e]) ∨
    escapeChar c = '\\' :: 'u' :: '\x7b' :: (hexDigits c.toNat ++ ['\x7d']) := by
  unfold escapeChar
  split
  · exact .inr (.inl ⟨'0', by decide⟩)
  · exact .inr (.inl ⟨'t', by decide⟩)
  · exact .inr (.inl ⟨'n', by decide⟩)
  · exact .inr (.inl ⟨'r', by decide⟩)
  · exact .inr (.inl ⟨'\x22', by decide⟩)
  · exact .inr (.inl ⟨'\\', by decide⟩)
  · rename_i hnul htab hline hreturn hquote hback
    split
    · exact .inr (.inr rfl)
    · exact .inl ⟨hback, hquote, hnul, rfl⟩

theorem brace_notMem_hexDigits {n : Nat} : '\x7d' ∉ hexDigits n := fun h =>
  notMem_marks_of_mem_toDigits (by decide) (by decide) h (by decide)

/-- A character inside quotes can be read back. -/
theorem escapeChar_append_inj {c d : Char} {r r' : List Char} (h : escapeChar c ++ r = escapeChar d ++ r') :
    c = d ∧ r = r' := by
  rcases escapeChar_cases c with ⟨hc, -, -, hec⟩ | ⟨e, he, -, hce, hec⟩ | hec <;>
    rcases escapeChar_cases d with ⟨hd, -, -, hed⟩ | ⟨e', he', -, hde, hed⟩ | hed <;>
    simp only [hec, hed, List.cons_append, List.nil_append, List.append_assoc, List.cons.injEq, true_and] at h
  · exact h
  · exact absurd h.1 hc
  · exact absurd h.1 hc
  · exact absurd h.1.symm hd
  · obtain ⟨rfl, hr⟩ := h
    exact ⟨hce.trans hde.symm, hr⟩
  · exact absurd h.1 he
  · exact absurd h.1.symm hd
  · exact absurd h.1.symm he'
  · obtain ⟨hdigits, hr⟩ := append_cons_inj brace_notMem_hexDigits brace_notMem_hexDigits h
    exact ⟨Char.toNat_inj.mp (toDigits_inj (by decide) (by decide) hdigits), hr⟩

theorem escapeChar_append_ne_quote {c : Char} {r r' : List Char} : escapeChar c ++ r ≠ '\x22' :: r' := by
  rcases escapeChar_cases c with ⟨-, hc, -, hec⟩ | ⟨e, -, -, -, hec⟩ | hec
  · simp [hec, hc]
  · simp [hec]
  · simp [hec]

theorem flatMap_escapeChar_inj {s t r r' : List Char}
    (h : s.flatMap escapeChar ++ '\x22' :: r = t.flatMap escapeChar ++ '\x22' :: r') : s = t ∧ r = r' := by
  induction s generalizing t with
  | nil =>
    cases t with
    | nil => exact ⟨rfl, (List.cons.inj h).2⟩
    | cons d t =>
      rw [List.flatMap_cons, List.append_assoc] at h
      exact absurd h.symm escapeChar_append_ne_quote
  | cons c s ih =>
    cases t with
    | nil =>
      rw [List.flatMap_cons, List.append_assoc] at h
      exact absurd h escapeChar_append_ne_quote
    | cons d t =>
      rw [List.flatMap_cons, List.flatMap_cons, List.append_assoc, List.append_assoc] at h
      obtain ⟨rfl, hrest⟩ := escapeChar_append_inj h
      obtain ⟨rfl, rfl⟩ := ih hrest
      exact ⟨rfl, rfl⟩

/-- A quoted string can be read back, whatever follows it. -/
theorem quoted_append_inj {s t : String} {r r' : List Char} (h : (quoted s).toList ++ r = (quoted t).toList ++ r') :
    s = t ∧ r = r' := by
  simp only [quoted, String.toList_ofList, List.cons_append, List.append_assoc, List.nil_append, List.cons.injEq,
    true_and] at h
  obtain ⟨hst, hr⟩ := flatMap_escapeChar_inj h
  exact ⟨String.toList_inj.mp hst, hr⟩

theorem nulFree_quoted (s : String) : NulFree (quoted s) := by
  have hesc : ∀ c, '\x00' ∉ escapeChar c := fun c h => by
    rcases escapeChar_cases c with ⟨-, -, hc, hec⟩ | ⟨e, -, he, -, hec⟩ | hec
    · exact hc (by simpa [hec, eq_comm] using h)
    · exact he (by simpa [hec, eq_comm] using h)
    · have hhex : '\x00' ∉ hexDigits c.toNat := fun h =>
        notMem_marks_of_mem_toDigits (by decide) (by decide) h (by decide)
      simp [hec, hhex] at h
  simp [NulFree, quoted, hesc]

/-! ### Lists -/

/-- A text that does not begin with a closing mark, and does begin. -/
def Opens (s : String) : Prop := ∃ c rest, s.toList = c :: rest ∧ c ∉ closers

section

variable {α : Type} {text : α → String} {R : α → α → Prop} {close : Char} {xs ys : List α} {r r' : List Char}

theorem toList_intercalate_cons (x : α) (xs : List α) :
    (", ".intercalate ((x :: xs).map text)).toList =
      (text x).toList ++ xs.flatMap fun y => ',' :: ' ' :: (text y).toList := by
  induction xs generalizing x with
  | nil => simp
  | cons y xs ih =>
    rw [List.map_cons, List.map_cons, String.intercalate_cons_cons, String.toList_append, String.toList_append,
      ← List.map_cons, ih, List.flatMap_cons]
    simp

/-- Whatever follows a list starts with a closing mark, be it the comma before the next entry. -/
private theorem closed_rest (hclose : close ∈ closers) :
    Closed ((xs.flatMap fun y => ',' :: ' ' :: (text y).toList) ++ close :: r) := by
  cases xs with
  | nil => exact closed_cons.mpr hclose
  | cons y xs => exact closed_cons.mpr (by decide)

/-- What it takes to read back the entries of two lists. -/
def Readable (text : α → String) (R : α → α → Prop) (xs ys : List α) : Prop :=
  ∀ x ∈ xs, ∀ y ∈ ys, ∀ r r', Closed r → Closed r' → (text x).toList ++ r = (text y).toList ++ r' → R x y ∧ r = r'

private theorem rest_append_inj (hclose : close ∈ closers) (hcomma : close ≠ ',') (hread : Readable text R xs ys)
    (h : (xs.flatMap fun y => ',' :: ' ' :: (text y).toList) ++ close :: r =
      (ys.flatMap fun y => ',' :: ' ' :: (text y).toList) ++ close :: r') :
    List.Forall₂ R xs ys ∧ r = r' := by
  induction xs generalizing ys with
  | nil =>
    cases ys with
    | nil => exact ⟨.nil, (List.cons.inj h).2⟩
    | cons y ys => exact absurd (List.cons.inj h).1 hcomma
  | cons x xs ih =>
    cases ys with
    | nil => exact absurd (List.cons.inj h).1.symm hcomma
    | cons y ys =>
      simp only [List.flatMap_cons, List.cons_append, List.append_assoc, List.cons.injEq, true_and] at h
      obtain ⟨hxy, hrest⟩ := hread x List.mem_cons_self y List.mem_cons_self _ _ (closed_rest hclose)
        (closed_rest hclose) h
      obtain ⟨hall, hr⟩ := ih (fun x hx y hy => hread x (List.mem_cons_of_mem _ hx) y (List.mem_cons_of_mem _ hy)) hrest
      exact ⟨.cons hxy hall, hr⟩

/-- A list in brackets can be read back if its entries can. -/
theorem intercalate_append_inj (hclose : close ∈ closers) (hcomma : close ≠ ',') (hread : Readable text R xs ys)
    (hxs : ∀ x ∈ xs, Opens (text x)) (hys : ∀ y ∈ ys, Opens (text y))
    (h : (", ".intercalate (xs.map text)).toList ++ close :: r =
      (", ".intercalate (ys.map text)).toList ++ close :: r') :
    List.Forall₂ R xs ys ∧ r = r' := by
  have hopen : ∀ {y s}, Opens (text y) → (text y).toList ++ s ≠ close :: r ∧ (text y).toList ++ s ≠ close :: r' := by
    rintro y s ⟨c, rest, hc, hcl⟩
    have hne : c ≠ close := fun hcc => hcl (hcc ▸ hclose)
    simp [hc, hne]
  cases xs with
  | nil =>
    cases ys with
    | nil => exact ⟨.nil, by simpa using h⟩
    | cons y ys =>
      rw [toList_intercalate_cons, List.append_assoc] at h
      exact absurd (by simpa using h.symm) (hopen (hys y List.mem_cons_self)).1
  | cons x xs =>
    cases ys with
    | nil =>
      rw [toList_intercalate_cons, List.append_assoc] at h
      exact absurd (by simpa using h) (hopen (hxs x List.mem_cons_self)).2
    | cons y ys =>
      rw [toList_intercalate_cons, toList_intercalate_cons, List.append_assoc, List.append_assoc] at h
      obtain ⟨hxy, hrest⟩ := hread x List.mem_cons_self y List.mem_cons_self _ _ (closed_rest hclose)
        (closed_rest hclose) h
      obtain ⟨hall, hr⟩ := rest_append_inj hclose hcomma
        (fun x hx y hy => hread x (List.mem_cons_of_mem _ hx) y (List.mem_cons_of_mem _ hy)) hrest
      exact ⟨.cons hxy hall, hr⟩

end

end HyperQuery.Text
