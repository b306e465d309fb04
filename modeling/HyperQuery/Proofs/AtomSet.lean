import HyperQuery.AtomSet

/-!
# Ascending lists of handles

What reading an ascending list from a key on leaves of it (`AtomSet.upFrom`): a suffix (`upFrom_suffix`), the same
whether one starts from the whole list or from a later place before the key (`upFrom_of_lt`). An ascending list is
determined by its members (`eq_of_mem_iff`).
-/

namespace HyperQuery.AtomSet

/-- The handles of a list that are not below a key. -/
def upFrom (key : AtomId) (ids : List AtomId) : List AtomId := ids.filter fun x => decide (key ≤ x)

@[simp] theorem mem_upFrom {key x : AtomId} {ids : List AtomId} : x ∈ upFrom key ids ↔ x ∈ ids ∧ key ≤ x := by
  simp [upFrom]

variable {ids : List AtomId} {key x y : AtomId}

theorem nodup_of_ascending (h : ids.Pairwise (· < ·)) : ids.Nodup := h.imp Nat.ne_of_lt

theorem lt_of_mem_of_suffix {rest : List AtomId} (h : ids.Pairwise (· < ·)) (hrest : x :: rest <:+ ids)
    (hy : y ∈ rest) : x < y := (List.pairwise_cons.mp (h.sublist hrest.sublist)).1 y hy

theorem eq_of_mem_iff {as bs : List AtomId} (ha : as.Pairwise (· < ·)) (hb : bs.Pairwise (· < ·))
    (h : ∀ x, x ∈ as ↔ x ∈ bs) : as = bs := by
  have hperm : as.Perm bs := (List.perm_ext_iff_of_nodup (nodup_of_ascending ha) (nodup_of_ascending hb)).mpr h
  refine hperm.eq_of_pairwise (fun x y _ _ hxy hyx => ?_) ha hb
  exact absurd (Nat.lt_trans hxy hyx) (Nat.lt_irrefl x)

theorem upFrom_eq_dropWhile (h : ids.Pairwise (· < ·)) : upFrom key ids = ids.dropWhile fun x => decide (x < key) := by
  induction ids with
  | nil => rfl
  | cons x rest ih =>
    obtain ⟨hx, hrest⟩ := List.pairwise_cons.mp h
    by_cases hlt : x < key
    · have hnot : ¬ key ≤ x := Nat.not_le.mpr hlt
      rw [List.dropWhile_cons_of_pos (by simpa using hlt), ← ih hrest]
      exact List.filter_cons_of_neg (by simpa using hnot)
    · rw [List.dropWhile_cons_of_neg (by simpa using hlt)]
      refine List.filter_eq_self.mpr fun y hy => ?_
      have hxy : x ≤ y := by
        rcases List.mem_cons.mp hy with rfl | hy
        · exact Nat.le_refl y
        · exact Nat.le_of_lt (hx y hy)
      exact decide_eq_true (Nat.le_trans (Nat.le_of_not_lt hlt) hxy)

theorem upFrom_suffix (h : ids.Pairwise (· < ·)) : upFrom key ids <:+ ids := by
  rw [upFrom_eq_dropWhile h]
  exact List.dropWhile_suffix _

/-- From a key above the head on, only the rest counts. -/
theorem upFrom_of_lt {rest : List AtomId} (h : ids.Pairwise (· < ·)) (hrest : x :: rest <:+ ids) (hx : x < key) :
    upFrom key ids = upFrom key rest := by
  obtain ⟨before, rfl⟩ := hrest
  have hbefore : ∀ y ∈ before, y < x := fun y hy => (List.pairwise_append.mp h).2.2 y hy x (by simp)
  have hnil : upFrom key before = [] := by
    refine List.filter_eq_nil_iff.mpr fun y hy => ?_
    have hlt : y < key := Nat.lt_trans (hbefore y hy) hx
    simpa using hlt
  unfold upFrom at hnil ⊢
  rw [List.filter_append, hnil, List.nil_append, List.filter_cons_of_neg]
  simpa using hx

/-- From the head on, everything that is left counts. -/
theorem upFrom_head {rest : List AtomId} (h : ids.Pairwise (· < ·)) (hrest : x :: rest <:+ ids) :
    upFrom x ids = x :: rest := by
  refine eq_of_mem_iff (h.filter _) (h.sublist hrest.sublist) fun y => ?_
  obtain ⟨before, rfl⟩ := hrest
  have hbefore : ∀ y ∈ before, y < x := fun y hy => (List.pairwise_append.mp h).2.2 y hy x (by simp)
  have hafter : ∀ y ∈ rest, x < y :=
    fun y hy => lt_of_mem_of_suffix h ⟨before, rfl⟩ hy
  rw [mem_upFrom, List.mem_append, List.mem_cons]
  constructor
  · rintro ⟨hy | hy, hle⟩
    · exact absurd (hbefore y hy) (Nat.not_lt.mpr hle)
    · exact hy
  · rintro (rfl | hy)
    · exact ⟨.inr (.inl rfl), Nat.le_refl y⟩
    · exact ⟨.inr (.inr hy), Nat.le_of_lt (hafter y hy)⟩

theorem upFrom_filter {p : AtomId → Bool} : upFrom key (ids.filter p) = (upFrom key ids).filter p := by
  unfold upFrom
  rw [List.filter_filter, List.filter_filter]
  congr 1
  funext y
  rw [Bool.and_comm]

theorem nodup_eraseDups (ids : List AtomId) : ids.eraseDups.Nodup := by
  generalize hn : ids.length = n
  induction n using Nat.strongRecOn generalizing ids with
  | ind n ih =>
    cases ids with
    | nil => exact List.nodup_nil
    | cons x rest =>
      rw [List.eraseDups_cons]
      have hless : (rest.filter fun y => !y == x).length < n := by
        rw [← hn]
        exact Nat.lt_succ_of_le (List.length_filter_le _ _)
      exact List.nodup_cons.mpr ⟨by simp, ih _ hless _ rfl⟩

theorem exists_eq_cons_of_min (h : ids.Pairwise (· < ·)) (hx : x ∈ ids) (hmin : ∀ y ∈ ids, x ≤ y) :
    ∃ rest, ids = x :: rest ∧ ∀ z, z ∈ rest ↔ z ∈ ids ∧ z ≠ x := by
  cases ids with
  | nil => simp at hx
  | cons y rest =>
    obtain ⟨hy, -⟩ := List.pairwise_cons.mp h
    have hxy : y = x := by
      rcases List.mem_cons.mp hx with rfl | hx
      · rfl
      · exact absurd (hy x hx) (Nat.not_lt.mpr (hmin y (by simp)))
    subst hxy
    refine ⟨rest, rfl, fun z => ?_⟩
    rw [List.mem_cons]
    exact ⟨fun hz => ⟨.inr hz, Nat.ne_of_gt (hy z hz)⟩, fun ⟨hz, hne⟩ => hz.resolve_left hne⟩

theorem ofList_of_ascending (h : ids.Pairwise (· < ·)) : ofList ids = ids :=
  eq_of_mem_iff (sorted_ofList ids) h fun _ => mem_ofList

/-- From a member on, the list begins with it. -/
theorem exists_upFrom_of_mem (h : ids.Pairwise (· < ·)) (hx : x ∈ ids) : ∃ rest, upFrom x ids = x :: rest := by
  obtain ⟨rest, hrest, -⟩ := exists_eq_cons_of_min (h.filter _) (mem_upFrom.mpr ⟨hx, Nat.le_refl x⟩)
    fun y hy => (mem_upFrom.mp hy).2
  exact ⟨rest, hrest⟩

theorem not_mem_of_head?_upFrom_ne (h : ids.Pairwise (· < ·)) (hhead : ∀ x, (upFrom key ids).head? = some x → x ≠ key) :
    key ∉ ids := by
  intro hkey
  obtain ⟨rest, hrest⟩ := exists_upFrom_of_mem h hkey
  exact hhead key (by rw [hrest]; rfl) rfl

/-- From a key on that is not a member, the list begins with the first greater member. -/
theorem head?_upFrom_of_not_mem (hkey : key ∉ ids) : (upFrom key ids).head? = ids.find? fun y => decide (key < y) := by
  rw [← List.head?_filter, upFrom]
  congr 1
  refine List.filter_congr fun y hy => ?_
  exact decide_eq_decide.mpr ⟨fun hle => Nat.lt_of_le_of_ne hle fun heq => hkey (heq ▸ hy), Nat.le_of_lt⟩

/-- The first member above one that the list goes on from is the next one. -/
theorem find?_gt_of_suffix {rest : List AtomId} (h : ids.Pairwise (· < ·)) (hrest : x :: rest <:+ ids) :
    (ids.find? fun y => decide (x < y)) = rest.head? := by
  have hup : upFrom (x + 1) ids = upFrom (x + 1) rest := upFrom_of_lt h hrest (Nat.lt_succ_self x)
  have hself : upFrom (x + 1) rest = rest :=
    List.filter_eq_self.mpr fun y hy => decide_eq_true (lt_of_mem_of_suffix h hrest hy)
  rw [← List.head?_filter]
  exact congrArg List.head? (hup.trans hself)

/-! ### Suffixes -/

theorem getElem?_of_drop {i : Nat} {rest : List AtomId} (h : ids.drop i = rest) : ids[i]? = rest.head? := by
  rw [← h, List.head?_drop]

theorem drop_succ_of_drop {i : Nat} {rest : List AtomId} (h : ids.drop i = x :: rest) : ids.drop (i + 1) = rest := by
  rw [← List.drop_drop, h, List.drop_one, List.tail_cons]

theorem mem_of_suffix_of_le {rest : List AtomId} (h : ids.Pairwise (· < ·)) (hrest : rest <:+ ids) (hx : x ∈ rest)
    (hy : y ∈ ids) (hxy : x ≤ y) : y ∈ rest := by
  obtain ⟨before, rfl⟩ := hrest
  rcases List.mem_append.mp hy with hy | hy
  · exact absurd ((List.pairwise_append.mp h).2.2 y hy x hx) (Nat.not_lt.mpr hxy)
  · exact hy

/-- An ascending list of members is a suffix if with a member it has all the greater ones. -/
theorem suffix_of_forall {rest : List AtomId} (h : ids.Pairwise (· < ·)) (hrest : rest.Pairwise (· < ·))
    (hsub : ∀ x ∈ rest, x ∈ ids) (hup : ∀ x ∈ rest, ∀ y ∈ ids, x ≤ y → y ∈ rest) : rest <:+ ids := by
  cases rest with
  | nil => exact List.nil_suffix
  | cons x tail =>
    have heq : x :: tail = upFrom x ids := by
      refine eq_of_mem_iff hrest (h.filter _) fun y => ?_
      rw [mem_upFrom]
      refine ⟨fun hy => ⟨hsub y hy, ?_⟩, fun hy => hup x (by simp) y hy.1 hy.2⟩
      rcases List.mem_cons.mp hy with rfl | hy
      · exact Nat.le_refl y
      · exact Nat.le_of_lt ((List.pairwise_cons.mp hrest).1 y hy)
    rw [heq]
    exact upFrom_suffix h

/-- The only suffix that begins as the whole list does is the whole list. -/
theorem eq_of_suffix_of_head? {rest : List AtomId} (h : ids.Pairwise (· < ·)) (hrest : rest <:+ ids)
    (hhead : rest.head? = ids.head?) : rest = ids := by
  cases ids with
  | nil => exact List.suffix_nil.mp hrest
  | cons x tail =>
    obtain ⟨rest', rfl⟩ := List.head?_eq_some_iff.mp hhead
    exact (upFrom_head h hrest).symm.trans (upFrom_head h (List.suffix_refl _))

/-! ### Common members -/

/-- The members of the first list that the second one has too. -/
def common (as bs : List AtomId) : List AtomId := as.filter fun x => bs.contains x

variable {as bs : List AtomId}

@[simp] theorem mem_common : x ∈ common as bs ↔ x ∈ as ∧ x ∈ bs := by simp [common]

theorem ascending_common (h : as.Pairwise (· < ·)) : (common as bs).Pairwise (· < ·) := h.filter _

theorem common_cons_cons (ha : (x :: as).Pairwise (· < ·)) (hb : (x :: bs).Pairwise (· < ·)) :
    common (x :: as) (x :: bs) = x :: common as bs := by
  obtain ⟨hxa, ha'⟩ := List.pairwise_cons.mp ha
  obtain ⟨hxb, -⟩ := List.pairwise_cons.mp hb
  have htail : (x :: common as bs).Pairwise (· < ·) :=
    List.pairwise_cons.mpr ⟨fun y hy => hxa y (mem_common.mp hy).1, ascending_common ha'⟩
  refine eq_of_mem_iff (ascending_common ha) htail fun y => ?_
  simp only [mem_common, List.mem_cons]
  constructor
  · rintro ⟨hya | hya, hyb⟩
    · exact .inl hya
    · exact hyb.imp_right fun hyb => ⟨hya, hyb⟩
  · rintro (rfl | ⟨hya, hyb⟩)
    · exact ⟨.inl rfl, .inl rfl⟩
    · exact ⟨.inr hya, .inr hyb⟩

theorem common_suffix {as' bs' : List AtomId} (ha : as.Pairwise (· < ·)) (hb : bs.Pairwise (· < ·))
    (ha' : as' <:+ as) (hb' : bs' <:+ bs) : common as' bs' <:+ common as bs := by
  refine suffix_of_forall (ascending_common ha) (ascending_common (ha.sublist ha'.sublist)) ?_ ?_
  · intro x hx
    obtain ⟨hxa, hxb⟩ := mem_common.mp hx
    exact mem_common.mpr ⟨ha'.subset hxa, hb'.subset hxb⟩
  · intro x hx y hy hxy
    obtain ⟨hxa, hxb⟩ := mem_common.mp hx
    obtain ⟨hya, hyb⟩ := mem_common.mp hy
    exact mem_common.mpr ⟨mem_of_suffix_of_le ha ha' hxa hya hxy, mem_of_suffix_of_le hb hb' hxb hyb hxy⟩

end HyperQuery.AtomSet
