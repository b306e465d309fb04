import HyperQuery.Proofs.Cursor.Basic

/-!
# What a caller sees of a cursor

A caller makes requests, one after the other, and sees the replies (`Navigation.replies`). One cursor simulates another
one on a class of requests (`Navigation.Simulates`) if in related states every request of the class gets the same reply,
or the same error, and leaves the states related. Then all sequences of such requests get the same replies
(`Simulates.replies_eq`), and simulations compose (`Simulates.trans`). It is enough that the moves agree one by one
(`Navigation.Mirrors`), and then the cursor also yields what the other one yields (`Mirrors.yields`).
-/

namespace HyperQuery

/-- What a caller asks of a cursor. -/
inductive Request
  | next
  | prev
  | hasNext
  | hasPrev
  | current
  | goTo (key : AtomId) (exact : Bool)
  | beforeFirst
  | afterLast
  | close
  deriving DecidableEq

/-- What a cursor replies if it does not fail. -/
inductive Reply
  | element (x : Option AtomId)
  | flag (b : Bool)
  | standsOn (x : AtomId)
  | landed (landing : Landing)
  | done
  deriving DecidableEq

namespace Request

/-- Whether the request seeks a key. -/
def seeks : Request → Bool
  | .goTo _ _ => true
  | _ => false

/-- Whether the request goes backward, or asks for what lies there. -/
def looksBack : Request → Bool
  | .prev | .hasPrev => true
  | _ => false

/-- Whether the request is a step forward, a return to the start or a search for an exact handle. -/
def probes : Request → Bool
  | .next | .beforeFirst | .goTo _ true => true
  | _ => false

/-- The move that answers the request. -/
def perform {σ : Type} (n : Navigation σ) : Request → Move σ Reply
  | .next => do return .element (← n.next)
  | .prev => do return .element (← n.prev)
  | .hasNext => do return .flag (← n.hasNext)
  | .hasPrev => do return .flag (← n.hasPrev)
  | .current => do return .standsOn (← (n.current (← Move.read) : Except QueryError AtomId))
  | .goTo key exact => do return .landed (← n.goTo key exact)
  | .beforeFirst => do
    n.beforeFirst
    return .done
  | .afterLast => do
    n.afterLast
    return .done
  | .close => do
    Move.update n.close
    return .done

end Request

namespace Navigation

variable {σ τ ρ : Type}

/-- The replies to requests, one after the other, from a state on. A request that fails is followed by the next one. -/
def replies (n : Navigation σ) : List Request → σ → List (Except QueryError Reply)
  | [], _ => []
  | q :: qs, s => (q.perform n s).1.answer :: replies n qs (q.perform n s).2

/-- The state after requests. -/
def after (n : Navigation σ) : List Request → σ → σ
  | [], s => s
  | q :: qs, s => after n qs (q.perform n s).2

theorem replies_append {n : Navigation σ} {qs qs' : List Request} {s : σ} :
    n.replies (qs ++ qs') s = n.replies qs s ++ n.replies qs' (n.after qs s) := by
  induction qs generalizing s with
  | nil => rfl
  | cons q qs ih => simp only [List.cons_append, replies, after, ih]

theorem after_append {n : Navigation σ} {qs qs' : List Request} {s : σ} :
    n.after (qs ++ qs') s = n.after qs' (n.after qs s) := by
  induction qs generalizing s with
  | nil => rfl
  | cons q qs ih => exact ih

/-- In related states the requests of a class get the same replies from both cursors and leave the states related. -/
def Simulates (n : Navigation σ) (m : Navigation τ) (V : σ → τ → Prop) (admits : Request → Prop) : Prop :=
  ∀ ⦃s t⦄ (q), admits q → V s t → Move.Agree V (q.perform n) (q.perform m) s t

variable {n : Navigation σ} {m : Navigation τ} {k : Navigation ρ} {V : σ → τ → Prop} {W : τ → ρ → Prop}
  {admits : Request → Prop}

theorem Simulates.replies_eq (h : n.Simulates m V admits) {qs : List Request} (hqs : ∀ q ∈ qs, admits q) {s : σ} {t : τ}
    (hV : V s t) : n.replies qs s = m.replies qs t := by
  induction qs generalizing s t with
  | nil => rfl
  | cons q qs ih =>
    obtain ⟨hq, hqs⟩ := List.forall_mem_cons.mp hqs
    obtain ⟨hreply, hV⟩ := h q hq hV
    simp only [replies, hreply, ih hqs hV]

theorem Simulates.after (h : n.Simulates m V admits) {qs : List Request} (hqs : ∀ q ∈ qs, admits q) {s : σ} {t : τ}
    (hV : V s t) : V (n.after qs s) (m.after qs t) := by
  induction qs generalizing s t with
  | nil => exact hV
  | cons q qs ih =>
    obtain ⟨hq, hqs⟩ := List.forall_mem_cons.mp hqs
    exact ih hqs (h q hq hV).2

theorem Simulates.trans {admits' : Request → Prop} (h : n.Simulates m V admits) (h' : m.Simulates k W admits')
    (hadmits : ∀ q, admits' q → admits q) : n.Simulates k (fun s u => ∃ t, V s t ∧ W t u) admits' := by
  rintro s u q hq ⟨t, hV, hW⟩
  obtain ⟨hanswer, hV⟩ := h q (hadmits q hq) hV
  obtain ⟨hanswer', hW⟩ := h' q hq hW
  exact ⟨hanswer.trans hanswer', _, hV, hW⟩

/-! ### From moves to requests -/

/-- Reading the element a cursor stands on answers the same where that element is the same. -/
private theorem agree_current {β : Type} {f : AtomId → β} {s : σ} {t : τ} (hcurrent : n.current s = m.current t)
    (hV : V s t) : Move.Agree V (do return f (← (n.current (← Move.read) : Except QueryError AtomId)))
      (do return f (← (m.current (← Move.read) : Except QueryError AtomId))) s t :=
  .read (.bind (.lift hcurrent hV) fun _ _ _ hV => .pure hV)

/-- In related states the moves that answer the requests of a class agree. -/
structure Mirrors (n : Navigation σ) (m : Navigation τ) (V : σ → τ → Prop) (admits : Request → Prop) : Prop where
  next : admits .next → ∀ {s t}, V s t → Move.Agree V n.next m.next s t
  prev : admits .prev → ∀ {s t}, V s t → Move.Agree V n.prev m.prev s t
  hasNext : admits .hasNext → ∀ {s t}, V s t → Move.Agree V n.hasNext m.hasNext s t
  hasPrev : admits .hasPrev → ∀ {s t}, V s t → Move.Agree V n.hasPrev m.hasPrev s t
  current : ∀ {s t}, V s t → n.current s = m.current t
  goTo : ∀ {key exact}, admits (.goTo key exact) → ∀ {s t}, V s t → Move.Agree V (n.goTo key exact) (m.goTo key exact) s t
  beforeFirst : admits .beforeFirst → ∀ {s t}, V s t → Move.Agree V n.beforeFirst m.beforeFirst s t
  afterLast : admits .afterLast → ∀ {s t}, V s t → Move.Agree V n.afterLast m.afterLast s t
  close : ∀ {s t}, V s t → V (n.close s) (m.close t)

theorem Mirrors.simulates (h : n.Mirrors m V admits) : n.Simulates m V admits := by
  intro s t q hq hV
  cases q with
  | next => exact (h.next hq hV).bind fun _ _ _ hV => .pure hV
  | prev => exact (h.prev hq hV).bind fun _ _ _ hV => .pure hV
  | hasNext => exact (h.hasNext hq hV).bind fun _ _ _ hV => .pure hV
  | hasPrev => exact (h.hasPrev hq hV).bind fun _ _ _ hV => .pure hV
  | current => exact agree_current (h.current hV) hV
  | goTo key exact => exact (h.goTo hq hV).bind fun _ _ _ hV => .pure hV
  | beforeFirst => exact (h.beforeFirst hq hV).bind fun _ _ _ hV => .pure hV
  | afterLast => exact (h.afterLast hq hV).bind fun _ _ _ hV => .pure hV
  | close => exact ⟨rfl, h.close hV⟩

theorem Mirrors.seekFrom (h : n.Mirrors m V admits) {key : AtomId} (hkey : admits (.goTo key false)) {s : σ} {t : τ}
    (hV : V s t) : Move.Agree V (n.seekFrom key) (m.seekFrom key) s t := by
  refine (h.goTo hkey hV).bind fun landing s' t' hV => ?_
  cases landing with
  | absent => exact .pure hV
  | found | closest => exact agree_current (h.current hV) hV

/-- A cursor that mirrors the forward moves of another one yields what that one yields. -/
theorem Mirrors.yields {items : List AtomId} {ordered seekable : Bool} {R : List AtomId → τ → Prop}
    (h : n.Mirrors m V admits) (hm : m.forward.Yields items ordered seekable R) (hnext : admits .next)
    (hbeforeFirst : admits .beforeFirst)
    (hgoTo : ordered = true → seekable = true → ∀ key, admits (.goTo key false))
    (hcapacity : ∀ {rest s t}, V s t → R rest t → items.length ≤ n.capacity s)
    (hordered : ∀ {rest s t}, V s t → R rest t → n.isOrdered s = ordered)
    (hseekable : ∀ {rest s t}, V s t → R rest t → n.isRandomAccess s = seekable) :
    n.forward.Yields items ordered seekable fun rest s => ∃ t, V s t ∧ R rest t where
  pull := by
    rintro rest s ⟨t, hV, hR⟩
    obtain ⟨t', rest', hmove, hR', hrest⟩ := hm.pull hR
    obtain ⟨s', hmove', hV'⟩ := (h.next hnext hV).gives hmove
    exact ⟨s', rest', hmove', ⟨t', hV', hR'⟩, hrest⟩
  rewind := by
    rintro rest s ⟨t, hV, hR⟩
    obtain ⟨t', hmove, hR'⟩ := hm.rewind hR
    obtain ⟨s', hmove', hV'⟩ := (h.beforeFirst hbeforeFirst hV).gives hmove
    exact ⟨s', hmove', t', hV', hR'⟩
  seek := by
    rintro ho hk rest s key ⟨t, hV, hR⟩
    obtain ⟨t', rest', hmove, hR', hrest⟩ := hm.seek ho hk key hR
    obtain ⟨s', hmove', hV'⟩ := (h.seekFrom (hgoTo ho hk key) hV).gives hmove
    exact ⟨s', rest', hmove', ⟨t', hV', hR'⟩, hrest⟩
  suffix := fun ⟨_, _, hR⟩ => hm.suffix hR
  capacity := fun ⟨_, hV, hR⟩ => hcapacity hV hR
  isOrdered := fun ⟨_, hV, hR⟩ => hordered hV hR
  isRandomAccess := fun ⟨_, hV, hR⟩ => hseekable hV hR
  ascending := hm.ascending

/-! ### Probing -/

/-- A cursor that yields items and can be probed for them does not fail when it is probed, however often and at whatever
place. -/
theorem Probes.replies {items : List AtomId} {ordered seekable : Bool} {R : List AtomId → σ → Prop}
    (h : n.Probes items R) (hn : n.forward.Yields items ordered seekable R) {qs : List Request}
    (hqs : ∀ q ∈ qs, q.probes = true) {rest : List AtomId} {s : σ} (hR : R rest s) {e : QueryError} :
    .error e ∉ n.replies qs s := by
  induction qs generalizing rest s with
  | nil => simp [Navigation.replies]
  | cons q qs ih =>
    obtain ⟨hq, hqs⟩ := List.forall_mem_cons.mp hqs
    have hstep : ∃ reply t rest', (q.perform n).Gives s reply t ∧ R rest' t := by
      cases q with
      | next =>
        obtain ⟨t, rest', hnext, hR', -⟩ := hn.pull hR
        exact ⟨_, t, rest', hnext.bind .pure, hR'⟩
      | beforeFirst =>
        obtain ⟨t, hrewind, hR'⟩ := hn.rewind hR
        exact ⟨_, t, items, hrewind.bind .pure, hR'⟩
      | goTo key exact =>
        cases exact with
        | true =>
          obtain ⟨t, rest', landing, hgoTo, hR', -⟩ := h key hR
          exact ⟨_, t, rest', hgoTo.bind .pure, hR'⟩
        | false => simp [Request.probes] at hq
      | _ => simp [Request.probes] at hq
    obtain ⟨reply, t, rest', ⟨hanswer, rfl⟩, hR'⟩ := hstep
    rw [Navigation.replies, hanswer, List.mem_cons]
    rintro (he | he)
    · cases he
    · exact ih hqs hR' he

end Navigation

end HyperQuery
