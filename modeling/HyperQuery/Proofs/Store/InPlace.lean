import HyperQuery.Graph
import HyperQuery.Proofs.Store.Changes

/-!
# Changes in place

A graph is changed in place, step by step: atoms are numbered by a counter, and a step that fails leaves everything as the
steps before it have made it (`LiveStore`). Carried out in this way, a change does what it does to a store at once
(`carryOut_ofStore`): nothing is numbered or stored before the last check has passed.

So a change that is refused leaves no trace. All later replies, to changes and to questions of any kind, are those to the same
requests without it, and the atoms that changes return are numbered without gaps from `3` on
(`refusals_leave_no_trace`).
-/

namespace HyperQuery

namespace Store

variable {s s' : Store} {change : Change} {e : QueryError}

/-! ### What changes return -/

/-- The atom that an operation stores, if it stores one, and the store after it. -/
def enact (s : Store) : Change → Except QueryError (Option AtomId × Store)
  | .defineType name search dimensions => (s.defineType name search dimensions).map (Prod.map some id)
  | .mapValueType kind ty => (s.mapValueType kind ty).map fun changed => (none, changed)
  | .createPartIndex ty path ordered => (s.createPartIndex ty path ordered).map fun changed => (none, changed)
  | .addAtom ty value => (s.addAtom ty value).map (Prod.map some id)
  | .addLink ty targets value => (s.addLink ty targets value).map (Prod.map some id)
  | .declareSubtype general specific => (s.declareSubtype general specific).map (Prod.map some id)

theorem perform_eq_enact : s.perform change = (s.enact change).map Prod.snd := by
  have hstored (x : Except QueryError (AtomId × Store)) :
      (do return (← x).2) = (x.map (Prod.map some id)).map Prod.snd := by cases x <;> rfl
  have hchanged (x : Except QueryError Store) : x = (x.map fun changed => (none (α := AtomId), changed)).map Prod.snd := by
    cases x <;> rfl
  cases change with
  | mapValueType | createPartIndex => exact hchanged _
  | defineType | addAtom | addLink | declareSubtype => exact hstored _

/-! ### Why changes are refused -/

/-- The complaint about the name of a type that is taken. -/
def takenName (s : Store) (name : String) : Option QueryError :=
  if ∃ d ∈ s.types, d.name = name then some (.duplicateType name) else none

/-- The complaint about a type that is not defined. -/
def undefinedType (s : Store) (ty : AtomId) : Option QueryError :=
  if ∃ d ∈ s.types, d.handle = ty then none else some (.missingAtom ty)

/-- The complaint about the first of some atoms that is not stored. -/
def unstored (s : Store) (ids : List AtomId) : Option QueryError :=
  (ids.find? fun id => (s.atom? id).isNone).map .missingAtom

/-- Why an operation is refused: its name is taken, a type is not defined, or a target is not stored. -/
def obstacle (s : Store) : Change → Option QueryError
  | .defineType name _ _ => s.takenName name
  | .mapValueType _ ty | .createPartIndex ty _ _ | .addAtom ty _ => s.undefinedType ty
  | .addLink ty targets _ => (s.undefinedType ty).or (s.unstored targets)
  | .declareSubtype general specific => (s.undefinedType general).or (s.undefinedType specific)

/-- The computation fails exactly with the complaint. -/
private def FailsFor {α : Type} (x : Except QueryError α) (complaint : Option QueryError) : Prop :=
  ∀ e, x = .error e ↔ complaint = some e

section FailsFor

variable {α β : Type} {x : Except QueryError α} {f : α → Except QueryError β} {a b : Option QueryError}

private theorem FailsFor.bind (h : FailsFor x a) (hf : a = none → ∀ v, x = .ok v → FailsFor (f v) b) :
    FailsFor (x >>= f) (a.or b) := by
  cases x with
  | error e =>
    have ha : a = some e := (h e).mp rfl
    intro e'
    simp [ha, Bind.bind, Except.bind]
  | ok v =>
    have ha : a = none := Option.eq_none_iff_forall_ne_some.mpr fun e he => nomatch (h e).mpr he
    rw [ha, Option.none_or]
    exact hf ha v rfl

private theorem FailsFor.map {g : α → β} (h : FailsFor x a) : FailsFor (x.map g) a := by
  intro e
  rw [← h e]
  cases x <;> simp [Except.map]

private theorem failsFor_none {v : α} : FailsFor (.ok v : Except QueryError α) none := fun e => by simp

/-- A step after which nothing can fail. -/
private theorem FailsFor.bind_ok (h : FailsFor x a) (hf : ∀ v, ∃ w, f v = .ok w) : FailsFor (x >>= f) a := by
  have hbind : FailsFor (x >>= f) (a.or none) := h.bind fun _ v _ => by
    obtain ⟨w, hw⟩ := hf v
    rw [hw]
    exact failsFor_none
  rwa [Option.or_none] at hbind

end FailsFor

private theorem descriptor_failsFor {ty : AtomId} : FailsFor (s.descriptor ty) (s.undefinedType ty) := by
  intro e
  unfold descriptor undefinedType
  split
  · rename_i d hfind
    have hdefined : ∃ d ∈ s.types, d.handle = ty :=
      ⟨d, List.mem_of_find?_eq_some hfind, by simpa using List.find?_some hfind⟩
    simp [hdefined]
  · rename_i hfind
    have hundefined : ¬ ∃ d ∈ s.types, d.handle = ty := by simpa using hfind
    simp [hundefined]

private theorem forIn_targets_failsFor {targets : List AtomId} :
    FailsFor (forIn targets PUnit.unit fun target _ => do
      let _ ← s.atom target
      pure (ForInStep.yield PUnit.unit) : Except QueryError PUnit) (s.unstored targets) := by
  induction targets with
  | nil => exact failsFor_none
  | cons target rest ih =>
    intro e
    rw [List.forIn_cons]
    unfold unstored
    rw [List.find?_cons, atom]
    cases ha : s.atom? target with
    | none => simp [Bind.bind, Except.bind]
    | some a => exact ih e

private theorem addLink_failsFor {ty : AtomId} {targets : List AtomId} {value : Value} :
    FailsFor (s.addLink ty targets value) ((s.undefinedType ty).or (s.unstored targets)) :=
  descriptor_failsFor.bind fun _ _ _ => forIn_targets_failsFor.bind_ok fun _ => ⟨_, rfl⟩

private theorem defineType_failsFor {name : String} {search : ValueSearch} {dimensions : List String} :
    FailsFor (s.defineType name search dimensions) (s.takenName name) := by
  unfold Store.defineType takenName
  by_cases htaken : ∃ d ∈ s.types, d.name = name
  · have hany : (s.types.any fun d => d.name == name) = true := by simpa using htaken
    rw [if_pos hany, if_pos htaken]
    intro e
    simp
  · have hany : ¬ (s.types.any fun d => d.name == name) = true := by simpa using htaken
    rw [if_neg hany, if_neg htaken]
    cases search <;> exact failsFor_none

private theorem defined_of_undefinedType {ty : AtomId} (h : s.undefinedType ty = none) : ∃ d ∈ s.types, d.handle = ty := by
  unfold undefinedType at h
  split at h
  · assumption
  · simp at h

/-- Types can be linked once they are defined. -/
private theorem declareSubtype_failsFor (h : s.Reachable) {general specific : AtomId} :
    FailsFor (s.declareSubtype general specific) ((s.undefinedType general).or (s.undefinedType specific)) := by
  refine descriptor_failsFor.bind fun hgeneral _ _ => ?_
  -- types that are defined are stored, so linking them cannot fail any more
  have hlinked : s.undefinedType specific = none →
      (s.undefinedType subsumesType).or (s.unstored [general, specific]) = none := by
    intro hspecific
    have hsubsumes : s.undefinedType subsumesType = none := if_pos h.subsumesType_defined
    obtain ⟨d, hd, rfl⟩ := defined_of_undefinedType hgeneral
    obtain ⟨d', hd', rfl⟩ := defined_of_undefinedType hspecific
    obtain ⟨a, ha⟩ := h.handle_stored hd
    obtain ⟨a', ha'⟩ := h.handle_stored hd'
    simp [hsubsumes, unstored, ha, ha']
  have hboth : FailsFor (s.descriptor specific >>= fun _ => s.addLink subsumesType [general, specific] .null)
      ((s.undefinedType specific).or none) := descriptor_failsFor.bind fun hspecific _ _ => by
    rw [← hlinked hspecific]
    exact addLink_failsFor
  rwa [Option.or_none] at hboth

/-- An operation fails exactly if there is an obstacle, which is the error. -/
theorem enact_error_iff (h : s.Reachable) : s.enact change = .error e ↔ s.obstacle change = some e := by
  cases change with
  | defineType name search dimensions => exact defineType_failsFor.map e
  | mapValueType kind ty => exact (descriptor_failsFor.bind_ok fun _ => ⟨_, rfl⟩).map e
  | createPartIndex ty path ordered => exact (descriptor_failsFor.bind_ok fun _ => ⟨_, rfl⟩).map e
  | addAtom ty value =>
    have hadd : FailsFor (s.addAtom ty value) ((s.undefinedType ty).or (s.unstored [])) := addLink_failsFor
    rw [unstored, List.find?_nil, Option.map_none, Option.or_none] at hadd
    exact hadd.map e
  | addLink ty targets value => exact addLink_failsFor.map e
  | declareSubtype general specific => exact (declareSubtype_failsFor h).map e

end Store

/-! ### Changing in place -/

/-- A store that is changed in place, and the last number that was given to an atom. -/
structure LiveStore where
  store : Store
  lastId : Nat

namespace LiveStore

open Move (bind_of_pure bind_of_fail read_bind)
open Store (Change)

/-- The store when no change is under way. -/
def ofStore (s : Store) : LiveStore := ⟨s, s.atoms.size⟩

/-- Reads the store, which may fail. -/
def look {α : Type} (f : Store → Except QueryError α) : Move LiveStore α := do
  f (← Move.read).store

def amend (f : Store → Store) : Move LiveStore Unit := Move.update fun l => { l with store := f l.store }

/-- Takes the next number. -/
def allocate : Move LiveStore AtomId := do
  Move.update fun l => { l with lastId := l.lastId + 1 }
  return (← Move.read).lastId

def registerType (name : String) (search : ValueSearch) (dimensions : List String) : Move LiveStore AtomId := do
  let handle ← allocate
  amend fun s => s.insert { id := handle, type := Store.metaType, value := .string name, targets := [] }
  amend fun s => { s with types := s.types ++ [{ handle, name, search, dimensions }] }
  return handle

/-- Adds an empty index over the values of a type. -/
def addValueIndex (ty : AtomId) (name : String) (kind : IndexKind) : Move LiveStore Unit :=
  amend fun s =>
    let index : IndexHandle := { slot := s.contents.size, name := name ++ ".value", kind, view := none }
    { s.pushIndex .empty with valueIndexes := (ty, index) :: s.valueIndexes }

def defineType (name : String) (search : ValueSearch) (dimensions : List String) : Move LiveStore AtomId := do
  if (← Move.read).store.types.any fun d => d.name == name then Move.fail (.duplicateType name)
  else
    let handle ← registerType name search dimensions
    match search with
    | .none => pure ()
    | .point => addValueIndex handle name .sorted
    | .ordered => addValueIndex handle name .ranged
    return handle

def mapValueType (kind : String) (ty : AtomId) : Move LiveStore Unit := do
  let _ ← look fun s => s.descriptor ty
  amend fun s => { s with kindTypes := (kind, ty) :: s.kindTypes.filter fun entry => entry.1 != kind }

/-- The index is filled while it is built, and put in place when it is complete. -/
def createPartIndex (ty : AtomId) (path : String) (ordered : Bool) : Move LiveStore Unit := do
  let d ← look fun s => s.descriptor ty
  let entries ← ((← Move.read).store.byType.ids ty).foldlM (fun entries id => do
    let a ← look fun s => s.atom id
    return match a.value.project path with
      | some part => entries.insert part id
      | none => entries) Postings.empty
  amend fun s =>
    let index : IndexHandle :=
      { slot := s.contents.size, name := d.name ++ "." ++ path, kind := if ordered then .ranged else .hashed,
        view := none }
    { s.pushIndex entries with
      partIndexes := ((ty, path), index) :: s.partIndexes.filter fun entry => entry.1 != (ty, path) }

def addLink (ty : AtomId) (targets : List AtomId) (value : Value) : Move LiveStore AtomId := do
  let _ ← look fun s => s.descriptor ty
  for target in targets do
    let _ ← look fun s => s.atom target
  let id ← allocate
  amend fun s => s.insert { id, type := ty, value, targets }
  return id

def addAtom (ty : AtomId) (value : Value) : Move LiveStore AtomId := addLink ty [] value

def declareSubtype (general specific : AtomId) : Move LiveStore AtomId := do
  let _ ← look fun s => s.descriptor general
  let _ ← look fun s => s.descriptor specific
  addLink Store.subsumesType [general, specific] .null

/-- A change carried out in place; it returns the atom that it stores, if it stores one. -/
def carryOut : Change → Move LiveStore (Option AtomId)
  | .defineType name search dimensions => do return some (← defineType name search dimensions)
  | .mapValueType kind ty => do
    mapValueType kind ty
    return none
  | .createPartIndex ty path ordered => do
    createPartIndex ty path ordered
    return none
  | .addAtom ty value => do return some (← addAtom ty value)
  | .addLink ty targets value => do return some (← addLink ty targets value)
  | .declareSubtype general specific => do return some (← declareSubtype general specific)

/-- The store of a new graph, which defines the type of types and the type of subsumption links. -/
def new : LiveStore :=
  ((do
    let _ ← registerType "Type" .none []
    let _ ← registerType "Subsumes" .none []) (ofStore .blank)).2

theorem new_eq_ofStore : new = ofStore .initial := rfl

/-! ### In place and at once -/

variable {α β : Type} {s s' : Store} {l l' : LiveStore}

/-- What is left of a change that is made at once: the changed store, or with an error the store as it was. -/
def concluded (s : Store) : Except QueryError (α × Store) → Metered α × LiveStore
  | .ok (a, changed) => (pure a, ofStore changed)
  | .error e => (Metered.fail e, ofStore s)

theorem look_of_ok {f : Store → Except QueryError α} {a : α} (h : f l.store = .ok a) : look f l = (pure a, l) :=
  congrArg (fun r => (Metered.ofExcept r, l)) h

theorem look_of_error {f : Store → Except QueryError α} {e : QueryError} (h : f l.store = .error e) :
    look f l = (Metered.fail e, l) := congrArg (fun r => (Metered.ofExcept r, l)) h

private theorem size_insert {a : Atom} : (s.insert a).atoms.size = s.atoms.size + 1 := Nat.succ.inj Store.nextId_insert

/-- After an atom has been numbered and stored, the last number is the number of atoms again. -/
private theorem allocate_insert {a : AtomId → Atom} {f : AtomId → Move LiveStore α} :
    (do
      let id ← allocate
      amend fun s => s.insert (a id)
      f id : Move LiveStore α) (ofStore s) = f s.nextId (ofStore (s.insert (a s.nextId))) := by
  have hallocate : allocate (ofStore s) = (pure s.nextId, ⟨s, s.atoms.size + 1⟩) := rfl
  have hinsert : amend (fun t => t.insert (a s.nextId)) ⟨s, s.atoms.size + 1⟩ =
      (pure (), ⟨s.insert (a s.nextId), s.atoms.size + 1⟩) := rfl
  refine (bind_of_pure hallocate).trans ((bind_of_pure hinsert).trans ?_)
  rw [← size_insert]
  rfl

theorem registerType_ofStore {name : String} {search : ValueSearch} {dimensions : List String} :
    registerType name search dimensions (ofStore s) = (pure s.nextId, ofStore (s.registerType name search dimensions)) :=
  allocate_insert

theorem defineType_ofStore {name : String} {search : ValueSearch} {dimensions : List String} :
    defineType name search dimensions (ofStore s) = concluded s (s.defineType name search dimensions) := by
  unfold Store.defineType
  split
  · rename_i htaken
    exact read_bind.trans (congrFun (if_pos htaken) _)
  · rename_i hfree
    refine read_bind.trans ((congrFun (if_neg hfree) _).trans ((bind_of_pure registerType_ofStore).trans ?_))
    cases search <;> rfl

theorem mapValueType_ofStore {kind : String} {ty : AtomId} :
    mapValueType kind ty (ofStore s) = concluded s ((s.mapValueType kind ty).map fun changed => ((), changed)) := by
  unfold mapValueType Store.mapValueType
  rcases hd : s.descriptor ty with e | d
  · exact bind_of_fail (look_of_error hd)
  · exact bind_of_pure (look_of_ok hd)

/-- Looking up the members of a type does not fail, and yields the entries of the index. -/
private theorem foldlM_entries {path : String} {ids : List AtomId} (h : ∀ id ∈ ids, ∃ a, s.atom? id = some a)
    (entries : Postings Value) :
    (ids.foldlM (fun entries id => do
      let a ← look fun s => s.atom id
      return match a.value.project path with
        | some part => entries.insert part id
        | none => entries) entries : Move LiveStore (Postings Value)) (ofStore s) =
      (pure (ids.foldl (fun entries id =>
        match (s.atom? id).bind fun a => a.value.project path with
        | some part => entries.insert part id
        | none => entries) entries), ofStore s) := by
  induction ids generalizing entries with
  | nil => rfl
  | cons id rest ih =>
    obtain ⟨⟨a, ha⟩, hrest⟩ := List.forall_mem_cons.mp h
    have hlook : look (fun s => s.atom id) (ofStore s) = (pure a, ofStore s) :=
      look_of_ok (show s.atom id = .ok a by rw [Store.atom, ha])
    rw [List.foldlM_cons, List.foldl_cons, ha, Option.bind_some, ← ih hrest]
    exact bind_of_pure (bind_of_pure hlook)

theorem createPartIndex_ofStore (h : s.Consistent) {ty : AtomId} {path : String} {ordered : Bool} :
    createPartIndex ty path ordered (ofStore s) =
      concluded s ((s.createPartIndex ty path ordered).map fun changed => ((), changed)) := by
  unfold createPartIndex Store.createPartIndex
  have hstored : ∀ id ∈ s.byType.ids ty, ∃ a, s.atom? id = some a := fun id hid => by
    obtain ⟨a, ha, -⟩ := (Store.mem_typeIds h).mp hid
    exact ⟨a, ha⟩
  rcases hd : s.descriptor ty with e | d
  · exact bind_of_fail (look_of_error hd)
  · exact (bind_of_pure (look_of_ok hd)).trans (read_bind.trans (bind_of_pure (foldlM_entries hstored .empty)))

/-- Looking up the targets of a link leaves the store as it is. -/
private theorem forIn_look {targets : List AtomId} :
    (forIn targets PUnit.unit fun target _ => do
      let _ ← look fun s => s.atom target
      pure (ForInStep.yield PUnit.unit) : Move LiveStore PUnit) (ofStore s) =
      concluded s ((forIn targets PUnit.unit fun target _ => do
        let _ ← s.atom target
        pure (ForInStep.yield PUnit.unit) : Except QueryError PUnit).map fun u => (u, s)) := by
  induction targets with
  | nil => rfl
  | cons target rest ih =>
    rw [List.forIn_cons, List.forIn_cons]
    rcases ha : s.atom target with e | a
    · exact bind_of_fail (bind_of_fail (look_of_error ha))
    · have hlook : look (fun s => s.atom target) (ofStore s) = (pure a, ofStore s) := look_of_ok ha
      have hstep : (do
          let _ ← look fun s => s.atom target
          pure (ForInStep.yield PUnit.unit) : Move LiveStore (ForInStep PUnit)) (ofStore s) =
          (pure (.yield .unit), ofStore s) := bind_of_pure hlook
      exact (bind_of_pure hstep).trans ih

theorem addLink_ofStore {ty : AtomId} {targets : List AtomId} {value : Value} :
    addLink ty targets value (ofStore s) = concluded s (s.addLink ty targets value) := by
  unfold addLink Store.addLink
  rcases hd : s.descriptor ty with e | d
  · exact bind_of_fail (look_of_error hd)
  · refine (bind_of_pure (look_of_ok hd)).trans ?_
    have hlook := @forIn_look s targets
    rcases htargets : (forIn targets PUnit.unit fun target _ => do
        let _ ← s.atom target
        pure (ForInStep.yield PUnit.unit) : Except QueryError PUnit) with e | u
    · rw [htargets] at hlook
      exact bind_of_fail hlook
    · rw [htargets] at hlook
      exact (bind_of_pure hlook).trans allocate_insert

theorem declareSubtype_ofStore {general specific : AtomId} :
    declareSubtype general specific (ofStore s) = concluded s (s.declareSubtype general specific) := by
  unfold declareSubtype Store.declareSubtype
  rcases hgeneral : s.descriptor general with e | d
  · exact bind_of_fail (look_of_error hgeneral)
  · refine (bind_of_pure (look_of_ok hgeneral)).trans ?_
    rcases hspecific : s.descriptor specific with e | d'
    · exact bind_of_fail (look_of_error hspecific)
    · exact (bind_of_pure (look_of_ok hspecific)).trans addLink_ofStore

private theorem bind_return {m : Move LiveStore α} {x : Except QueryError (α × Store)} (g : α → β)
    (h : m (ofStore s) = concluded s x) :
    (m >>= fun a => pure (g a)) (ofStore s) = concluded s (x.map (Prod.map g id)) := by
  rcases x with e | ⟨a, changed⟩
  · exact bind_of_fail h
  · exact bind_of_pure h

private theorem map_unit {x : Except QueryError Store} : (x.map fun changed => ((), changed)).map
    (Prod.map (fun _ => none (α := AtomId)) id) = x.map fun changed => (none, changed) := by
  cases x <;> rfl

/-- Carried out in place, a change does what it does at once. -/
theorem carryOut_ofStore (h : s.Consistent) (change : Change) :
    carryOut change (ofStore s) = concluded s (s.enact change) := by
  cases change with
  | defineType name search dimensions => exact bind_return some defineType_ofStore
  | mapValueType kind ty => exact (bind_return (fun _ => none) mapValueType_ofStore).trans (congrArg _ map_unit)
  | createPartIndex ty path ordered =>
    exact (bind_return (fun _ => none) (createPartIndex_ofStore h)).trans (congrArg _ map_unit)
  | addAtom ty value => exact bind_return some addLink_ofStore
  | addLink ty targets value => exact bind_return some addLink_ofStore
  | declareSubtype general specific => exact bind_return some declareSubtype_ofStore

/-! ### Requests and replies -/

/-- What a graph is asked for: a change, or an answer to a question about it. -/
inductive Request (β : Type)
  | change (change : Change)
  | question (ask : Graph → Metered β)

/-- The reply to a request. -/
inductive Reply (β : Type)
  | changed (id : Option AtomId)
  | refused (e : QueryError)
  | answered (r : Metered β)

variable {catalog : Catalog}

/-- Serves a request. -/
def serve (catalog : Catalog) (l : LiveStore) : Request β → Reply β × LiveStore
  | .change change =>
    let (r, l') := carryOut change l
    match r.answer with
    | .ok id => (.changed id, l')
    | .error e => (.refused e, l')
  | .question ask => (.answered (ask ⟨l.store, catalog⟩), l)

/-- The store after a sequence of requests. -/
def after (catalog : Catalog) (l : LiveStore) (requests : List (Request β)) : LiveStore :=
  requests.foldl (fun l request => (serve catalog l request).2) l

/-- The replies to a sequence of requests. -/
def replies (catalog : Catalog) (l : LiveStore) : List (Request β) → List (Reply β)
  | [] => []
  | request :: rest => (serve catalog l request).1 :: replies catalog (serve catalog l request).2 rest

/-- The atoms that were stored, as they were returned. -/
def granted (replies : List (Reply β)) : List AtomId :=
  replies.filterMap fun
    | .changed id => id
    | _ => none

/-- The changes among requests. -/
def changes (requests : List (Request β)) : List Change :=
  requests.filterMap fun
    | .change change => some change
    | .question _ => none

theorem replies_append {first second : List (Request β)} :
    replies catalog l (first ++ second) = replies catalog l first ++ replies catalog (after catalog l first) second := by
  induction first generalizing l with
  | nil => rfl
  | cons request rest ih => exact congrArg (_ :: ·) ih

theorem length_replies {requests : List (Request β)} : (replies catalog l requests).length = requests.length := by
  induction requests generalizing l with
  | nil => rfl
  | cons request rest ih => exact congrArg (· + 1) ih

/-- Serving a change is enacting it, and refusing it leaves the store. -/
theorem serve_change (h : s.Consistent) {change : Change} :
    serve (β := β) catalog (ofStore s) (.change change) = match s.enact change with
      | .ok (id, changed) => (.changed id, ofStore changed)
      | .error e => (.refused e, ofStore s) := by
  have hcarried := carryOut_ofStore h change
  simp only [serve, hcarried]
  rcases s.enact change with e | ⟨id, changed⟩ <;> rfl

/-- A request is served as an operation on a store with nothing under way. -/
theorem serve_snd (h : s.Consistent) {request : Request β} :
    (serve catalog (ofStore s) request).2 = ofStore ((changes [request]).foldl Store.attempt s) := by
  cases request with
  | question ask => rfl
  | change change =>
    rw [serve_change h]
    show _ = ofStore (s.attempt change)
    rw [Store.attempt, Store.perform_eq_enact]
    rcases s.enact change with e | ⟨id, changed⟩ <;> rfl

theorem after_ofStore (h : s.Reachable) (requests : List (Request β)) :
    after catalog (ofStore s) requests = ofStore ((changes requests).foldl Store.attempt s) := by
  induction requests generalizing s with
  | nil => rfl
  | cons request rest ih =>
    have hchanges : changes (request :: rest) = changes [request] ++ changes rest :=
      @List.filterMap_append _ _ [request] rest _
    rw [after, List.foldl_cons, ← after, serve_snd h.consistent.1, ih (h.attempts _), hchanges, List.foldl_append]

theorem after_new (requests : List (Request β)) :
    after catalog new requests = ofStore (Store.afterChanges (changes requests)) := by
  rw [new_eq_ofStore]
  exact after_ofStore .initial requests

/-- A refused change leaves everything, and what refuses it is an obstacle. -/
private theorem serve_refused_iff (h : s.Reachable) {change : Change} {e : QueryError} :
    (serve (β := β) catalog (ofStore s) (.change change)).1 = .refused e ↔ s.obstacle change = some e := by
  rw [serve_change h.consistent.1, ← Store.enact_error_iff h]
  rcases s.enact change with e' | ⟨id, changed⟩ <;> simp

private theorem serve_of_refused (h : s.Reachable) {change : Change} {e : QueryError}
    (hrefused : (serve (β := β) catalog (ofStore s) (.change change)).1 = .refused e) :
    (serve (β := β) catalog (ofStore s) (.change change)).2 = ofStore s := by
  rw [serve_change h.consistent.1] at hrefused ⊢
  rcases henact : s.enact change with e' | ⟨id, changed⟩
  · rfl
  · rw [henact] at hrefused
    simp at hrefused

/-! ### Numbers of atoms -/

private theorem nextId_of_addLink {ty id : AtomId} {targets : List AtomId} {value : Value}
    (h : s.addLink ty targets value = .ok (id, s')) : id = s.nextId ∧ s'.nextId = s.nextId + 1 := by
  obtain ⟨_, -, h⟩ := bind_eq_ok_iff.mp h
  obtain ⟨_, -, h⟩ := bind_eq_ok_iff.mp h
  cases h
  exact ⟨rfl, Store.nextId_insert⟩

private theorem nextId_of_defineType {name : String} {search : ValueSearch} {dimensions : List String} {id : AtomId}
    (h : s.defineType name search dimensions = .ok (id, s')) : id = s.nextId ∧ s'.nextId = s.nextId + 1 := by
  unfold Store.defineType at h
  split at h
  · simp at h
  · cases search <;> cases h <;> exact ⟨rfl, Store.nextId_insert⟩

/-- A change takes the next number for the atom that it returns, or returns none and takes none. -/
theorem nextId_of_enact {stored : Option AtomId} {change : Change} (h : s.enact change = .ok (stored, s')) :
    stored = some s.nextId ∧ s'.nextId = s.nextId + 1 ∨ stored = none ∧ s'.nextId = s.nextId := by
  cases change with
  | defineType name search dimensions =>
    obtain ⟨⟨id, changed⟩, hdefine, heq⟩ := exists_of_map_eq_ok h
    obtain ⟨rfl, hnext⟩ := nextId_of_defineType hdefine
    cases heq
    exact .inl ⟨rfl, hnext⟩
  | addAtom ty value | addLink ty targets value =>
    obtain ⟨⟨id, changed⟩, hadd, heq⟩ := exists_of_map_eq_ok h
    obtain ⟨rfl, hnext⟩ := nextId_of_addLink hadd
    cases heq
    exact .inl ⟨rfl, hnext⟩
  | declareSubtype general specific =>
    obtain ⟨⟨id, changed⟩, hdeclare, heq⟩ := exists_of_map_eq_ok h
    obtain ⟨_, -, hdeclare⟩ := bind_eq_ok_iff.mp hdeclare
    obtain ⟨_, -, hdeclare⟩ := bind_eq_ok_iff.mp hdeclare
    obtain ⟨rfl, hnext⟩ := nextId_of_addLink hdeclare
    cases heq
    exact .inl ⟨rfl, hnext⟩
  | mapValueType kind ty | createPartIndex ty path ordered =>
    obtain ⟨changed, hchanged, heq⟩ := exists_of_map_eq_ok h
    obtain ⟨_, -, hchanged⟩ := bind_eq_ok_iff.mp hchanged
    cases hchanged
    cases heq
    exact .inr ⟨rfl, rfl⟩

/-- Atoms are numbered in the order in which they are stored, and nothing else takes a number. -/
theorem granted_ofStore (h : s.Reachable) (requests : List (Request β)) :
    granted (replies catalog (ofStore s) requests) =
      List.range' s.nextId (granted (replies catalog (ofStore s) requests)).length := by
  induction requests generalizing s with
  | nil => rfl
  | cons request rest ih =>
    cases request with
    | question ask => exact ih h
    | change change =>
      have hserve := @serve_change β s catalog h.consistent.1 change
      rcases henact : s.enact change with e | ⟨id, changed⟩
      · rw [henact] at hserve
        rw [replies, hserve]
        exact ih h
      · have hchanged : changed.Reachable := h.perform (by rw [Store.perform_eq_enact, henact]; rfl)
        rw [henact] at hserve
        rw [replies, hserve]
        rcases nextId_of_enact henact with ⟨rfl, hnext⟩ | ⟨rfl, hnext⟩
        · have hrest := ih hchanged
          rw [hnext] at hrest
          exact congrArg (s.nextId :: ·) hrest
        · have hrest := ih hchanged
          rw [hnext] at hrest
          exact hrest

/-! ### The main result -/

/-- Whatever is asked of a new graph: a change is refused exactly if there is an obstacle to it, which is the error. Then the
store and the counter are as before, and the other replies are those to the same requests without the change. The atoms that
changes return are `3, 4, 5, …`, and the store is the one that the changes lead to. -/
theorem refusals_leave_no_trace (catalog : Catalog) (requests : List (Request β)) :
    (∀ earlier change later e, requests = earlier ++ .change change :: later →
      ((replies catalog new requests)[earlier.length]? = some (.refused e) ↔
        (after catalog new earlier).store.obstacle change = some e) ∧
      ((replies catalog new requests)[earlier.length]? = some (.refused e) →
        after catalog new (earlier ++ [.change change]) = after catalog new earlier ∧
        replies catalog new (earlier ++ later) = (replies catalog new requests).eraseIdx earlier.length)) ∧
    (∀ k id, (granted (replies catalog new requests))[k]? = some id → id = k + 3) ∧
    (after catalog new requests).store = Store.afterChanges (changes requests) := by
  refine ⟨fun earlier change later e hrequests => ?_, fun k id hid => ?_, by rw [after_new]; rfl⟩
  · subst hrequests
    have hreach : (Store.afterChanges (changes earlier)).Reachable := Store.reachable_afterChanges _
    have hreply : (replies catalog new (earlier ++ .change change :: later))[earlier.length]? =
        some (serve catalog (after catalog new earlier) (.change change)).1 := by
      rw [replies_append, List.getElem?_append_right (Nat.le_of_eq length_replies), length_replies, Nat.sub_self]
      rfl
    rw [hreply, Option.some_inj, after_new]
    refine ⟨serve_refused_iff hreach, fun hrefused => ?_⟩
    -- what follows starts from the same store as without the change
    have hleft := serve_of_refused hreach hrefused
    constructor
    · rw [← hleft, ← @after_new β catalog]
      exact List.foldl_append
    · have herase : (replies catalog new (earlier ++ .change change :: later)).eraseIdx earlier.length =
          replies catalog new earlier ++
            replies catalog (serve (β := β) catalog (after catalog new earlier) (.change change)).2 later := by
        rw [replies_append, List.eraseIdx_append_of_length_le (Nat.le_of_eq length_replies), length_replies, Nat.sub_self]
        rfl
      rw [herase, replies_append, after_new, hleft]
  · rw [new_eq_ofStore, granted_ofStore .initial] at hid
    obtain ⟨hlt, rfl⟩ := List.getElem?_eq_some_iff.mp hid
    rw [List.getElem_range']
    show 3 + 1 * k = k + 3
    omega

/-- A link one of whose targets is not stored, between the definition of its type and an atom of that type. -/
theorem refusals_leave_no_trace_link :
    let catalog : Catalog := ⟨fun _ => ⟨"", .zero, fun _ _ => .ok true⟩, fun _ => ⟨"", fun _ id => .ok (some id)⟩⟩
    let earlier : List (Request Nat) := [.change (.defineType "Point" .point []), .question fun g => pure g.store.atomCount]
    let later : List (Request Nat) := [.change (.addAtom 3 (.int 5)), .question fun g => pure g.store.atomCount]
    let requests := earlier ++ .change (.addLink 3 [1, 9, 2] .null) :: later
    (replies catalog new requests)[2]? = some (.refused (.missingAtom 9)) ∧
      replies catalog new (earlier ++ later) = (replies catalog new requests).eraseIdx 2 ∧
      granted (replies catalog new requests) = [3, 4] := by
  intro catalog earlier later requests
  have htrace := refusals_leave_no_trace catalog requests
  have hrefused : (replies catalog new requests)[2]? = some (.refused (.missingAtom 9)) := rfl
  have hunnoticed := (htrace.1 earlier _ later (.missingAtom 9) rfl).2 hrefused
  exact ⟨hrefused, hunnoticed.2, rfl⟩

end LiveStore

end HyperQuery
