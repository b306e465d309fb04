import HyperQuery.Proofs.Cursor.Draining
import HyperQuery.Proofs.Cursor.Verdicts

/-!
# Tests against a collected set

A test that collects a cursor does so for the first candidate, and again for the next one as long as that fails. So all
candidates are judged by what collecting answers (`Tester.judges_gather`): either all of them fail with its error, or each
is looked up in what has been collected. Collecting answers what draining the cursor does, unless that is more than the
limit allows for; repetitions count (`Tester.answer_gathered_of_drain`).
-/

namespace HyperQuery

variable {σ τ : Type}

/-- Collecting answers what draining does. -/
theorem Navigation.answer_collect {n : Navigation σ} {s : σ} : (n.collect s).1.answer = (n.drain s).1.answer := by
  rcases n.remaining.gives_or_fails s with ⟨⟨xs, e⟩, t, h⟩ | ⟨e, t, h⟩
  · cases e with
    | none =>
      have hcollect : n.collect.Gives s xs _ := h.bind (Move.Gives.update.bind .pure)
      have hdrain : n.drain.Gives s xs _ := h.bind .pure
      exact hcollect.1.trans hdrain.1.symm
    | some e =>
      have hcollect : n.collect.Fails s e _ := h.fails_bind (Move.Gives.update.fails_bind ⟨rfl, rfl⟩)
      have hdrain : n.drain.Fails s e _ := h.fails_bind ⟨rfl, rfl⟩
      exact hcollect.1.trans hdrain.1.symm
  · have hcollect : n.collect.Fails s e t := h.bind
    have hdrain : n.drain.Fails s e t := h.bind
    exact hcollect.1.trans hdrain.1.symm

namespace Tester

/-- The answers to the tests of candidates, one after the other. A test that fails is followed by the next one. -/
def verdicts (tests : Tester τ) : List AtomId → τ → List (Except QueryError Bool)
  | [], _ => []
  | x :: xs, t => (tests.test x t).1.answer :: verdicts tests xs (tests.test x t).2

variable {tests : Tester τ} {verdict : AtomId → Except QueryError Bool} {J : τ → Prop} {t : τ} {a : Access σ}
  {limit : Option Nat} {s : σ} {ids : List AtomId} {n : Nat}

theorem Judges.verdicts_eq (h : tests.Judges (fun _ => True) verdict J) (ht : J t) (xs : List AtomId) :
    tests.verdicts xs t = xs.map verdict := by
  induction xs generalizing t with
  | nil => rfl
  | cons x xs ih =>
    obtain ⟨hx, ht⟩ : (tests.test x t).1.answer = verdict x ∧ J (tests.test x t).2 := h trivial ht
    rw [verdicts, hx, ih ht, List.map_cons]

/-- All candidates are judged by what collecting the set answers. -/
theorem judges_gather : (gather a limit).Judges (fun _ => True)
    (fun x => (gathered a limit).answer.map fun ids => ids.contains x)
    (Prepared fun ids => (gathered a limit).answer = .ok ids) := by
  have hlookup {ids : List AtomId} {x : AtomId} {ids? : Option (List AtomId)}
      (hprepare : (prepare (gathered a limit)).Gives ids? () (some ids)) (hids : (gathered a limit).answer = .ok ids) :
      ((gather a limit).test x).Satisfies (fun r t =>
        r = (gathered a limit).answer.map (fun ids => ids.contains x) ∧
          Prepared (fun ids => (gathered a limit).answer = .ok ids) t) ids? := by
    have hlooked : ((gather a limit).test x).Gives ids? (ids.contains x) (some ids) := hprepare.bind ⟨rfl, rfl⟩
    exact hlooked.satisfies ⟨by rw [hids]; rfl, .ready hids⟩
  intro x t _ ht
  cases ht with
  | ready hids => exact hlookup ⟨rfl, rfl⟩ hids
  | notYet =>
    rcases hgathered : (gathered a limit).answer with e | ids
    · have hfails : ((gather a limit).test x).Fails none e none := (fails_prepare_none hgathered).bind
      exact hfails.satisfies ⟨rfl, .notYet⟩
    · exact hgathered ▸ hlookup (gives_prepare_none hgathered) hgathered

/-- A cursor that is drained to some handles is collected, unless there are more of them than the limit, repetitions
included. -/
theorem answer_gathered_of_drain (hs : a.start.answer = .ok s) (hdrain : (a.toNavigation.drain s).1.answer = .ok ids) :
    (gathered a (some n)).answer = if n < ids.length then .error (.oversizedSet ids.length n) else .ok ids := by
  unfold gathered
  rw [Metered.answer_bind_of_ok hs, Metered.answer_bind_of_ok (Navigation.answer_collect.trans hdrain)]
  by_cases h : n < ids.length
  · simp only [Option.any_some, h, decide_true, if_true]
    rfl
  · simp only [Option.any_some, h, decide_false, Bool.false_eq_true, if_false]
    rfl

/-- So the limit is compared with the number of handles that draining finds, repetitions included, for each candidate. -/
theorem verdicts_gather (hs : a.start.answer = .ok s) (hdrain : (a.toNavigation.drain s).1.answer = .ok ids)
    (xs : List AtomId) : (gather a (some n)).verdicts xs none = xs.map fun x =>
      if n < ids.length then .error (.oversizedSet ids.length n) else .ok (ids.contains x) := by
  rw [judges_gather.verdicts_eq .notYet, answer_gathered_of_drain hs hdrain]
  refine List.map_congr_left fun x _ => ?_
  split <;> rfl

end Tester

end HyperQuery
