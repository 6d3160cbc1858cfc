import JitFrames.Step

/-! Computations that ask along a plan, the accesses that are made if each is answered, and stop at the first
that fails. Which failures count is a parameter, since a computation may put up with some. -/
namespace JitFrames

/-- What is asked along a plan, and why it ends if it does before the plan is done. -/
inductive Follows (fails : Access → AccessError → Prop) : List Access → List Access → Option Halt → Prop
  | done : Follows fails [] [] none
  | endless (plan : List Access) : Follows fails plan [] (some .endless)
  | failed {a : Access} {e : AccessError} (rest : List Access) (h : fails a e) :
      Follows fails (a :: rest) [a] (some (.failed e))
  | next {a : Access} {rest asked : List Access} {halt : Option Halt} (answered : ∀ e, ¬ fails a e)
      (later : Follows fails rest asked halt) : Follows fails (a :: rest) (a :: asked) halt

namespace Follows

variable {fails : Access → AccessError → Prop} {plan plan' asked asked' : List Access} {halt : Option Halt}

theorem isPrefix (h : Follows fails plan asked halt) : asked <+: plan := by
  induction h with
  | done => exact List.prefix_rfl
  | endless => exact List.nil_prefix
  | failed => exact List.cons_prefix_cons.2 ⟨rfl, List.nil_prefix⟩
  | next _ _ ih => exact List.cons_prefix_cons.2 ⟨rfl, ih⟩

theorem eq_of_done (h : Follows fails plan asked none) : asked = plan := by
  generalize hn : (none : Option Halt) = halt at h
  induction h with
  | done => rfl
  | endless => cases hn
  | failed => cases hn
  | next _ _ ih => rw [ih hn]

theorem append (h : Follows fails plan asked none) (h' : Follows fails plan' asked' halt) :
    Follows fails (plan ++ plan') (asked ++ asked') halt := by
  generalize hn : (none : Option Halt) = halt' at h
  induction h with
  | done => exact h'
  | endless => cases hn
  | failed => cases hn
  | next answered _ ih => exact .next answered (ih hn)

theorem append_of_halt {reason : Halt} (h : Follows fails plan asked (some reason)) (plan' : List Access) :
    Follows fails (plan ++ plan') asked (some reason) := by
  generalize hs : some reason = halt at h
  induction h with
  | done => cases hs
  | endless plan => exact .endless _
  | failed rest hf => exact .failed _ hf
  | next answered _ ih => exact .next answered (ih hs)

/-- What is asked ends with an error exactly if an access has failed, and with the error of that access. -/
theorem failed_iff (h : Follows fails plan asked halt) (hone : ∀ a e e', fails a e → fails a e' → e = e')
    {e : AccessError} : halt = some (.failed e) ↔ ∃ a ∈ asked, fails a e := by
  induction h with
  | done => simp
  | endless => simp
  | @failed a e' rest hf =>
    simp only [Option.some.injEq, Halt.failed.injEq, List.mem_singleton, exists_eq_left]
    constructor
    · rintro rfl
      exact hf
    · exact hone a e' e hf
  | next answered _ ih => simp [ih, answered]

theorem eq_nil_of_failed (h : Follows fails plan asked halt) {before after : List Access} {a : Access}
    {e : AccessError} (hsplit : asked = before ++ a :: after) (ha : fails a e) : after = [] := by
  induction h generalizing before with
  | done => simp at hsplit
  | endless => simp at hsplit
  | failed rest hf =>
    have hl := congrArg List.length hsplit
    simp only [List.length_append, List.length_cons, List.length_nil] at hl
    exact List.eq_nil_of_length_eq_zero (by omega)
  | next answered _ ih =>
    cases before with
    | nil =>
      obtain ⟨rfl, -⟩ := List.cons.inj hsplit
      exact absurd ha (answered e)
    | cons b before => exact ih (List.cons.inj hsplit).2

end Follows

/-- Why there is no answer, if there is none. -/
def halt? {α : Type} : Except Halt α → Option Halt
  | .ok _ => none
  | .error h => some h

@[simp] theorem halt?_ok {α : Type} (a : α) : halt? (.ok a : Except Halt α) = none := rfl
@[simp] theorem halt?_error {α : Type} (h : Halt) : halt? (.error h : Except Halt α) = some h := rfl

theorem halt?_eq_some_iff {α : Type} {r : Except Halt α} {h : Halt} : halt? r = some h ↔ r = .error h := by
  cases r <;> simp

section Rules

variable (fails : Access → AccessError → Prop) {α β : Type}

def Query.AsksAlong (plan : List Access) (q : Query α) : Prop :=
  Follows fails plan q.run.accesses (halt? (Halt.ofAnswer q.run.value))

def Search.AsksAlong (plan : List Access) (x : Search α) : Prop :=
  Follows fails plan x.run.accesses (halt? x.run.value)

def Step.AsksAlong (plan : List Access) (s : Session) (x : Step α) : Prop :=
  Follows fails plan (x.on s).accesses (halt? (x.on s).value.1)

variable {fails} {plan plan' : List Access} {s : Session}

/-- A question along its own plan, where exactly the errors that it can be answered with count. -/
theorem Query.asksAlong_ask {a : Access} {answer : Except AccessError α} {remarks : List Remark}
    (h : ∀ e, answer = .error e ↔ fails a e) : AsksAlong fails [a] (.ask a answer remarks) := by
  unfold AsksAlong
  rw [accesses_ask, value_ask]
  cases answer with
  | error e => exact .failed [] ((h e).1 rfl)
  | ok b =>
    refine .next (fun e he => ?_) .done
    cases (h e).2 he

theorem Query.asksAlong_attempt {a : Access} (answer : Except AccessError α) {remarks : List Remark}
    (h : ∀ e, ¬ fails a e) : AsksAlong fails [a] (Query.ask a answer remarks).attempt := by
  unfold AsksAlong
  rw [run_attempt, Traced.accesses_map, accesses_ask]
  exact .next h .done

theorem Query.asksAlong_pure (a : α) : AsksAlong fails [] (pure a : Query α) := .done

theorem Query.asksAlong_log (e : Event) {x : Query α} (h : x.AsksAlong fails plan) :
    AsksAlong fails plan (do log e; x : Query α) := h

/-- A query asks on after an answer and stops at an error. -/
theorem Query.AsksAlong.bind {q : Query α} {f : α → Query β} (hq : q.AsksAlong fails plan)
    (hf : ∀ a, q.run.value = .ok a → (f a).AsksAlong fails plan') :
    AsksAlong fails (plan ++ plan') (q >>= f) := by
  unfold AsksAlong at *
  rw [ExceptT.run_bind, Traced.accesses_bind, Traced.value_bind]
  cases hv : q.run.value with
  | error e =>
    rw [hv] at hq
    simpa using hq.append_of_halt plan'
  | ok a =>
    rw [hv] at hq
    exact hq.append (hf a hv)

theorem Search.asksAlong_pure (a : α) : AsksAlong fails [] (pure a : Search α) := .done

theorem Search.asksAlong_log (e : Event) {x : Search α} (h : x.AsksAlong fails plan) :
    AsksAlong fails plan (do log e; x : Search α) := h

theorem Query.AsksAlong.bind_search {q : Query α} {f : α → Search β} (hq : q.AsksAlong fails plan)
    (hf : ∀ a, q.run.value = .ok a → (f a).AsksAlong fails plan') :
    Search.AsksAlong fails (plan ++ plan') (liftM q >>= f : Search β) := by
  unfold Search.AsksAlong
  unfold AsksAlong at hq
  rw [ExceptT.run_bind, run_liftQuery, Traced.accesses_bind, Traced.value_bind, Traced.accesses_map,
    Traced.value_map]
  cases hv : q.run.value with
  | error e =>
    rw [hv] at hq
    simpa using hq.append_of_halt plan'
  | ok a =>
    rw [hv] at hq
    exact hq.append (hf a hv)

theorem Step.asksAlong_pure (a : α) : AsksAlong fails [] s (pure a : Step α) := .done

theorem Step.asksAlong_log (e : Event) {x : Step α} (h : x.AsksAlong fails plan s) :
    AsksAlong fails plan s (do log e; x : Step α) := h

theorem Step.asksAlong_update {f : Session → Traced Session} (h : (f s).accesses = []) :
    AsksAlong fails [] s (update f) := by
  unfold AsksAlong
  rw [on_update, Traced.accesses_map, Traced.value_map, h]
  exact .done

theorem Step.AsksAlong.bind {x : Step α} {f : α → Step β} (hx : x.AsksAlong fails plan s)
    (hf : ∀ a t, (x.on s).value = (.ok a, t) → (f a).AsksAlong fails plan' t) :
    AsksAlong fails (plan ++ plan') s (x >>= f) := by
  unfold AsksAlong at *
  rw [on_bind, Traced.accesses_bind, Traced.value_bind]
  rcases hv : (x.on s).value with ⟨_ | a, t⟩
  · rw [hv] at hx
    simpa using hx.append_of_halt plan'
  · rw [hv] at hx
    exact hx.append (hf a t hv)

theorem Query.AsksAlong.bind_step {q : Query α} {f : α → Step β} (hq : q.AsksAlong fails plan)
    (hf : ∀ a, q.run.value = .ok a → (f a).AsksAlong fails plan' s) :
    Step.AsksAlong fails (plan ++ plan') s (liftM q >>= f : Step β) := by
  have hstep : Step.AsksAlong fails plan s (liftM q : Step α) := by
    unfold Step.AsksAlong
    rw [Step.on_query, Traced.accesses_map, Traced.value_map]
    exact hq
  refine hstep.bind fun a t h => ?_
  rw [Step.on_query, Traced.value_map] at h
  cases hv : q.run.value with
  | error e =>
    rw [hv] at h
    cases h
  | ok b =>
    rw [hv] at h
    cases h
    exact hf _ hv

theorem Search.AsksAlong.bind_step {x : Search α} {f : α → Step β} (hx : x.AsksAlong fails plan)
    (hf : ∀ a, (f a).AsksAlong fails plan' s) :
    Step.AsksAlong fails (plan ++ plan') s (liftM x >>= f : Step β) := by
  have hstep : Step.AsksAlong fails plan s (liftM x : Step α) := by
    unfold Step.AsksAlong
    rw [Step.on_search, Traced.accesses_map, Traced.value_map]
    exact hx
  refine hstep.bind fun a t h => ?_
  rw [Step.on_search, Traced.value_map] at h
  have ht : s = t := congrArg Prod.snd h
  exact ht ▸ hf a

end Rules

end JitFrames
