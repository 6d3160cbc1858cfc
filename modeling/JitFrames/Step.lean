import JitFrames.Session

/-! Computations that follow the function list and change the session. A step is run on a session and gives
an outcome and the session it leaves; what a step has done stays done when it halts later. -/
namespace JitFrames

/-- Why there is no answer: an access failed, or the function list has no end. -/
inductive Halt
  | failed (error : AccessError)
  | endless
  deriving DecidableEq, Repr

/-- An answer of a query as an outcome. -/
def Halt.ofAnswer {α : Type} : Except AccessError α → Except Halt α
  | .ok a => .ok a
  | .error e => .error (.failed e)

/-- Reads from sources, and may find that the list it follows has no end. -/
abbrev Search := ExceptT Halt Traced

abbrev Step := ExceptT Halt (StateT Session Traced)

namespace Step

variable {α : Type}

def on (x : Step α) (s : Session) : Traced (Except Halt α × Session) := x.run.run s

def ofTraced (x : Traced α) : Step α := ExceptT.mk fun s => (fun a => (.ok a, s)) <$> x

def ofSearch (x : Search α) : Step α := ExceptT.mk fun s => (fun r => (r, s)) <$> x.run

/-- Replaces the session by the one that a session operation makes of it. -/
def update (f : Session → Traced Session) : Step Unit :=
  ExceptT.mk fun s => (fun t => (.ok (), t)) <$> f s

end Step

instance : MonadLift Query Search := ⟨fun q => ExceptT.mk (Halt.ofAnswer <$> q.run)⟩
instance : MonadLift Search Step := ⟨Step.ofSearch⟩
instance : MonadLift Traced Step := ⟨Step.ofTraced⟩

@[simp] theorem Halt.ofAnswer_ok {α : Type} (a : α) : Halt.ofAnswer (.ok a) = .ok a := rfl
@[simp] theorem Halt.ofAnswer_error {α : Type} (e : AccessError) :
    (Halt.ofAnswer (.error e) : Except Halt α) = .error (.failed e) := rfl

@[simp] theorem run_liftQuery {α : Type} (q : Query α) :
    (liftM q : Search α).run = Halt.ofAnswer <$> q.run := rfl

@[simp] theorem run_queryTraced {α : Type} (x : Traced α) : (liftM x : Query α).run = Except.ok <$> x := rfl

@[simp] theorem run_searchTraced {α : Type} (x : Traced α) : (liftM x : Search α).run = Except.ok <$> x :=
  Functor.map_map _ _ _

namespace Step

variable {α β : Type} (s : Session)

/-- How a step goes on from an outcome. -/
def resume (f : α → Step β) : Except Halt α × Session → Traced (Except Halt β × Session)
  | (.ok a, s) => (f a).on s
  | (.error h, s) => pure (.error h, s)

@[simp] theorem resume_ok (f : α → Step β) (a : α) : resume f (.ok a, s) = (f a).on s := rfl
@[simp] theorem resume_error (f : α → Step β) (h : Halt) :
    resume f (.error h, s) = pure (.error h, s) := rfl

@[simp] theorem on_pure (a : α) : (pure a : Step α).on s = pure (.ok a, s) := rfl

@[simp] theorem on_bind (x : Step α) (f : α → Step β) : (x >>= f).on s = x.on s >>= resume f := by
  have h : ∀ r, resume f r = (ExceptT.bindCont f r.1).run r.2 := by
    rintro ⟨_ | _, _⟩ <;> rfl
  rw [funext h]
  rfl

@[simp] theorem on_map (f : α → β) (x : Step α) :
    (f <$> x).on s = (fun r => (r.1.map f, r.2)) <$> x.on s := by
  rw [← bind_pure_comp, on_bind, ← bind_pure_comp]
  refine bind_congr fun r => ?_
  rcases r with ⟨_ | _, _⟩ <;> rfl

@[simp] theorem on_throw (h : Halt) : (throw h : Step α).on s = pure (.error h, s) := rfl
@[simp] theorem on_get : (get : Step Session).on s = pure (.ok s, s) := rfl
@[simp] theorem on_update (f : Session → Traced Session) :
    (update f).on s = (fun t => (.ok (), t)) <$> f s := rfl
@[simp] theorem on_traced (x : Traced α) : (liftM x : Step α).on s = (fun a => (.ok a, s)) <$> x := rfl
@[simp] theorem on_search (x : Search α) : (liftM x : Step α).on s = (fun r => (r, s)) <$> x.run := rfl
@[simp] theorem on_query (q : Query α) :
    (liftM q : Step α).on s = (fun r => (Halt.ofAnswer r, s)) <$> q.run :=
  Functor.map_map Halt.ofAnswer (fun r => (r, s)) q.run

theorem value_bind (x : Step α) (f : α → Step β) : ((x >>= f).on s).value =
    match (x.on s).value with
    | (.ok a, t) => ((f a).on t).value
    | (.error h, t) => (.error h, t) := by
  rw [on_bind, Traced.value_bind]
  rcases (x.on s).value with ⟨_ | _, _⟩ <;> rfl

theorem value_traced_bind (x : Traced α) (f : α → Step β) :
    ((liftM x >>= f : Step β).on s).value = ((f x.value).on s).value := by
  rw [value_bind, on_traced, Traced.value_map]

theorem value_query_bind (q : Query α) (f : α → Step β) : ((liftM q >>= f : Step β).on s).value =
    match q.run.value with
    | .ok a => ((f a).on s).value
    | .error e => (.error (.failed e), s) := by
  rw [value_bind, on_query, Traced.value_map]
  cases q.run.value <;> rfl

theorem snd_value_map (f : α → β) (x : Step α) : ((f <$> x).on s).value.2 = (x.on s).value.2 := by
  rw [on_map, Traced.value_map]

theorem snd_value_discard (x : Step α) : ((discard x).on s).value.2 = (x.on s).value.2 :=
  snd_value_map s (fun _ => ()) x

end Step
end JitFrames
