import JitFrames.Event

/-! A computation with its trace: the value it gives and, in order, every question it put to a source and
every event it logged. Sources answer as pure functions, so a trace never changes a value. -/
namespace JitFrames

inductive Access
  | symbol (name : String)
  | word (addr : Addr) (width : Nat)
  | register (name : String)
  | frameWord (addr : Addr) (width : Nat)
  | listHead
  | listNode (addr : Addr)
  deriving DecidableEq, Repr

inductive Note
  | access (a : Access)
  | event (e : Event)
  deriving DecidableEq, Repr

def Note.access? : Note → Option Access
  | .access a => some a
  | .event _ => none

def Note.event? : Note → Option Event
  | .access _ => none
  | .event e => some e

structure Traced (α : Type) where
  value : α
  notes : List Note := []

namespace Traced

@[ext] theorem ext {α : Type} {x y : Traced α} (hv : x.value = y.value) (hn : x.notes = y.notes) :
    x = y := by cases x; cases y; simp_all

instance : Monad Traced where
  pure a := ⟨a, []⟩
  bind x f := ⟨(f x.value).value, x.notes ++ (f x.value).notes⟩

@[simp] theorem value_pure {α : Type} (a : α) : (pure a : Traced α).value = a := rfl
@[simp] theorem notes_pure {α : Type} (a : α) : (pure a : Traced α).notes = [] := rfl
@[simp] theorem value_bind {α β : Type} (x : Traced α) (f : α → Traced β) :
    (x >>= f).value = (f x.value).value := rfl
@[simp] theorem notes_bind {α β : Type} (x : Traced α) (f : α → Traced β) :
    (x >>= f).notes = x.notes ++ (f x.value).notes := rfl
@[simp] theorem value_map {α β : Type} (f : α → β) (x : Traced α) : (f <$> x).value = f x.value := rfl
@[simp] theorem notes_map {α β : Type} (f : α → β) (x : Traced α) : (f <$> x).notes = x.notes :=
  List.append_nil _

instance : LawfulMonad Traced := LawfulMonad.mk' _
  (fun x => by ext <;> simp)
  (fun a f => by ext <;> simp)
  (fun x f g => by ext <;> simp)

/-- Everything that was asked, in order, failures too. -/
def accesses {α : Type} (x : Traced α) : List Access := x.notes.filterMap Note.access?

def events {α : Type} (x : Traced α) : List Event := x.notes.filterMap Note.event?

@[simp] theorem accesses_pure {α : Type} (a : α) : (pure a : Traced α).accesses = [] := rfl
@[simp] theorem events_pure {α : Type} (a : α) : (pure a : Traced α).events = [] := rfl
@[simp] theorem accesses_bind {α β : Type} (x : Traced α) (f : α → Traced β) :
    (x >>= f).accesses = x.accesses ++ (f x.value).accesses := by simp [accesses]
@[simp] theorem events_bind {α β : Type} (x : Traced α) (f : α → Traced β) :
    (x >>= f).events = x.events ++ (f x.value).events := by simp [events]
@[simp] theorem accesses_map {α β : Type} (f : α → β) (x : Traced α) :
    (f <$> x).accesses = x.accesses := by simp [accesses]
@[simp] theorem events_map {α β : Type} (f : α → β) (x : Traced α) :
    (f <$> x).events = x.events := by simp [events]

end Traced

def log (e : Event) : Traced Unit := ⟨(), [.event e]⟩

@[simp] theorem notes_log (e : Event) : (log e).notes = [.event e] := rfl
@[simp] theorem accesses_log (e : Event) : (log e).accesses = [] := rfl
@[simp] theorem events_log (e : Event) : (log e).events = [e] := rfl

/-- A computation that reads from sources, and ends with the first answer that is an error. -/
abbrev Query := ExceptT AccessError Traced

namespace Query

/-- Puts one question to a source that gives this answer and makes these remarks on it. -/
def ask {α : Type} (a : Access) (answer : Except AccessError α) (remarks : List Remark) : Query α :=
  ExceptT.mk ⟨answer, .access a :: remarks.map fun r => .event (.remark r)⟩

/-- Gives an error as a value, so that the computation goes on after it. -/
def attempt {α : Type} (q : Query α) : Query (Except AccessError α) := ExceptT.mk (.ok <$> q.run)

@[simp] theorem run_attempt {α : Type} (q : Query α) : q.attempt.run = .ok <$> q.run := rfl

/-- A query goes on after an answer and stops at an error. -/
theorem value_bind {α β : Type} (q : Query α) (f : α → Query β) :
    (q >>= f).run.value = q.run.value >>= fun a => (f a).run.value := by
  rw [ExceptT.run_bind, Traced.value_bind]
  cases q.run.value <;> rfl

variable {α : Type} (a : Access) (answer : Except AccessError α) (remarks : List Remark)

@[simp] theorem value_ask : (ask a answer remarks).run.value = answer := rfl

@[simp] theorem accesses_ask : (ask a answer remarks).run.accesses = [a] := by
  simp [ask, ExceptT.run, ExceptT.mk, Traced.accesses, Note.access?, List.filterMap_map]

@[simp] theorem events_ask : (ask a answer remarks).run.events = remarks.map .remark := by
  simp only [ask, ExceptT.run, ExceptT.mk, Traced.events, List.filterMap_cons, Note.event?,
    List.filterMap_map]
  exact congrFun (@List.filterMap_eq_map _ _ Event.remark) remarks

end Query
end JitFrames
