import JitFrames.FrameCache

/-! What is known while the target stays stopped: the cache of classified frames and the number of resumes
seen. A resume of any kind empties the cache, because stack slots are used again and code may move. -/
namespace JitFrames

/-- The epoch counts without bound: a session that sees as many resumes as there are words is left out. -/
structure Session where
  cache : FrameCache := .empty
  epoch : Nat := 0

namespace Session

def text (s : Session) : String :=
  "Session \x7b cache: " ++ s.cache.text ++ ", epoch: " ++ toString s.epoch ++ " \x7d"

/-- Binds the frame key. -/
def classify (s : Session) (key : Addr) (range : CodeRange) : Traced Session :=
  (fun cache => { s with cache }) <$> s.cache.remember key range

def forget (s : Session) : Session := { s with cache := .empty }

def notify (s : Session) : TargetEvent → Traced Session
  | .resumed kind => do
    log (.resumed kind s.cache.size s.epoch)
    return { s.forget with epoch := s.epoch + 1 }
  | .stopped => do
    log (.stopped s.epoch)
    return s

/-- Notifications in the order in which they were queued. -/
def notifyAll (s : Session) (events : List TargetEvent) : Traced Session := events.foldlM notify s

@[simp] theorem value_classify (s : Session) (key : Addr) (range : CodeRange) :
    (s.classify key range).value = { s with cache := s.cache.insert key range } := by
  simp [classify]

@[simp] theorem value_notify_resumed (s : Session) (kind : ResumeKind) :
    (s.notify (.resumed kind)).value = ⟨.empty, s.epoch + 1⟩ := rfl

@[simp] theorem value_notify_stopped (s : Session) : (s.notify .stopped).value = s := rfl

@[simp] theorem notifyAll_nil (s : Session) : s.notifyAll [] = pure s := rfl

@[simp] theorem notifyAll_cons (s : Session) (e : TargetEvent) (es : List TargetEvent) :
    s.notifyAll (e :: es) = s.notify e >>= fun t => t.notifyAll es := List.foldlM_cons

end Session

end JitFrames
