import JitFrames.AccessError
import JitFrames.CodeRange
import JitFrames.TargetEvent
import JitFrames.Text.Quoted

/-! The log. An event is a fact about one operation: a span that it opens, or a message inside it. What a
source of memory or symbols may add of its own is a `Remark`, so no source can forge any other event. -/
namespace JitFrames

inductive Level
  | trace | debug | info | warn
  deriving DecidableEq, Repr

def Level.name : Level → String
  | .trace => "TRACE"
  | .debug => "DEBUG"
  | .info => "INFO"
  | .warn => "WARN"

inductive Remark
  | readRefused (addr : Addr) (reason : String)
  | symbolMissing (name : String)
  deriving DecidableEq, Repr

inductive Event
  | rangeReplaced (key : Addr) (old new : CodeRange)
  | rootMissing (symbol : String)
  | rootUnreadable (symbol : String) (error : AccessError)
  | contextNull
  | resolving (pc key : Addr)
  | nodeRead (node entryPoint codeEnd : Addr)
  | classified (range : CodeRange)
  | unwinding (unwinder : String)
  | registersRead (pc fp : Addr)
  | declined
  | unwound (range : CodeRange) (callerPc callerFp : Addr)
  | walking (pc fp : Addr) (limit : Nat)
  | callerFound (pc fp : Addr)
  | walkDone (frames : Nat)
  | resumed (kind : ResumeKind) (cached epoch : Nat)
  | stopped (epoch : Nat)
  | extensionReplaced (name : String)
  | installing (name : String) (priority : Int)
  | remark (r : Remark)
  deriving DecidableEq, Repr

inductive Heading
  | span (name : String)
  | message (text : String)
  | bare
  deriving DecidableEq, Repr

inductive FieldValue
  | int (n : Int)
  | text (s : String)
  deriving DecidableEq, Repr

namespace Event

def level : Event → Level
  | .rootUnreadable .. => .warn
  | .installing .. => .info
  | .resolving .. | .classified .. | .unwinding .. | .unwound .. | .walking .. | .walkDone ..
  | .resumed .. | .extensionReplaced .. => .debug
  | .rangeReplaced .. | .rootMissing .. | .contextNull | .nodeRead .. | .registersRead .. | .declined
  | .callerFound .. | .stopped .. | .remark _ => .trace

def heading : Event → Heading
  | .rangeReplaced .. => .message "replaced cached range"
  | .rootMissing _ => .message "no JIT context symbol"
  | .rootUnreadable .. => .message "JIT context unreadable"
  | .contextNull => .message "JIT context is null"
  | .resolving .. => .span "resolve"
  | .nodeRead .. => .bare
  | .classified _ => .message "classified"
  | .unwinding _ => .span "jit_unwind"
  | .registersRead .. => .bare
  | .declined => .message "not a JIT frame"
  | .unwound .. => .message "unwound JIT frame"
  | .walking .. => .span "walk_jit_frames"
  | .callerFound .. => .message "walk..."
  | .walkDone _ => .message "done walking"
  | .resumed .. => .message "target resumed, dropping cache"
  | .stopped _ => .message "target stopped"
  | .extensionReplaced _ => .message "replacing registered extension"
  | .installing .. => .message "installing JIT unwinder"
  | .remark (.readRefused ..) => .message "process_vm_readv failed"
  | .remark (.symbolMissing _) => .message "dlsym found nothing"

def fields : Event → List (String × FieldValue)
  | .rangeReplaced key old new =>
    [("key", .text key.text), ("old", .text old.label), ("new", .text new.label)]
  | .rootMissing symbol => [("symbol", .text symbol)]
  | .rootUnreadable symbol error => [("symbol", .text symbol), ("err", .text error.message)]
  | .contextNull => []
  | .resolving pc key => [("pc", .text pc.text), ("frame_key", .text key.text)]
  | .nodeRead node entryPoint codeEnd =>
    [("at", .text node.text), ("entry_point", .text entryPoint.text), ("code_end", .text codeEnd.text)]
  | .classified range => [("range", .text range.label)]
  | .unwinding unwinder => [("unwinder", .text unwinder)]
  | .registersRead pc fp => [("pc", .text pc.text), ("fp", .text fp.text)]
  | .declined => []
  | .unwound range callerPc callerFp =>
    [("range", .text range.label), ("caller_pc", .text callerPc.text), ("caller_fp", .text callerFp.text)]
  | .walking pc fp limit =>
    [("pc", .text pc.text), ("fp", .text fp.text), ("max_frames", .int limit)]
  | .callerFound pc fp => [("pc", .text pc.text), ("fp", .text fp.text)]
  | .walkDone frames => [("frames", .int frames)]
  | .resumed kind cached epoch =>
    [("kind", .text kind.name), ("cached", .int cached), ("epoch", .int epoch)]
  | .stopped epoch => [("epoch", .int epoch)]
  | .extensionReplaced name => [("name", .text name)]
  | .installing name priority => [("name", .text name), ("priority", .int priority)]
  | .remark (.readRefused addr reason) => [("addr", .text addr.text), ("reason", .text reason)]
  | .remark (.symbolMissing name) => [("name", .text (Quoted.encode name))]

end Event
end JitFrames
