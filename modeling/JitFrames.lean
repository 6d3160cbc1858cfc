import JitFrames.Text.Hex
import JitFrames.Text.Quoted
import JitFrames.Text.Count
import JitFrames.Addr
import JitFrames.CodeRange
import JitFrames.AccessError
import JitFrames.Config
import JitFrames.TargetEvent
import JitFrames.FrameCache
import JitFrames.CallerState
import JitFrames.Event
import JitFrames.Trace
import JitFrames.Target
import JitFrames.Session
import JitFrames.Step
import JitFrames.FunctionChain
import JitFrames.Registry
import JitFrames.Unwinder
import JitFrames.Backtrace
import JitFrames.FrameFilter
import JitFrames.ExtensionTable
import JitFrames.Installation
import JitFrames.LittleEndian
import JitFrames.ProcessImage
import JitFrames.Block
import JitFrames.Recording
import JitFrames.Demo
import JitFrames.Main
import JitFrames.Proofs.ListRecords
import JitFrames.Proofs.FirstMatch
import JitFrames.Proofs.StoredWords
import JitFrames.Proofs.ListInMemory
import JitFrames.Proofs.UnwindStep
import JitFrames.Proofs.WalkSteps
import JitFrames.Proofs.SessionHistory
import JitFrames.Proofs.SessionIndependence
import JitFrames.Proofs.FrameLabels
import JitFrames.Proofs.UnclassifiedFrames
import JitFrames.Proofs.AccessPlan
import JitFrames.Proofs.AccessOrder
import JitFrames.Proofs.RegistrationOrder
import JitFrames.Proofs.InstalledPairs
import JitFrames.Proofs.RecoveredCaller
import JitFrames.Proofs.FailedSteps
import JitFrames.Proofs.WalkLimits
import JitFrames.Proofs.SearchEnds
import JitFrames.Proofs.UnreadableWords
import JitFrames.Proofs.ProcessWords
import JitFrames.Proofs.NestedFrames
import JitFrames.Proofs.RangeLabels
import JitFrames.Proofs.StepLog
import JitFrames.Proofs.TruthfulLog
import JitFrames.Proofs.CanonicalText
import JitFrames.Proofs.SavedRegisters
import JitFrames.Proofs.StoredBlocks
import JitFrames.Proofs.Demonstration
