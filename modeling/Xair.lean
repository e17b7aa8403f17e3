import Xair.Canonicalize
import Xair.Exec
import Xair.Steps
import Xair.Invariant
import Xair.OpValue
import Xair.Reference
import Xair.Simulation
import Xair.ExecRef
import Xair.Renaming
import Xair.Positions
import Xair.Liveness
import Xair.Numbering
import Xair.Compact
import Xair.LocalPass
import Xair.Reachable
import Xair.StaleValues
import Xair.Soundness
import Xair.FoldSound
import Xair.LocalSound
import Xair.Threading
import Xair.DeadValues
import Xair.Entry
import Xair.CanonicalRuns
import Xair.LinearProbe
import Xair.HashCons
import Xair.PlainBuilder
import Xair.Tracks
import Xair.NumberedRuns
import Xair.ConstPool
import Xair.KeyOrder
import Xair.OperandOrder
import Xair.LocalFixpoint
import Xair.FlatMemory
import Xair.X86RoundTrip
import Xair.X86Accepts
import Xair.X86Local
import Xair.BinaryRead
import Xair.WordMemory
import Xair.AddressSpace
import Xair.Draft
import Xair.X86Stream
import Xair.LiftSteps
import Xair.Denotation
import Xair.LiftMeaning
import Xair.LiftSpec
import Xair.LiftBlock
import Xair.LiftVerified
import Xair.BlockRun
import Xair.LiftRuns
import Xair.LiftExecutes
import Xair.ThreadedRun
import Xair.LiftSimulates
import Xair.StackMachine
import Xair.StackValues
import Xair.StackLift
import Xair.LiftLedger
import Xair.LiftRecord
import Xair.LiftProgress
import Xair.LiftInterface
import Xair.LiftPrefix
import Xair.NarrowWord
import Xair.ScalarExact
import Xair.FlagsExact
import Xair.Shifts
import Xair.ShiftRanges
import Xair.Resume
import Xair.MemoryVersions
import Xair.VersionedRuns
import Xair.Format
import Xair.Fingerprint
import Xair.Vex
import Xair.VexBindings
import Xair.VexReach
import Xair.VexRuns
import Xair.VexFailures
import Xair.VexNames
import Xair.FailedCalls
import Xair.IdOrder
import Xair.Idempotence
import Xair.PartialRun
import Xair.Closing
import Xair.VexSession
import Xair.VexVerified
import Xair.Settles
import Xair.Evaluation
import Xair.Carried
import Xair.MemoryKept
import Xair.LiftCanonical
import Xair.Metrics
import Xair.AcyclicRun
import Xair.LoopFree
import Xair.VexMachine
import Xair.VexWritten
import Xair.VexFollows
import Xair.VexCalls
import Xair.VexExits
import Xair.VexSimulates
import Xair.CText
import Xair.CaseFile
import Xair.CaseFileText
import Xair.CaseRun
import Xair.CasePrepare
import Xair.CaseSimulates
import Xair.LiftCalls
import Xair.KeptCode
