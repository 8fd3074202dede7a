import CtRecomp.Timeline
import CtRecomp.Loop
import CtRecomp.Raster
import CtRecomp.SchedState
import CtRecomp.SchedAdvance
import CtRecomp.SchedWalk
import CtRecomp.Cpu
import CtRecomp.Dispatch
import CtRecomp.Interrupts
import CtRecomp.Lockstep
import CtRecomp.Bodies
import CtRecomp.TemplateAgree
import CtRecomp.SchedHooks
import CtRecomp.WalkKeeps
import CtRecomp.IrqLine
import CtRecomp.AccessClock
import CtRecomp.AdvanceEvents
import CtRecomp.AdvanceChunks
import CtRecomp.AdvanceCuts
import CtRecomp.Cycles
import CtRecomp.CycleTables
import CtRecomp.CycleAccesses
import CtRecomp.CycleEmitted
import CtRecomp.CycleAgree
import CtRecomp.ChargeRun
import CtRecomp.OverlayRun
import CtRecomp.OverlayLive
import CtRecomp.Raise
import CtRecomp.Decoder
import CtRecomp.Decoded
import CtRecomp.Registry
import CtRecomp.Marking
import CtRecomp.DecodedPaths
import CtRecomp.RegistryKept
import CtRecomp.Emit
import CtRecomp.EmitProgram
import CtRecomp.EmitHooks
import CtRecomp.HookFree
import CtRecomp.WaiRun
import CtRecomp.EdgeHook
import CtRecomp.AutoJoy
import CtRecomp.RdnmiClock
import CtRecomp.RdnmiFlag
import CtRecomp.AudioRing
import CtRecomp.OamPort
import CtRecomp.ApuPorts
import CtRecomp.Resample
import CtRecomp.Replay
import CtRecomp.ChangeList
import CtRecomp.ReplayComments
import CtRecomp.TasConvert
import CtRecomp.Decompress
import CtRecomp.DecompressEnds
import CtRecomp.OverlayLookup
import CtRecomp.CallsExtern
import CtRecomp.RegistryEnds
import CtRecomp.OverlayBytes
import CtRecomp.MemoSearch
import CtRecomp.Crc
import CtRecomp.Zlib
import CtRecomp.PngFormat
import CtRecomp.Png
import CtRecomp.RegRange
import CtRecomp.EmittedRange
import CtRecomp.StepBudget
import CtRecomp.BudgetRun
import CtRecomp.EmitFlow
import CtRecomp.Answers
import CtRecomp.Shrink
import CtRecomp.SyncSymbols
import CtRecomp.SyncKeeps
import CtRecomp.Discover
import CtRecomp.DiscoverCloses
import CtRecomp.NativeLookup
import CtRecomp.PauseRun
import CtRecomp.HdmaTable
import CtRecomp.EmittedProgram
import CtRecomp.KeyFilter
import CtRecomp.Profile
import CtRecomp.VramPort
