import RvEmu.MemoryBounds
import RvEmu.Foundation.WordMarks
import RvEmu.Step
import RvEmu.PageWalk
import RvEmu.PageTables
import RvEmu.ExecOutcome
import RvEmu.StepAnatomy
import RvEmu.PrivilegeLevels
import RvEmu.TrapReturn
import RvEmu.InterruptMasking
import RvEmu.Reservation
import RvEmu.Delegation
import RvEmu.Confinement
import RvEmu.PageIntegrity
import RvEmu.PageSecrecy
import RvEmu.PreciseTraps
import RvEmu.MemoryAgreement
import RvEmu.ReservationProgress
import RvEmu.Sv32
import RvEmu.HalfwordFetch
import RvEmu.NestedTraps
import RvEmu.WellFormed
import RvEmu.Foundation.BitFields
import RvEmu.InstructionSet
import RvEmu.BaseInstructions
import RvEmu.CompressedFormats
import RvEmu.CompressedMeaning
import RvEmu.Expansion
import RvEmu.CsrAccess
import RvEmu.DecodeCoverage
import RvEmu.Unimplemented
import RvEmu.RunSplitting
import RvEmu.FailureReports
import RvEmu.AccessedDirty
import RvEmu.WalkPath
import RvEmu.Elf
import RvEmu.ElfLoading
import RvEmu.LoadedImage
import RvEmu.ImageCorrectness
import RvEmu.FloatValues
import RvEmu.MinMax
import RvEmu.EncodingInverse
import RvEmu.Foundation.WideArithmetic
import RvEmu.MultiplyDivide
import RvEmu.CsrMatrix
import RvEmu.Foundation.ByteOverlay
import RvEmu.GuestMemory
import RvEmu.FloatFrame
import RvEmu.FloatToInt
import RvEmu.AtomicLoop
import RvEmu.Legality
import RvEmu.ReservedEncodings
import RvEmu.Disasm
import RvEmu.DisassemblerAgreement
import RvEmu.Debug
import RvEmu.DebuggerFetch
import RvEmu.Foundation.InsertionOrder
import RvEmu.Breakpoints
import RvEmu.AddressSpaces
import RvEmu.ProcessIsolation
import RvEmu.Preemption
import RvEmu.TimerLaw
import RvEmu.Comparisons
import RvEmu.Console
import RvEmu.CycleCounter
import RvEmu.AssembledCode
import RvEmu.AssembledPrograms
import RvEmu.GeneratedPrograms
import RvEmu.CommandLine
import RvEmu.DisassemblerText
import RvEmu.Listing
import RvEmu.PrintedFields
