import Dynarec.Body
import Dynarec.Body.Emission
import Dynarec.Body.Generate
import Dynarec.Body.Verify
import Dynarec.Cache
import Dynarec.CodeMap
import Dynarec.Compiler
import Dynarec.Dataflow
import Dynarec.Dispatcher
import Dynarec.Element
import Dynarec.Fragment
import Dynarec.Graph
import Dynarec.Instruction
import Dynarec.Interpreter
import Dynarec.Machine
import Dynarec.Microcode
import Dynarec.Mode
import Dynarec.Monitor
import Dynarec.Outcome
import Dynarec.Procedure
import Dynarec.Processor
import Dynarec.Proofs.ArithmeticFlags
import Dynarec.Proofs.BoundaryPositions
import Dynarec.Proofs.BoundarySnapshots
import Dynarec.Proofs.BuilderSteps
import Dynarec.Proofs.CacheSoundness
import Dynarec.Proofs.CacheStatistics
import Dynarec.Proofs.CodeSearch
import Dynarec.Proofs.CommitOrder
import Dynarec.Proofs.CommittedState
import Dynarec.Proofs.CompiledRuns
import Dynarec.Proofs.CompilerCorrectness
import Dynarec.Proofs.DataflowEvaluation
import Dynarec.Proofs.DataflowShape
import Dynarec.Proofs.DefinedElements
import Dynarec.Proofs.DemandCounts
import Dynarec.Proofs.DispatcherRecords
import Dynarec.Proofs.DispatcherRefinement
import Dynarec.Proofs.EmissionBudget
import Dynarec.Proofs.EmissionExecution
import Dynarec.Proofs.EmissionRelation
import Dynarec.Proofs.EmissionSuccess
import Dynarec.Proofs.EvaluationTrace
import Dynarec.Proofs.FaultRouting
import Dynarec.Proofs.FirstWriter
import Dynarec.Proofs.FlagBits
import Dynarec.Proofs.FragmentPurity
import Dynarec.Proofs.GeneratedExecution
import Dynarec.Proofs.GeneratedLayout
import Dynarec.Proofs.GeneratedNames
import Dynarec.Proofs.GeneratedVerifies
import Dynarec.Proofs.GraphAcceptance
import Dynarec.Proofs.GraphInvariant
import Dynarec.Proofs.HandlerRelation
import Dynarec.Proofs.HandlerSize
import Dynarec.Proofs.HandlerTable
import Dynarec.Proofs.InstructionEnds
import Dynarec.Proofs.InstructionPointer
import Dynarec.Proofs.InterpreterAgreement
import Dynarec.Proofs.MainCodeLength
import Dynarec.Proofs.MemoryBytes
import Dynarec.Proofs.PreciseFaults
import Dynarec.Proofs.Privilege
import Dynarec.Proofs.ProgramOrder
import Dynarec.Proofs.RegionMemory
import Dynarec.Proofs.RelocatedWalks
import Dynarec.Proofs.RememberedBlocks
import Dynarec.Proofs.RuleFlags
import Dynarec.Proofs.RunIdentity
import Dynarec.Proofs.RunParsing
import Dynarec.Proofs.RunShape
import Dynarec.Proofs.RunSplitting
import Dynarec.Proofs.SlotDiscipline
import Dynarec.Proofs.StackDepth
import Dynarec.Proofs.StackEffects
import Dynarec.Proofs.TapeReplay
import Dynarec.Proofs.TraceIndices
import Dynarec.Proofs.TreeSizes
import Dynarec.Proofs.VerifierSoundness
import Dynarec.Region
import Dynarec.Rule
import Dynarec.Run
import Dynarec.Table
import Dynarec.Trace
