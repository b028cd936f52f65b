import Libpeg.Charset
import Libpeg.Opcode
import Libpeg.Code
import Libpeg.CodeRoundTrip
import Libpeg.IntervalTree
import Libpeg.IntervalCells
import Libpeg.IntervalOps
import Libpeg.IntervalRefinement
import Libpeg.IntervalHandles
import Libpeg.Memo
import Libpeg.MemoView
import Libpeg.Forest
import Libpeg.Input
import Libpeg.Vm
import Libpeg.Pattern
import Libpeg.Compile
import Libpeg.Peg
import Libpeg.AbstractVm
import Libpeg.Simulation
import Libpeg.StepSimulation
import Libpeg.Positions
import Libpeg.RunSimulation
import Libpeg.Relocation
import Libpeg.Control
import Libpeg.Optimize
import Libpeg.Semantics
import Libpeg.Simplify
import Libpeg.Session
import Libpeg.Anchoring
import Libpeg.Survival
import Libpeg.ControlMachine
import Libpeg.RefCount
import Libpeg.Ownership
import Libpeg.ReferenceCounts
import Libpeg.GrammarCompile
import Libpeg.CompileTotal
import Libpeg.ControlSimulation
import Libpeg.Extents
import Libpeg.Window
import Libpeg.IntervalBalance
import Libpeg.IntervalLocations
import Libpeg.IntervalMaxima
import Libpeg.IntervalTies
import Libpeg.SwapRemove
import Libpeg.Lookup
import Libpeg.MemoIds
import Libpeg.CodeShape
import Libpeg.Coarsening
import Libpeg.TreeMerge
import Libpeg.Linking
import Libpeg.Operands
import Libpeg.Denotation
import Libpeg.Scoping
import Libpeg.Reading
import Libpeg.ListMachine
import Libpeg.TailCalls
import Libpeg.Fragments
import Libpeg.Grammars
import Libpeg.CaptureViews
import Libpeg.ChunkedInput
import Libpeg.HeapInlining
import Libpeg.IntervalRebalance
import Libpeg.RankedGraph
import Libpeg.PatternHeap
import Libpeg.CompileReturns
import Libpeg.Prettify
import Libpeg.HeapReading
import Libpeg.InliningRefinement
import Libpeg.Searching
import Libpeg.CompileFragments
import Libpeg.Addresses
import Libpeg.ProgramRuns
import Libpeg.ListResults
import Libpeg.CaptureIds
import Libpeg.CompilerCorrectness
import Libpeg.SearchCorrectness
import Libpeg.Buffer
import Libpeg.IntervalFree
import Libpeg.IntervalVerify
import Libpeg.PrettifyReading
import Libpeg.StackTyping
import Libpeg.CompileTyping
import Libpeg.StackDiscipline
import Libpeg.Bytes
import Libpeg.ProgramTyping
import Libpeg.PlainMachine
import Libpeg.PlainSimulation
import Libpeg.MemoSoundness
import Libpeg.Transparency
import Libpeg.WindowedRuns
