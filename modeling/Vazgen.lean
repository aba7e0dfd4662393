import Vazgen.Lib.Worklist
import Vazgen.Lib.Cut
import Vazgen.Lib.BestPrefix
import Vazgen.Lib.LinearProgram
import Vazgen.CodeGen.Selectors
import Vazgen.CodeGen.CallDirections
import Vazgen.CodeGen.GeneratedFiles
import Vazgen.CodeGen.ArrayTransfer
import Vazgen.Transforms.ProtoGeneratorPass
import Vazgen.CodeGen.CodeGenUtils
import Vazgen.ClangTools.FunctionFinder
import Vazgen.Analysis.Termination
import Vazgen.Analysis.Completeness
import Vazgen.Analysis.PartitionerSets
import Vazgen.Analysis.CallGraphWeights
import Vazgen.Analysis.AnnotationOrder
import Vazgen.Analysis.AnnotatedArguments
import Vazgen.Analysis.RelatedWeights
import Vazgen.Analysis.SaturatingNumbers
import Vazgen.Analysis.ContextSwitches
import Vazgen.Eval.AnnotationCreator
import Vazgen.Eval.AnnotatedRun
import Vazgen.Eval.ContextSwitchesEvalData
import Vazgen.Eval.ExecutedSwitches
import Vazgen.Eval.Intercept
import Vazgen.Optimization.StaleGlobals
import Vazgen.Eval.SecurityData
import Vazgen.Analysis.ProgramPartitionStatistics
import Vazgen.Utils.ModuleAnnotationParser
import Vazgen.Transforms.PartitionedProgram
import Vazgen.Optimization.EntryPoints
import Vazgen.Optimization.DuplicateFunctions
import Vazgen.Optimization.EdgeNames
import Vazgen.Transforms.SetterCalls
import Vazgen.Transforms.SetterTermination
