import Mavros.Spread
import Mavros.R1CGen.SealSpec
import Mavros.R1CGen.Soundness
import Mavros.R1CGen.Scope
import Mavros.VM.HeapSpec
import Mavros.VM.Gradient
import Mavros.VM.Tables
import Mavros.VM.Phase2Spec
import Mavros.VM.WitgenRows
import Mavros.VM.DerivativeSim
import Mavros.VM.Ownership
import Mavros.Hlssa.TypeJoin
import Mavros.Passes.PreparedResults
import Mavros.Passes.PropagatedConditions
import Mavros.Codegen.Evaluators
import Mavros.Passes.Simplified
import Mavros.Lowering.UnsignedArith
import Mavros.Lowering.SignedArith
import Mavros.Lowering.SignedDivision
import Mavros.Lowering.Bitwise
import Mavros.Lowering.FieldBitRange
import Mavros.Llssa.LookupsAgree
import Mavros.Lowering.Compare
import Mavros.Lowering.Radix
import Mavros.Lowering.RangeCheck
import Mavros.Lowering.SpreadFlag
import Mavros.VM.LookupPlaces
import Mavros.Passes.DeadCode
import Mavros.Frontend.Assign
import Mavros.Frontend.AssignRun
import Mavros.Lowering.Elements
import Mavros.Lowering.ArrayRead
import Mavros.Lowering.ArrayWrite
import Mavros.Lowering.PureGuards
import Mavros.VM.ArrayContents
import Mavros.Stdlib.Sha256
import Mavros.Lowering.AssertOps
import Mavros.Passes.SimplifiedAsserts
import Mavros.Passes.ReconstructedParams
import Mavros.Codegen.JumpMoves
import Mavros.Frontend.Cast
import Mavros.Analysis.DominanceQueries
import Mavros.VM.BytecodeRoundTrip
import Mavros.Passes.JumpThreading
import Mavros.R1CGen.NormalForm
import Mavros.Codegen.SpreadAgree
import Mavros.Llssa.Operands
import Mavros.PassManager
import Mavros.Analysis.Liveness
