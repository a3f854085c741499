import Kompyle.CircuitStructure
import Kompyle.CountAgreement
import Kompyle.KlayReference
import Kompyle.CompileCnf
import Kompyle.GatedFormula
import Kompyle.KCircuit
import Kompyle.Materialise
import Kompyle.NameConsistency
import Kompyle.BcFile
import Kompyle.PostOrder
import Kompyle.CompileSdd
import Kompyle.FreeVariables
import Kompyle.GateSemantics
import Kompyle.CircuitLeaves
import Kompyle.GateElimination
import Kompyle.FieldCircuit
import Kompyle.CompileGanak
import Kompyle.ArjunGanak
import Kompyle.FieldRun
import Kompyle.GanakNumbering
import Kompyle.BcRoundTrip
import Kompyle.FieldLockstep
import Kompyle.LiteralCover
import Kompyle.LiteralTrail
import Kompyle.MaskProjection
import Kompyle.StdoutSilencer
import Kompyle.SddCircuit
import Kompyle.CountRules
import Kompyle.DeterministicCircuit
import Kompyle.MaskedDeterminism
import Kompyle.GateSession
import Kompyle.ArjunRun
import Kompyle.GanakPipeline
import Kompyle.GanakReference
import Kompyle.PipelineCount
import Kompyle.CnfFile
import Kompyle.CnfGates
import Kompyle.D4Count
import Kompyle.Descriptors
import Kompyle.FormulaRun
import Kompyle.PostOrderSteps
import Kompyle.BcEvaluation
import Kompyle.EquivalenceCheck
import Kompyle.FieldTests
import Kompyle.GateReference
import Kompyle.NodeReadings
import Kompyle.SharedCircuit
import Kompyle.GanakStructure
