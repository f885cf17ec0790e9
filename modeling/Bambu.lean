import Bambu.IRAnalysis.ConstdivMagic.Unsigned
import Bambu.IRAnalysis.ConstdivMagic.Signed
import Bambu.IRAnalysis.BitValue.Select
import Bambu.IRAnalysis.BitValue.Forward
import Bambu.Libbambu.Softint.Agreement
import Bambu.Algorithms.SdcSolver.Solver
import Bambu.Algorithms.RangeAnalysis.ConstraintGraph
import Bambu.Algorithms.RangeAnalysis.MultiWayIfSound
import Bambu.Libbambu.Softfloat.AddSub
import Bambu.Libbambu.Softfloat.Compare
import Bambu.Libbambu.Softfloat.IntRoundTrip
import Bambu.Libbambu.Softfloat.Ieee
import Bambu.HLS.MemorySize
import Bambu.Algorithms.RangeAnalysis.Rename
import Bambu.Algorithms.RangeAnalysis.Nuutila
import Bambu.Algorithms.CliqueCovering.BipartiteMatching
import Bambu.HLS.FalseLoop
import Bambu.Algorithms.CliqueCovering.GraphCovering
import Bambu.Utility.Range.BitwiseTight
import Bambu.Algorithms.SdcSolver.Resources
import Bambu.IRAnalysis.Constdivmul.Naf
import Bambu.IRAnalysis.Constdivmul.KcmConstmul
import Bambu.IRAnalysis.Constdivmul.MultHighpart
import Bambu.IRAnalysis.Constdivmul.SignedPow2
import Bambu.Utility.Range.BitValues
import Bambu.HLS.MemDominator.CommonDominator
import Bambu.HLS.MemDominator.OmpPages
import Bambu.Libbambu.Softfloat.Classify
import Bambu.IRAnalysis.BitValue.DontCare
import Bambu.Algorithms.RangeAnalysis.ValueSetExact
import Bambu.HLS.SlackPropagation
import Bambu.HLS.MuxEstimation
import Bambu.HLS.ChordalColoringRegister
import Bambu.Algorithms.CliqueCovering.WeightedClique
import Bambu.Algorithms.CliqueCovering.HeuristicColoring
import Bambu.Algorithms.CliqueCovering.MaxcliqueOptimal
import Bambu.Utility.MinBitwidth
import Bambu.Utility.MathFunction
import Bambu.Utility.StringContainer
import Bambu.Utility.NaturalVersionOrder
import Bambu.HLS.DagSssp
