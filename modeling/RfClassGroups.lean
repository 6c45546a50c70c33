import RfClassGroups.BatchTransport
import RfClassGroups.BenchIo
import RfClassGroups.CheckBatchOle
import RfClassGroups.CheckPolynomial
import RfClassGroups.CheckerModulus
import RfClassGroups.ClassGroup
import RfClassGroups.Config
import RfClassGroups.DirectOle3
import RfClassGroups.FormGroup
import RfClassGroups.FormScheme
import RfClassGroups.GenerateSets
import RfClassGroups.Genus
import RfClassGroups.HomomorphicEval
import RfClassGroups.Horner
import RfClassGroups.Interpolation
import RfClassGroups.Jsf
import RfClassGroups.Karatsuba
import RfClassGroups.KeyShift
import RfClassGroups.LagrangeAuto
import RfClassGroups.LagrangeDirect
import RfClassGroups.LagrangeLeaves
import RfClassGroups.LagrangeTree
import RfClassGroups.LaneAcceptor
import RfClassGroups.LaneAgreement
import RfClassGroups.LaneConnector
import RfClassGroups.LaneFailure
import RfClassGroups.LaneHandshake
import RfClassGroups.LaneMetadata
import RfClassGroups.LaneThreads
import RfClassGroups.Lanes
import RfClassGroups.LauncherCount
import RfClassGroups.Maul
import RfClassGroups.MaximalOrder
import RfClassGroups.Mpz
import RfClassGroups.MpzBits
import RfClassGroups.Network
import RfClassGroups.NtlBackend
import RfClassGroups.Ntt
import RfClassGroups.NttRoot
import RfClassGroups.NttStage
import RfClassGroups.NttTransform
import RfClassGroups.Nucomp
import RfClassGroups.Nupow
import RfClassGroups.NupowPrecomp
import RfClassGroups.Ope
import RfClassGroups.ParallelCall
import RfClassGroups.ParallelIo
import RfClassGroups.ParallelIoInv
import RfClassGroups.PartialEuclid
import RfClassGroups.PartyLog
import RfClassGroups.PolyBasic
import RfClassGroups.PolyEval
import RfClassGroups.PolyMul
import RfClassGroups.PoolTermination
import RfClassGroups.PowerOfF
import RfClassGroups.PrimeForm
import RfClassGroups.ProductTree
import RfClassGroups.Psi
import RfClassGroups.Psi2Reveal
import RfClassGroups.PsiBenchmark
import RfClassGroups.PsiPrivacy
import RfClassGroups.PsiRun
import RfClassGroups.PublicPoints
import RfClassGroups.Qfi
import RfClassGroups.RfOle
import RfClassGroups.RfOle3
import RfClassGroups.SampleSets
import RfClassGroups.Sanitise
import RfClassGroups.SetReader
import RfClassGroups.SqrtModPrime
import RfClassGroups.StandalonePipeline
import RfClassGroups.SubproductTree
import RfClassGroups.ThreadPool
import RfClassGroups.TimingLog
import RfClassGroups.WireFormat
import RfClassGroups.WireMessages
import RfClassGroups.Wnaf
import RfClassGroups.ZkProof
import RfClassGroups.Lib.Barycentric
import RfClassGroups.Lib.Bezout
import RfClassGroups.Lib.BigEndian
import RfClassGroups.Lib.BinaryForm
import RfClassGroups.Lib.Buffer
import RfClassGroups.Lib.ByteStream
import RfClassGroups.Lib.Chunk
import RfClassGroups.Lib.CoeffList
import RfClassGroups.Lib.Composition
import RfClassGroups.Lib.ConductorForm
import RfClassGroups.Lib.Dft
import RfClassGroups.Lib.ElGamal
import RfClassGroups.Lib.ExceptList
import RfClassGroups.Lib.Extension
import RfClassGroups.Lib.Fibers
import RfClassGroups.Lib.FifoNetwork
import RfClassGroups.Lib.FormClass
import RfClassGroups.Lib.GenusCharacter
import RfClassGroups.Lib.IdealClass
import RfClassGroups.Lib.KernelForm
import RfClassGroups.Lib.Loops
import RfClassGroups.Lib.MaskedHorner
import RfClassGroups.Lib.OrderExtension
import RfClassGroups.Lib.PairTree
import RfClassGroups.Lib.Proth
import RfClassGroups.Lib.Regex
import RfClassGroups.Lib.Runs
import RfClassGroups.Lib.SignedDigits
import RfClassGroups.Lib.TonelliShanks
import RfClassGroups.Lib.Traced
import RfClassGroups.Lib.WhileLoop
import RfClassGroups.Lib.Words
