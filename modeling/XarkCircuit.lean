import XarkCircuit.Lib.Instances
import XarkCircuit.Lib.SparseForm
import XarkCircuit.Lib.Elimination
import XarkCircuit.Lib.Outcome
import XarkCircuit.Ir.LinearCombination
import XarkCircuit.Ir.R1cs
import XarkCircuit.Ir.Primitive
import XarkCircuit.Minimize.Model
import XarkCircuit.Minimize.Forms
import XarkCircuit.Minimize.Sound
import XarkCircuit.Solve.Hint
import XarkCircuit.Decode.Subst
import XarkCircuit.Decode.Expand
import XarkCircuit.Decode.Eval
import XarkCircuit.Decode.EvalSound
import XarkCircuit.Solve.Input
import XarkCircuit.Solve.Compiled
import XarkCircuit.Solve.Frames
import XarkCircuit.Solve.Escapes
import XarkCircuit.Solve.Sound
import XarkCircuit.Decode.Container
import XarkCircuit.Decode.Reduce
import XarkCircuit.Decode.Meaning
import XarkCircuit.Decode.ReduceSound
import XarkCircuit.Decode.ReduceCircuit
import XarkCircuit.Analyze.UnderConstrained
import XarkCircuit.Analyze.StreamSound
import XarkCircuit.Lib.Codec
import XarkCircuit.Bytecode.Wire
import XarkCircuit.Bytecode.WireSound
import XarkCircuit.Bytecode.Roll
import XarkCircuit.Bytecode.Fold
import XarkCircuit.Bytecode.RollSound
import XarkCircuit.Bytecode.ItemWire
import XarkCircuit.Decode.Blob
import XarkCircuit.Decode.Total
import XarkCircuit.Decode.Strict
import XarkCircuit.Lib.Dft
import XarkCircuit.Groth16.Qap
import XarkCircuit.Groth16.Setup
import XarkCircuit.Groth16.Prove
import XarkCircuit.Groth16.QapSound
import XarkCircuit.Groth16.SetupSound
import XarkCircuit.Groth16.Complete
import XarkCircuit.Schema.Json
import XarkCircuit.Schema.Packing
import XarkCircuit.Schema.Names
import XarkCircuit.Schema.Describe
import XarkCircuit.Schema.Read
import XarkCircuit.Schema.Agree
import XarkCircuit.Schema.GivenOnce
import XarkCircuit.Lib.Window
import XarkCircuit.Lib.SquareRoot
import XarkCircuit.Lib.SquareForm
import XarkCircuit.Search.State
import XarkCircuit.Search.Moves
import XarkCircuit.Search.Process
import XarkCircuit.Search.LinearSound
import XarkCircuit.Search.SquareSound
import XarkCircuit.Search.ProcessSound
import XarkCircuit.Search.Dfs
import XarkCircuit.Search.DfsSound
import XarkCircuit.Search.Verdict
import XarkCircuit.Ir.LinearArith
import XarkCircuit.Frontend.Builder
import XarkCircuit.Verifier.ScalarOrder
import XarkCircuit.Verifier.Wire
import XarkCircuit.Verifier.Bytes
import XarkCircuit.Lib.WeightedSum
import XarkCircuit.Verifier.Curve
import XarkCircuit.Verifier.Batch
import XarkCircuit.Verifier.BatchSound
import XarkCircuit.Verifier.Export
import XarkCircuit.Verifier.Agree
import XarkCircuit.Ceremony.Chain
import XarkCircuit.Ceremony.Sound
import XarkCircuit.Ceremony.Proofs
import XarkCircuit.Schema.Encode
import XarkCircuit.Schema.Paths
import XarkCircuit.Schema.Leaves
import XarkCircuit.Schema.Pack
import XarkCircuit.Groth16.Streaming
import XarkCircuit.Groth16.KeyFormat
import XarkCircuit.Groth16.Push
import XarkCircuit.Groth16.PushSound
import XarkCircuit.Analyze.Exact
import XarkCircuit.Minimize.Fixpoint
import XarkCircuit.Lib.Schedule
import XarkCircuit.Solve.Parallel
import XarkCircuit.Lib.PosReader
import XarkCircuit.RowFile.Parse
import XarkCircuit.RowFile.Safe
import XarkCircuit.RowFile.Encode
import XarkCircuit.RowFile.ReadBack
import XarkCircuit.RowFile.RoundTrip
import XarkCircuit.Digest.Stream
import XarkCircuit.Digest.Injective
import XarkCircuit.Decode.ToPrimitive
import XarkCircuit.Lib.Succeeds
import XarkCircuit.Lib.ByteMemory
import XarkCircuit.Memory.Symbols
import XarkCircuit.Memory.Table
import XarkCircuit.Memory.Assemble
import XarkCircuit.Memory.Machine
import XarkCircuit.Memory.Shadow
import XarkCircuit.Memory.Store
import XarkCircuit.Memory.Copy
import XarkCircuit.Memory.Run
import XarkCircuit.Schema.Impls
import XarkCircuit.Schema.Coded
import XarkCircuit.Schema.Writes
import XarkCircuit.Schema.Reads
import XarkCircuit.Schema.PackRoundTrip
import XarkCircuit.Time.Calendar
import XarkCircuit.Lib.Text
import XarkCircuit.Time.Text
import XarkCircuit.Time.TextSound
import XarkCircuit.Time.Range
import XarkCircuit.Lib.Bits
import XarkCircuit.Lang.Choice
import XarkCircuit.Groth16.Points
import XarkCircuit.Lib.ComplexRoot
import XarkCircuit.Groth16.PointsSound
import XarkCircuit.Groth16.PointsSound
import XarkCircuit.Groth16.Compressed
import XarkCircuit.Groth16.Compressed
import XarkCircuit.Lib.SignedDigits
import XarkCircuit.Lib.BatchInverse
import XarkCircuit.Lib.ShortWeierstrass
import XarkCircuit.Groth16.FixedBase
import XarkCircuit.Groth16.FixedBaseSound
import XarkCircuit.Groth16.FixedBaseSound
import XarkCircuit.Groth16.Msm
import XarkCircuit.Groth16.Buckets
import XarkCircuit.Groth16.MsmSound
import XarkCircuit.Groth16.MsmExact
import XarkCircuit.Groth16.MsmWhole
import XarkCircuit.Groth16.Ptau
import XarkCircuit.Groth16.PtauSound
import XarkCircuit.Groth16.PtauExact
import XarkCircuit.Groth16.Fft
import XarkCircuit.Groth16.FftSound
import XarkCircuit.Groth16.FourStep
import XarkCircuit.Groth16.FftExact
import XarkCircuit.Ir.FieldConst
import XarkCircuit.Frontend.MergeLc
import XarkCircuit.Lib.GramMinor
import XarkCircuit.Solve.Lll
import XarkCircuit.Solve.LllReduced
import XarkCircuit.Lib.Limbs
import XarkCircuit.Lang.FieldText
import XarkCircuit.Lang.TextReaders
import XarkCircuit.Lang.TextAgree
import XarkCircuit.Lib.Emission
import XarkCircuit.Frontend.BuilderSat
import XarkCircuit.Lib.ZModBits
import XarkCircuit.Frontend.BuilderRows
import XarkCircuit.Frontend.BuilderBits
import XarkCircuit.Frontend.BuilderOps
import XarkCircuit.Frontend.Finish
import XarkCircuit.Frontend.Host
import XarkCircuit.Frontend.KnownBits
import XarkCircuit.Frontend.HostArms
import XarkCircuit.Frontend.HostBits
import XarkCircuit.Frontend.HostSound
import XarkCircuit.Frontend.Integer
import XarkCircuit.Frontend.IntegerBounds
import XarkCircuit.Frontend.IntegerSound
import XarkCircuit.Frontend.IntegerOps
import XarkCircuit.Frontend.IntegerBin
import XarkCircuit.Frontend.IntegerCmp
import XarkCircuit.Frontend.Session
import XarkCircuit.Frontend.SessionSound
import XarkCircuit.Frontend.Circuit
