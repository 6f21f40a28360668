import ScoreWasm.Cli.Outline
import ScoreWasm.Flow.Outline
import ScoreWasm.Main
import ScoreWasm.SoftFloat.Outline
import ScoreWasm.Proofs.Flow.Correctness
import ScoreWasm.Proofs.SoftFloat.FromInteger
import ScoreWasm.Proofs.SoftFloat.Integral
import ScoreWasm.Proofs.SoftFloat.Meaning
import ScoreWasm.Proofs.SoftFloat.Truncation
import ScoreWasm.Proofs.Binary.IntegerGrammar
import ScoreWasm.Proofs.Data.Paths
import ScoreWasm.Proofs.Emit.Bounds
import ScoreWasm.Proofs.Pack.Activation
import ScoreWasm.Proofs.Pack.WideArithmetic
import ScoreWasm.Proofs.Wasm.TextForm
