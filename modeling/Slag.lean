import Slag.Lib.Float64
import Slag.Lib.AssocList
import Slag.Lib.Machine
import Slag.Lib.Backtrack
import Slag.Crux.StorageRun
import Slag.Regexp.Reference
import Slag.Regexp.Outcomes
import Slag.Regexp.Trail
import Slag.Regexp.Emission
import Slag.Regexp.Quantifier
import Slag.Regexp.FastPath
import Slag.Jit.Ir
import Slag.Jit.Verify
import Slag.Jit.VerifyExact
import Slag.Regexp.Agreement
import Slag.Regexp.Lockstep
import Slag.Regexp.LockstepRun
import Slag.Regexp.Memo
import Slag.Regexp.MemoSound
import Slag.Jit.Mem2reg
import Slag.Jit.Reaching
import Slag.Jit.Semantics
import Slag.Jit.Available
import Slag.Crux.Rope
import Slag.Crux.RopeLaw
import Slag.Crux.RopeRun
import Slag.Lib.LittleEndian
import Slag.V8.Clone
import Slag.V8.Malformed
import Slag.V8.Graph
import Slag.V8.Decode
import Slag.V8.Mirror
import Slag.V8.Containers
import Slag.V8.ReadBack
import Slag.V8.RoundTrip
import Slag.Regexp.FirstChar
import Slag.Regexp.Prefilter
import Slag.Regexp.WholeEngine
import Slag.Lib.Iteration
import Slag.Regexp.Coalesce
import Slag.Wasm.Module
import Slag.Wasm.Signature
import Slag.Wasm.Validate
import Slag.Wasm.Engine
import Slag.Lib.Returns
import Slag.Wasm.Levels
import Slag.Wasm.Nesting
import Slag.Lib.Leb128
import Slag.Wasm.Binary
import Slag.Wasm.Equivalence
import Slag.Wasm.Subtyping
import Slag.Wasm.FuncChecks
import Slag.Lib.Fallible
import Slag.Wasm.Linking
import Slag.Wasm.Parallel
import Slag.Wasm.ImportChecks
import Slag.Wasm.Segments
import Slag.Wasm.Bodies
import Slag.Wasm.Moves
import Slag.Wasm.Locals
import Slag.Wasm.Handlers
import Slag.Lib.SlotRuns
import Slag.Keyed.Collections
import Slag.Keyed.Refinement
import Slag.Keyed.SetMethods
import Slag.Promise.Agent
import Slag.Promise.Combinators
import Slag.Promise.CountsOnce
import Slag.Promise.Settling
import Slag.Temporal.Iso
import Slag.Temporal.IsoGrammar
import Slag.Temporal.IsoParts
import Slag.Temporal.IsoAnnotations
import Slag.Temporal.IsoExact
import Slag.Json.Grammar
import Slag.Json.Scan
import Slag.Json.Made
import Slag.Json.ParserExact
import Slag.Json.Stringify
import Slag.Json.Trees
import Slag.Json.Quote
import Slag.Json.RoundTrip
import Slag.Json.Exact
import Slag.Jit.Runs
import Slag.Jit.Cse
import Slag.Jit.CseSound
import Slag.Jit.Dce
import Slag.Jit.Fold
import Slag.Jit.Reshape
import Slag.Jit.FoldSound
import Slag.Jit.DceSound
import Slag.Jit.FoldDce
import Slag.Jit.Narrow
import Slag.Jit.NarrowFacts
import Slag.Jit.Operators
import Slag.Jit.Narrowed
import Slag.Jit.Evaluates
import Slag.Jit.NarrowTypes
import Slag.Crux.Interner
import Slag.V8.Header
import Slag.Regexp.CaptureFree
import Slag.Regexp.ClassStrings
import Slag.Lib.Moments
import Slag.Regexp.ChoicePoints
import Slag.Regexp.Bounds
import Slag.Lib.Utf16
import Slag.Regexp.Backreference
import Slag.Regexp.ClassParser
import Slag.Regexp.Pattern
import Slag.Regexp.Braces
import Slag.Regexp.DecimalEscapes
import Slag.Regexp.Escape
import Slag.Regexp.EscapeRoundTrip
import Slag.Crux.BigInt
import Slag.Crux.Convert
import Slag.Crux.IntegerLiteral
import Slag.Crux.BigIntWidths
import Slag.Crux.Float16
import Slag.Crux.BigU
import Slag.Crux.Dyadic
import Slag.Crux.NumberRounding
import Slag.Crux.RadixText
import Slag.Crux.RadixExact
import Slag.Crux.RoundTrip
import Slag.Lib.Settling
import Slag.Wasm.HostReachable
import Slag.Wasm.Bulk
import Slag.Wasm.BulkExact
import Slag.Wasm.ConstExpr
import Slag.Wasm.ConstEval
import Slag.Lib.Fields
import Slag.Wasm.Tokens
import Slag.Global.ParseInt
import Slag.Lib.Significand
import Slag.Temporal.TotalDuration
import Slag.Lib.FloatFloor
import Slag.Temporal.Epoch
import Slag.Temporal.Hebrew
import Slag.Temporal.IsoFormat
import Slag.Temporal.DurationText
import Slag.Temporal.DurationFormat
import Slag.Lib.Grid
import Slag.Temporal.Rounding
import Slag.Global.Uri
import Slag.Global.Escape
