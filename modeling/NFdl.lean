import NFdl.Bytecode.Run
import NFdl.Bytecode.Resume
import NFdl.Runtime.Eval
import NFdl.Lib.Code
import NFdl.Runtime.EmitExpr
import NFdl.Runtime.EmitExprCorrect
import NFdl.Runtime.Emit
import NFdl.Bytecode.Cursor
import NFdl.Runtime.Runner
import NFdl.Runtime.EmitCode
import NFdl.Bytecode.Control
import NFdl.Runtime.LoopLimit
import NFdl.Lib.Assign
import NFdl.Lib.Stretch
import NFdl.Runtime.EmitExprPass
import NFdl.Runtime.CarryFold
import NFdl.Runtime.CarryTable
import NFdl.Runtime.LoopCode
import NFdl.Runtime.Carries
import NFdl.Runtime.CarryRun
import NFdl.Adgl.Ir
import NFdl.Lib.SortedMap
import NFdl.Adgl.Accepted
import NFdl.Adgl.Binding
import NFdl.Adgl.Meaning
import NFdl.Adgl.PredicateCorrect
import NFdl.Adgl.PredicateSound
import NFdl.Adgl.TypeSound
import NFdl.Lib.BeBytes
import NFdl.Lib.Inputs
import NFdl.Runtime.Arithmetic
import NFdl.Runtime.Efsm
import NFdl.Runtime.EfsmDeclared
import NFdl.Runtime.EfsmIndependent
import NFdl.Runtime.Reassembly
import NFdl.Runtime.ReassemblyCover
import NFdl.Runtime.ContextExact
import NFdl.Adgl.Correlate
import NFdl.Adgl.Effects
import NFdl.Adgl.Names
import NFdl.Adgl.Pipeline
import NFdl.Adgl.Resumption
import NFdl.Adgl.Statements
import NFdl.Adgl.Targets
import NFdl.Adgl.Windows
import NFdl.Adgl.Closed
import NFdl.Adgl.Reports
import NFdl.Adgl.Retention
import NFdl.Adgl.LateEvidence
import NFdl.Adgl.Deduplication
import NFdl.Adgl.RollUps
import NFdl.Adgl.Supporting
import NFdl.Lib.Structured
import NFdl.Runtime.Layout
import NFdl.Runtime.LayoutExact
import NFdl.Runtime.SlotRange
import NFdl.Runtime.WellFormed
import NFdl.Adgl.Conservation
import NFdl.Adgl.Firings
import NFdl.Adgl.Nodes
import NFdl.Runtime.BoundNames
import NFdl.Runtime.MatchChoice
import NFdl.Bytecode.Budget
import NFdl.Bytecode.Modes
import NFdl.Runtime.EntryPoints
import NFdl.Adgl.HashOrder
import NFdl.Adgl.OrderFree
import NFdl.Adgl.Snapshot
import NFdl.Adgl.Ambiguities
import NFdl.Adgl.LiveWatermark
import NFdl.Lib.Text
import NFdl.Runtime.EfsmSessions
import NFdl.Verify.Intervals
import NFdl.Verify.IntervalsSound
import NFdl.Adgl.Privacy
import NFdl.Lib.Postorder
import NFdl.Adgl.Include
import NFdl.Adgl.IncludeExact
import NFdl.Lib.Parsing
import NFdl.Lib.Precedence
import NFdl.Syntax.ExprFormat
import NFdl.Syntax.ExprLadder
import NFdl.Syntax.ExprPrinted
import NFdl.Syntax.ExprReadBack
import NFdl.Syntax.ExprRoundTrip
import NFdl.Adgl.Accumulation
import NFdl.Adgl.Cooldown
import NFdl.Adgl.Correlates
import NFdl.Adgl.Rings
import NFdl.Adgl.Topology
import NFdl.Adgl.Waiting
import NFdl.Bytecode.Overrun
import NFdl.Runtime.LaterWrites
import NFdl.Runtime.Skipped
import NFdl.Lib.Passage
import NFdl.Runtime.Descent
import NFdl.Runtime.DescentBodies
import NFdl.Runtime.DescentRun
import NFdl.Adgl.RuleCycles
import NFdl.Bytecode.BitReads
import NFdl.Clippy.UnusedMessages
import NFdl.Lib.Recovery
import NFdl.Lib.Utf8
import NFdl.Plugin.DnsDecompress
import NFdl.Plugin.DnsNames
import NFdl.Syntax.Parser
import NFdl.Syntax.ParserBounds
import NFdl.Syntax.ParserModes
import NFdl.Adgl.Annotations
import NFdl.Verify.Overflow
import NFdl.Lib.OneShot
import NFdl.Runtime.EfsmTimers
import NFdl.Adgl.Numerals
import NFdl.Adgl.WindowArithmetic
import NFdl.Adgl.RuleIndex
import NFdl.Clippy.RedundantValidates
import NFdl.Adgl.ExprParser
import NFdl.Adgl.ExprPrinted
import NFdl.Adgl.ParserBounds
import NFdl.Adgl.ExprReadBack
import NFdl.Adgl.ReadBack
import NFdl.Adgl.RuleReadBack
import NFdl.Adgl.RulesetReadBack
import NFdl.Adgl.Written
import NFdl.Adgl.Comments
import NFdl.Adgl.Greatest
import NFdl.Runtime.ArithmeticRun
import NFdl.Adgl.IncludeLoading
import NFdl.Adgl.RoundTrip
