import ChezziLang.Lib.Probe
import ChezziLang.Lib.Places
import ChezziLang.Vm.MapData
import ChezziLang.Vm.MapIndex
import ChezziLang.Vm.Channel
import ChezziLang.Vm.ChannelInv
import ChezziLang.Vm.ChannelSafety
import ChezziLang.Vm.ChannelBounds
import ChezziLang.Checker.CallBind
import ChezziLang.Checker.Ty
import ChezziLang.Checker.Assignable
import ChezziLang.Checker.TyUtil
import ChezziLang.Checker.Flow
import ChezziLang.Checker.FlowSound
import ChezziLang.Lib.PatMatrix
import ChezziLang.Ast.Pattern
import ChezziLang.Checker.Pattern
import ChezziLang.Checker.Exhaust
import ChezziLang.Checker.ExhaustSound
import ChezziLang.Checker.ExhaustLower
import ChezziLang.Checker.ExhaustPass
import ChezziLang.Checker.ExhaustWitness
import ChezziLang.Checker.ExhaustExact
import ChezziLang.Lib.I64
import ChezziLang.Slice
import ChezziLang.Ast.ConstEval
import ChezziLang.Lib.F64
import ChezziLang.Vm.Arith
import ChezziLang.Vm.Quicken
import ChezziLang.Vm.ConstEvalSound
import ChezziLang.Lib.MergeSort
import ChezziLang.Vm.Sort
import ChezziLang.Json.Basic
import ChezziLang.Json.RoundTrip
import ChezziLang.Lib.Cover
import ChezziLang.Vm.Heap
import ChezziLang.Vm.Content
import ChezziLang.Vm.Equality
import ChezziLang.Vm.Hash
import ChezziLang.Vm.Snapshot
import ChezziLang.Vm.Probe
import ChezziLang.Vm.Keys
import ChezziLang.Stdlib.Csv
import ChezziLang.Stdlib.Datetime
import ChezziLang.Lib.Generator
import ChezziLang.Stdlib.Range
import ChezziLang.Lib.Roster
import ChezziLang.Vm.GcCoord
import ChezziLang.Vm.GcCoordSafety
import ChezziLang.Lib.Mark
import ChezziLang.Vm.HeapCore
import ChezziLang.Vm.HeapCoreSafety
import ChezziLang.Parser.Expr
import ChezziLang.Parser.RoundTrip
import ChezziLang.Json.Grammar
import ChezziLang.Json.Accept
import ChezziLang.Json.Decode
import ChezziLang.Json.DecodeRoundTrip
import ChezziLang.Compiler.FnComp
import ChezziLang.Compiler.Loops
import ChezziLang.Lib.Lockstep
import ChezziLang.Compiler.LoopVm
import ChezziLang.Compiler.Emission
import ChezziLang.Compiler.LoopsLayout
import ChezziLang.Compiler.LoopsCounting
import ChezziLang.Compiler.LoopsGeneral
import ChezziLang.Compiler.LoopsSound
import ChezziLang.Lib.BinHeap
import ChezziLang.Lib.Exchange
import ChezziLang.Stdlib.Deque
import ChezziLang.Stdlib.Heap
import ChezziLang.Lib.Draws
import ChezziLang.Stdlib.Sampling
import ChezziLang.Stdlib.Path
import ChezziLang.Stdlib.Text
import ChezziLang.Stdlib.Duration
import ChezziLang.Stdlib.Iso8601
import ChezziLang.Stdlib.ParseInt
import ChezziLang.Stdlib.Flag
import ChezziLang.Lib.Runs
import ChezziLang.Stdlib.Pmap
import ChezziLang.Stdlib.Broadcast
import ChezziLang.Lib.Walk
import ChezziLang.Lib.Cuts
import ChezziLang.Stdlib.Split
import ChezziLang.Vm.ScopeTable
import ChezziLang.Vm.WaitGraph
import ChezziLang.Repr
import ChezziLang.Vm.SetOps
import ChezziLang.Vm.Reentry
import ChezziLang.Vm.Jobs
import ChezziLang.Checker.Compatible
import ChezziLang.Checker.Generics
import ChezziLang.Checker.Instantiate
import ChezziLang.Stdlib.NumberTheory
import ChezziLang.Stdlib.Rand
import ChezziLang.Vm.Reduce
import ChezziLang.Vm.IntBytes
