import DartSdk.Datastream
import DartSdk.UnicodeStrings
import DartSdk.HashTableUpdates
import DartSdk.ParallelMoves
import DartSdk.HashMap
import DartSdk.SplayTree
import DartSdk.BigIntPrinting
import DartSdk.ListQueueUpdates
import DartSdk.Utf8Decoder
import DartSdk.Base64Chunks
import DartSdk.TypeFlowDomain
import DartSdk.ConversionRanges
import DartSdk.PortMapRuns
import DartSdk.FreeListRuns
import DartSdk.RangeInference
import DartSdk.SpillSlots
import DartSdk.ConstantFolding
import DartSdk.IntegerConversions
import DartSdk.BoundExpressions
import DartSdk.CharacterRanges
import DartSdk.CompactHash
import DartSdk.TypeFlowConvergence
import DartSdk.ClassInstantiation
import DartSdk.StrongComponents
import DartSdk.DualPivotSort
import DartSdk.Liveness
