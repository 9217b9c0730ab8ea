import ROssFuzz.HeldTicks
import ROssFuzz.DumpOwnership
import ROssFuzz.ReturningCalls
import ROssFuzz.SynchronousCalls
import ROssFuzz.EvalBudget
import ROssFuzz.ChartrGuard
import ROssFuzz.RepeatGuard
import ROssFuzz.ChartrTable
import ROssFuzz.Utf8Validation
import ROssFuzz.BytecodeReps
import ROssFuzz.OffsetSearch
import ROssFuzz.DcfMatrix
import ROssFuzz.ParserStack
import ROssFuzz.StrsplitResources
import ROssFuzz.TreeBudget
import ROssFuzz.RepeatGuardArithmetic
import ROssFuzz.OldStringReaders
import ROssFuzz.MemDecompress
import ROssFuzz.DumpLabels
import ROssFuzz.SortLines
import ROssFuzz.LocaleCache
import ROssFuzz.LenientDecoder
import ROssFuzz.SlotTargets
import ROssFuzz.CharacterTarget
import ROssFuzz.EncodingTarget
import ROssFuzz.TargetSessions
import ROssFuzz.IconvDescriptors
import ROssFuzz.RegexPatterns
import ROssFuzz.StringBuffers
import ROssFuzz.EvalPolling
import ROssFuzz.ElementMethods
import ROssFuzz.AlarmWrap
import ROssFuzz.FreedNodes
import ROssFuzz.YearDays
