import Bsh.Bridge.AclDocument
import Bsh.Bridge.AclLoad
import Bsh.Bridge.AclPrompt
import Bsh.Bridge.AclTable
import Bsh.Bridge.AclUsable
import Bsh.Bridge.Answers
import Bsh.Bridge.Dispatch
import Bsh.Bridge.GeoEngine
import Bsh.Bridge.GrantLifetime
import Bsh.Bridge.GrantedEntry
import Bsh.Bridge.Handlers
import Bsh.Bridge.Refusals
import Bsh.Bridge.ScopeLadder
import Bsh.Bridge.SessionGrants
import Bsh.Bridge.Subscriptions
import Bsh.Bridge.ZoneChain
import Bsh.BrightLink.Commands
import Bsh.BrightLink.Crypto
import Bsh.BrightLink.Spec
import Bsh.Client.Base64Buffers
import Bsh.Client.Builtins
import Bsh.Client.FieldLookup
import Bsh.Client.ReadObject
import Bsh.Client.Register
import Bsh.Client.RegisterFrame
import Bsh.Client.Text
import Bsh.Client.Transport
import Bsh.Hist.AbsPath
import Bsh.Hist.PathParts
import Bsh.Hist.Quote
import Bsh.Hist.ReduceBlanks
import Bsh.Hist.Subst
import Bsh.Library.Accumulator
import Bsh.Library.Base64
import Bsh.Library.Binary64
import Bsh.Library.Blocks
import Bsh.Library.Brackets
import Bsh.Library.Bytes
import Bsh.Library.Cells
import Bsh.Library.Comparator
import Bsh.Library.Decimal
import Bsh.Library.Demands
import Bsh.Library.EditDistance
import Bsh.Library.EscapeCode
import Bsh.Library.Fields
import Bsh.Library.FirstMatch
import Bsh.Library.Framing
import Bsh.Library.HashChains
import Bsh.Library.InPlace
import Bsh.Library.JsValue
import Bsh.Library.Json
import Bsh.Library.JsonGrammar
import Bsh.Library.JsonText
import Bsh.Library.LexCompare
import Bsh.Library.Linked
import Bsh.Library.ListTable
import Bsh.Library.Memory
import Bsh.Library.Names
import Bsh.Library.NodeChain
import Bsh.Library.ObjectText
import Bsh.Library.Operators
import Bsh.Library.Padding
import Bsh.Library.Program
import Bsh.Library.Ranked
import Bsh.Library.Rows
import Bsh.Library.Run
import Bsh.Library.Saturation
import Bsh.Library.Selection
import Bsh.Library.Slice
import Bsh.Library.Utf
import Bsh.Library.Walk
import Bsh.Library.Words
import Bsh.Link.DeliverAad
import Bsh.Sched.Events
import Bsh.Sched.Listed
import Bsh.Shell.Approx
import Bsh.Shell.Arith
import Bsh.Shell.ArithEnds
import Bsh.Shell.ArithStack
import Bsh.Shell.ArrayAssign
import Bsh.Shell.ArrayCombine
import Bsh.Shell.Brace
import Bsh.Shell.BraceDoc
import Bsh.Shell.BraceExpand
import Bsh.Shell.BraceLimits
import Bsh.Shell.BraceNumbers
import Bsh.Shell.BraceRanges
import Bsh.Shell.BraceRun
import Bsh.Shell.BraceScan
import Bsh.Shell.Casemod
import Bsh.Shell.Characters
import Bsh.Shell.Cond
import Bsh.Shell.CondExpr
import Bsh.Shell.CondParse
import Bsh.Shell.CondTest
import Bsh.Shell.DollarQuote
import Bsh.Shell.DumpFile
import Bsh.Shell.DumpServe
import Bsh.Shell.DumpWalk
import Bsh.Shell.FloatText
import Bsh.Shell.GlobMerge
import Bsh.Shell.GlobNodes
import Bsh.Shell.GlobOrder
import Bsh.Shell.GlobQuals
import Bsh.Shell.GlobSelect
import Bsh.Shell.GlobSort
import Bsh.Shell.GlobTree
import Bsh.Shell.HashCursor
import Bsh.Shell.HashExpand
import Bsh.Shell.HashScan
import Bsh.Shell.HashScanRun
import Bsh.Shell.HashTable
import Bsh.Shell.HistLock
import Bsh.Shell.HistLockRun
import Bsh.Shell.HistoryFile
import Bsh.Shell.HistoryRound
import Bsh.Shell.IntegerText
import Bsh.Shell.KeyString
import Bsh.Shell.KeyValueArray
import Bsh.Shell.KillRing
import Bsh.Shell.KillRuns
import Bsh.Shell.LinkList
import Bsh.Shell.Math
import Bsh.Shell.MathEval
import Bsh.Shell.MathLex
import Bsh.Shell.MathParse
import Bsh.Shell.MathText
import Bsh.Shell.Metafy
import Bsh.Shell.ModeQualifier
import Bsh.Shell.ModeSpec
import Bsh.Shell.NiceFormat
import Bsh.Shell.NumRange
import Bsh.Shell.Numbers
import Bsh.Shell.OffsetLength
import Bsh.Shell.PaddedText
import Bsh.Shell.Padding
import Bsh.Shell.Passages
import Bsh.Shell.Quote
import Bsh.Shell.QuoteRoom
import Bsh.Shell.QuoteStyles
import Bsh.Shell.QuotedBuffer
import Bsh.Shell.QuotedRound
import Bsh.Shell.QuotedWord
import Bsh.Shell.SepSplit
import Bsh.Shell.SortArray
import Bsh.Shell.SortKeys
import Bsh.Shell.SortOrder
import Bsh.Shell.SpaceSplit
import Bsh.Shell.SplitCount
import Bsh.Shell.StringOrder
import Bsh.Shell.Styles
import Bsh.Shell.Subscript
import Bsh.Shell.SubscriptArray
import Bsh.Shell.SubscriptScalar
import Bsh.Shell.TimeQualifier
import Bsh.Shell.Truncation
import Bsh.Shell.WordModify
import Bsh.Shell.Yank
import Bsh.Shell.YankRun
import Bsh.Zle.Convert
import Bsh.Zle.Insert
import Bsh.Zle.RoundTrip
import Bsh.Zle.Space
import Bsh.Zutil.Align
import Bsh.Zutil.Format
import Bsh.Zutil.Parseopts
