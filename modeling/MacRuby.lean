import MacRuby.Lib.Loop
import MacRuby.Lib.Radix
import MacRuby.Bignum.Basic
import MacRuby.Bignum.AddSub
import MacRuby.Bignum.DivRem
import MacRuby.Bignum.DivRemSpec
import MacRuby.Bignum.Division
import MacRuby.Compile.Element
import MacRuby.Compile.Sequence
import MacRuby.Compile.Layout
import MacRuby.Compile.Arguments
import MacRuby.Lib.Memory
import MacRuby.Vm.CalleeSetup
import MacRuby.Vm.Yield
import MacRuby.Compile.Case
import MacRuby.Compile.CaseDispatch
import MacRuby.Compile.Optimize
import MacRuby.Compile.Peephole
import MacRuby.Lib.Refinement
import MacRuby.Object.Ivar
import MacRuby.Object.IvarMap
import MacRuby.Lib.Linked
import MacRuby.St.Table
import MacRuby.St.Hashed
import MacRuby.St.OrderedMap
import MacRuby.St.Packed
import MacRuby.St.Refines
import MacRuby.St.Conformance
import MacRuby.Bignum.Arith
import MacRuby.Bignum.Bitwise
import MacRuby.Lib.Fuel
import MacRuby.Numeric.Integer
import MacRuby.Numeric.Rational
import MacRuby.Pack.Directive
import MacRuby.Pack.Unpack
import MacRuby.Pack.Cursor
import MacRuby.Pack.Block
import MacRuby.Pack.Pack
import MacRuby.Pack.Words
import MacRuby.Pack.RoundTrip
import MacRuby.Dir.Fnmatch
import MacRuby.Lib.Wildcard
import MacRuby.Dir.Matching
import MacRuby.Dir.Element
import MacRuby.Dir.FnmatchSpec
import MacRuby.Dir.Glob
import MacRuby.Dir.Tails
import MacRuby.Dir.GlobSpec
import MacRuby.Compile.Condition
import MacRuby.Compile.Threading
import MacRuby.Vm.Insns
import MacRuby.Compile.Array
import MacRuby.Compile.Massign
import MacRuby.Compile.SetupArgs
import MacRuby.File.Basename
import MacRuby.Vm.Specialized
import MacRuby.Dir.Brace
import MacRuby.Time.Search
import MacRuby.File.ExpandPath
import MacRuby.Time.Marshal
import MacRuby.File.ExpandSpec
import MacRuby.Time.Calendar
import MacRuby.Time.Arith
import MacRuby.Bignum.Square
import MacRuby.Numeric.Power
import MacRuby.Numeric.Shift
import MacRuby.Lib.Nearest
import MacRuby.Numeric.Mixed
import MacRuby.Numeric.Round
import MacRuby.Numeric.Expt
import MacRuby.Numeric.Parse
import MacRuby.Numeric.Literal
import MacRuby.Numeric.ParseSpec
import MacRuby.Lib.Numerals
import MacRuby.Numeric.ToString
import MacRuby.Numeric.ToStringSpec
import MacRuby.Numeric.RationalRound
import MacRuby.Pack.Elements
import MacRuby.Pack.Reads
import MacRuby.Pack.Base64
import MacRuby.Pack.Ber
import MacRuby.Pack.Utf8
import MacRuby.Lib.BitStream
import MacRuby.Pack.Uuencode
import MacRuby.Pack.QuotedPrintable
import MacRuby.Pack.Digits
import MacRuby.Pack.Padding
import MacRuby.St.ReverseForeach
import MacRuby.St.ForeachInsert
import MacRuby.Numeric.Long
import MacRuby.Range.BegLen
import MacRuby.Array.Basic
import MacRuby.Array.Splice
import MacRuby.Array.Slice
import MacRuby.St.DeleteSafe
import MacRuby.Array.SetOps
import MacRuby.Lib.Lexicographic
import MacRuby.Array.Permutation
import MacRuby.Array.Product
import MacRuby.Array.Combination
import MacRuby.Array.Flatten
import MacRuby.Marshal.Long
import MacRuby.Marshal.Object
import MacRuby.Marshal.Load
import MacRuby.Marshal.Bignum
import MacRuby.Lib.Rejection
import MacRuby.Random.Limited
import MacRuby.Random.LimitedBig
import MacRuby.String.Basic
import MacRuby.String.Slice
import MacRuby.Lib.Occurrence
import MacRuby.String.Find
import MacRuby.String.Search
import MacRuby.String.EachLine
import MacRuby.String.Regexp
import MacRuby.String.Scan
import MacRuby.String.Split
import MacRuby.Lib.Words
import MacRuby.String.SplitWords
import MacRuby.Lib.MixedRadix
import MacRuby.String.Succ
import MacRuby.Lib.Walk
import MacRuby.String.Upto
import MacRuby.Lib.Runs
import MacRuby.String.CharsetFind
import MacRuby.String.Charset
import MacRuby.String.Tr
import MacRuby.Numeric.Gcd
import MacRuby.Util.StrtoulSpec
import MacRuby.Lib.Progression
import MacRuby.Range.Step
import MacRuby.String.Gsub
import MacRuby.Lib.Cyclic
import MacRuby.String.Justify
import MacRuby.String.Trim
import MacRuby.Lib.Regions
import MacRuby.Util.Qsort
import MacRuby.Util.QsortSplit
import MacRuby.Util.QsortSpec
import MacRuby.Marshal.Image
import MacRuby.Marshal.Reads
import MacRuby.Marshal.Bodies
import MacRuby.Marshal.RoundTrip
import MacRuby.Marshal.Settles
import MacRuby.Marshal.Redump
import MacRuby.Marshal.AnyBytes
