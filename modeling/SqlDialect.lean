import SqlDialect.Main
import SqlDialect.Report.Readback
import SqlDialect.Search
import SqlDialect.Proofs.Trim
import SqlDialect.Proofs.Keyword
import SqlDialect.Proofs.Qualifier
import SqlDialect.Proofs.Nesting
import SqlDialect.Proofs.Calls
import SqlDialect.Proofs.BottomUp
import SqlDialect.Proofs.TimeDifference
import SqlDialect.Proofs.Interval.Run
import SqlDialect.Proofs.Interval.Step
import SqlDialect.Proofs.Order
import SqlDialect.Proofs.Comment
import SqlDialect.Proofs.Embedded
import SqlDialect.Proofs.Interval.Decomposition
import SqlDialect.Proofs.Bytes.Translator
import SqlDialect.Proofs.Preserved
import SqlDialect.Proofs.Interval.Offset
import SqlDialect.Proofs.Interval.Separate
import SqlDialect.Proofs.Interval.Signs
import SqlDialect.Proofs.Interval.Bounded
import SqlDialect.Proofs.Interval.Enclosed
import SqlDialect.Proofs.Parameters
import SqlDialect.Proofs.TimeDifference.Enclosed
import SqlDialect.Proofs.Interval.Apart
import SqlDialect.Proofs.Interval.Parenthesis
import SqlDialect.Proofs.Interval.WholeOperand
import SqlDialect.Proofs.Interval.Amounts
import SqlDialect.Proofs.Interval.Nested
import SqlDialect.Proofs.FunctionName.Spaced
import SqlDialect.Proofs.Fragment
import SqlDialect.Proofs.View.Header
import SqlDialect.Proofs.Clean
import SqlDialect.Proofs.View.Pairs
import SqlDialect.Proofs.View.Comments
import SqlDialect.Proofs.Statistics
import SqlDialect.Proofs.Script
import SqlDialect.Proofs.View.Account
import SqlDialect.Proofs.View.Subquery
import SqlDialect.Proofs.Matching
import SqlDialect.Proofs.Integer
import SqlDialect.Proofs.Literals
import SqlDialect.Proofs.Split
import SqlDialect.Proofs.Bytes.Table
