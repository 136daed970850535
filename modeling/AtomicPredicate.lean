import AtomicPredicate.Lib.Diagram
import AtomicPredicate.Lib.Triple
import AtomicPredicate.Buddy
import AtomicPredicate.Encode
import AtomicPredicate.Range
import AtomicPredicate.Lib.FirstMatch
import AtomicPredicate.Forward
import AtomicPredicate.Rule
import AtomicPredicate.Acl
import AtomicPredicate.Device
import AtomicPredicate.Lib.CString
import AtomicPredicate.ReadRule
import AtomicPredicate.Parse
import AtomicPredicate.RuleLine
import AtomicPredicate.Wildcard
import AtomicPredicate.CutLine
import AtomicPredicate.LongLine
import AtomicPredicate.Ports
import AtomicPredicate.Nesting
import AtomicPredicate.Lib.Lines
import AtomicPredicate.Lib.Scanf
import AtomicPredicate.ReadRoute
import AtomicPredicate.RouteLine
import AtomicPredicate.Interfaces
import AtomicPredicate.RouteFile
import AtomicPredicate.PortNumbers
import AtomicPredicate.PredicateCount
import AtomicPredicate.Balance
import AtomicPredicate.KeyOrder
import AtomicPredicate.TableSize
import AtomicPredicate.Kernel.Defs
import AtomicPredicate.Kernel.Table
import AtomicPredicate.Kernel.Gbc
import AtomicPredicate.Kernel.Makenode
import AtomicPredicate.Kernel.Apply
import AtomicPredicate.Kernel.Calls
import AtomicPredicate.Kernel.Prime
import AtomicPredicate.Kernel.Setup
import AtomicPredicate.Kernel.Refine
import AtomicPredicate.Kernel.Classifier
import AtomicPredicate.Kernel.Answers
import AtomicPredicate.Kernel.Contract
import AtomicPredicate.Kernel.TestProgram
import AtomicPredicate.Load
import AtomicPredicate.Report
import AtomicPredicate.Program
