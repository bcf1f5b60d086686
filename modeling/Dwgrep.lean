import Dwgrep.Value
import Dwgrep.Stack
import Dwgrep.Compare
import Dwgrep.SeqPred
import Dwgrep.Res
import Dwgrep.Producer
import Dwgrep.Coverage
import Dwgrep.Dwarf.Die
import Dwgrep.Dwarf.Termination
import Dwgrep.Dwarf.OldChild
import Dwgrep.Dwarf.Import
import Dwgrep.Dwarf.Parent
import Dwgrep.Dwarf.AtVal
import Dwgrep.Graph.Syntax
import Dwgrep.Graph.Next
import Dwgrep.Graph.Fuel
import Dwgrep.Graph.Protocol
import Dwgrep.Graph.Law
import Dwgrep.Graph.Refine
import Dwgrep.Graph.Branch
import Dwgrep.Graph.Format
import Dwgrep.Graph.Closure
import Dwgrep.Graph.SubxCompare
import Dwgrep.Graph.Scope
import Dwgrep.Graph.Elem
import Dwgrep.Graph.Query
import Dwgrep.Graph.Lazy
import Dwgrep.Graph.Group
import Dwgrep.Graph.Merge
import Dwgrep.Graph.MergeQueries
