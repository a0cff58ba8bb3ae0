import Luwu.Table.Sizing
import Luwu.Table.Atomic
import Luwu.TabLib.Drop
import Luwu.BufLib.Functions
import Luwu.Bytecode.Lines
import Luwu.Bytecode.Fold
import Luwu.VM.Concat
import Luwu.Ref.Exclusive
import Luwu.Upval.Run
import Luwu.Str.Run
import Luwu.Class.Run
import Luwu.Dense.LifetimesRun2
import Luwu.Dense.Run
import Luwu.Normal.Back
import Luwu.Simplify.RelateRun
import Luwu.Native.Requests
import Luwu.Native.Interleavings
import Luwu.Require.Case
import Luwu.Sccp.Folding
import Luwu.Sccp.Agreement
import Luwu.Bits.Calls
import Luwu.Sort.Compare
import Luwu.Utf8Lib.Offset
import Luwu.Pattern.Visits
import Luwu.Bytecode.Deduplicated
import Luwu.Pattern.Split
import Luwu.NumPrint.Faithful
import Luwu.Deque.Run
import Luwu.Normal.Strings
import Luwu.Subtyping.PackRuns
import Luwu.Subtyping.ReasoningRuns
import Luwu.Unroll.Loops
import Luwu.Text.EditDistance
import Luwu.Text.Quote
import Luwu.ConstProp.Strength
import Luwu.ConstProp.Chains
import Luwu.LuauConfig.Globals
import Luwu.Require.Cache
import Luwu.TopoSort.Order
import Luwu.CostModel.Counts
import Luwu.StrPack.RoundTrip
