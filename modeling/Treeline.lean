import Treeline.Basic
import Treeline.MemTable.Comparator
import Treeline.MemTable.SkipList
import Treeline.MemTable.Trace
import Treeline.Reorg.Plan
import Treeline.Reorg.Chain
import Treeline.Reorg.Readers
import Treeline.Reorg.Frames
import Treeline.Reorg.Passes
import Treeline.Reorg.Commit
import Treeline.Reorg.ReaderSafety
import Treeline.Reorg.AfterCommit
import Treeline.PageGrouping.Store
import Treeline.PageGrouping.Boundaries
import Treeline.PageGrouping.BoundarySearch
import Treeline.PageGrouping.Load
import Treeline.PageGrouping.Rewrite
import Treeline.PageGrouping.Flatten
import Treeline.PageGrouping.Window
import Treeline.PageGrouping.RewriteRun
import Treeline.PageGrouping.Reachable
import Treeline.PageGrouping.Merger
import Treeline.PageGrouping.FreeSafety
import Treeline.PageGrouping.PageOrder
import Treeline.PageGrouping.ReleaseSafety
import Treeline.PageGrouping.IdSafety
import Treeline.PageGrouping.Tiling
