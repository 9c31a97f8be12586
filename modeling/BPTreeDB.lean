import BPTreeDB.Runs.SmallPages
import BPTreeDB.Runs.Transparency
import BPTreeDB.Runs.NoSteal
import BPTreeDB.Runs.FreePages
import BPTreeDB.Runs.LogFailures
import BPTreeDB.Runs.PoolBounds
import BPTreeDB.Format.Layout
import BPTreeDB.Format.MetaDecoder
import BPTreeDB.Runs.LogReading
import BPTreeDB.Runs.CheckpointState
import BPTreeDB.Runs.ScanRuns
import BPTreeDB.Runs.Redistribution
import BPTreeDB.Runs.StaleHandles
import BPTreeDB.Runs.Checker
import BPTreeDB.Engine.Repair
import BPTreeDB.Runs.CheckpointCrash
import BPTreeDB.Runs.Lives
import BPTreeDB.Runs.InFlight
import BPTreeDB.Lib.Growth
import BPTreeDB.PageStore.Allocation
import BPTreeDB.PageStore.Height
import BPTreeDB.Runs.Progress
import BPTreeDB.Engine.Overwriting
import BPTreeDB.Lib.Splice
import BPTreeDB.Runs.MixedPages
import BPTreeDB.Runs.TornCheckpoints
import BPTreeDB.Runs.CheckpointWindow
