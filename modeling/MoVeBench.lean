import MoVeBench.ShortKey
import MoVeBench.DiskAnn.Columns
import MoVeBench.DiskAnn.VectorF8
import MoVeBench.DiskAnn.VectorBit
import MoVeBench.DiskAnn.VectorBlob
import MoVeBench.DiskAnn.ParamText
import MoVeBench.DiskAnn.VectorText
import MoVeBench.DiskAnn.SearchRuns
import MoVeBench.DiskAnn.History
import MoVeBench.LibSql.Delete
import MoVeBench.Lsm.Protection
import MoVeBench.Lsm.Redirect
import MoVeBench.Lsm.Work
import MoVeBench.Lsm.Flush
import MoVeBench.Lsm.TreeRanges
import MoVeBench.Lsm.TreeWalk
import MoVeBench.Lsm.TreeIsolation
import MoVeBench.Lsm.Checksum
import MoVeBench.Lsm.FreeWalk
import MoVeBench.Lsm.FreeMerge
import MoVeBench.Lsm.LevelChoice
import MoVeBench.Lsm.AutoWork
import MoVeBench.Lsm.CkptExport
import MoVeBench.Lsm.SegmentWrap
import MoVeBench.Lsm.SegmentPages
import MoVeBench.Lsm.ShmLock
import MoVeBench.Lib.Checked
import MoVeBench.Lsm.WorkUnits
import MoVeBench.Lsm.LogRequire
import MoVeBench.Lsm.LogReplay
import MoVeBench.Lsm.SaveWorker
import MoVeBench.Lsm.Varint
import MoVeBench.DiskAnn.VectorGap
import MoVeBench.DiskAnn.TextBuf
import MoVeBench.DiskAnn.ParamBuf
import MoVeBench.Lsm.WriteFaults
import MoVeBench.Lsm.PackedRun
import MoVeBench.KvMem.Run
import MoVeBench.KvMem.Refine
import MoVeBench.KvMem.Seek
import MoVeBench.KvMem.Depth
import MoVeBench.KvMem.Close
import MoVeBench.NumArith
import MoVeBench.NumText
