import Cs537.Lib.Run
import Cs537.P4.SleepRuns
import Cs537.P5.VmaRuns
import Cs537.P6.QueueHistory
import Cs537.P6.ServerRuns
import Cs537.P6.Lock
import Cs537.P6.Regions
import Cs537.P7.Tree
import Cs537.P7.Remount
import Cs537.P2.Lastcat
import Cs537.P4.Wakeups
import Cs537.P7.Inodes
import Cs537.P7.Overwrite
import Cs537.P7.Space
import Cs537.P7.Names
import Cs537.P7.Fresh
import Cs537.P5.Stale
import Cs537.P5.Paging
import Cs537.P5.Fork
import Cs537.Lib.Tally
import Cs537.P5.LiveFiles
import Cs537.P5.FileRefs
import Cs537.P3.Wsh
import Cs537.P3.JobTable
import Cs537.P3.JobRuns
import Cs537.P5.Fixed
import Cs537.P5.LiveEntries
import Cs537.P5.Unmapping
import Cs537.P5.Memory
import Cs537.P5.Faults
import Cs537.P5.FilePages
import Cs537.P5.WriteBack
import Cs537.P5.Freeing
import Cs537.P5.Copying
import Cs537.P5.FailedFork
import Cs537.P5.Frames
import Cs537.P5.Flushing
import Cs537.P5.ClearMaps
import Cs537.P5.FailedMap
import Cs537.P5.Indices
import Cs537.P7.Resolving
import Cs537.P7.RoundTrip
import Cs537.P7.Attributes
import Cs537.P7.Reading
import Cs537.P6.Directories
import Cs537.P6.Classification
import Cs537.P6.Forwarding
import Cs537.P1.Converting
import Cs537.P1.Title
import Cs537.P6.Delay
import Cs537.P3.TableIndices
import Cs537.P3.Groups
import Cs537.P2.ExecRefs
import Cs537.P5.Inserting
import Cs537.P1.FixedPoint
import Cs537.P1.Reporting
import Cs537.P5.Reservation
import Cs537.P5.PipeWakeups
import Cs537.P5.Budget
import Cs537.P5.Capacity
import Cs537.P4.Reaping
import Cs537.P4.RoundRobin
import Cs537.P4.Ticks
import Cs537.P5.Eviction
import Cs537.P5.LogOnCache
