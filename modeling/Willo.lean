import Willo.Backends
import Willo.KeyboardInput
import Willo.MountPoints
import Willo.TaskExecutor
import Willo.TaskLifetimes
import Willo.FreeCounts
import Willo.DamagedVolumes
import Willo.NameCodec
import Willo.FreeScan
import Willo.RefusedCalls
import Willo.LongNames
import Willo.FreedChains
import Willo.RawDisk
import Willo.FrameAllocator
import Willo.DiskErrors
import Willo.Enumeration
import Willo.EntryInsertion
import Willo.TmpFsClients
import Willo.TaskFairness
import Willo.SimpleExecutor
import Willo.TypedScreen
import Willo.KeyboardLatency
import Willo.DriveProbe
import Willo.FileStreams
import Willo.HeapPages
