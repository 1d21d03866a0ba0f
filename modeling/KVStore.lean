import KVStore.BitcaskFailedCompact
import KVStore.BitcaskSealing
import KVStore.BitcaskSpace
import KVStore.FailedSync
import KVStore.FrameStream
import KVStore.ManifestFile
import KVStore.ReadErrors
import KVStore.RecordLog
import KVStore.LsmIdOrder
import KVStore.LsmPlacedOnce
import KVStore.LsmStepLimit
import KVStore.LsmTablesInUse
import KVStore.ReadModes
import KVStore.ClientPairing
import KVStore.LsmDeletedStore
import KVStore.LsmMemtableBound
import KVStore.LsmRotationFailure
import KVStore.LsmScan
import KVStore.ServerStop
import KVStore.SameStores
import KVStore.TornTail
import KVStore.FileNames
import KVStore.CursorRuns
import KVStore.TableRange
import KVStore.HintReplay
import KVStore.FrameBuffer
