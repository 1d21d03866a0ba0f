import KVStore.BitcaskFlakyReads
import KVStore.LsmFlakyReads

namespace KVStore

open Lib CrashProgram LsmStore

end KVStore
