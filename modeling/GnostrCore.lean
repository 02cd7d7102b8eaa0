import GnostrCore.Encoding.Bytes
import GnostrCore.Encoding.State
import GnostrCore.Encoding.Messages
import GnostrCore.Encoding.Wire
import GnostrCore.Encoding.Theorems
import GnostrCore.Encoding.Buffers
import GnostrCore.Oplog.CompactEncoding
import GnostrCore.Oplog.Header
import GnostrCore.Oplog.Theorems
import GnostrCore.Storage.Backend
import GnostrCore.Storage.FlatTree
import GnostrCore.Storage.Storage
import GnostrCore.Storage.Theorems
import GnostrCore.Storage.Legacy
import GnostrCore.Core.Hypercore
import GnostrCore.Core.Theorems
