import GnostrCore.Storage.Backend
import GnostrCore.Storage.FlatTree
import GnostrCore.Encoding.Messages
import GnostrCore.Oplog.Header

namespace GnostrCore.Encoding.Node

open GnostrCore.Storage (StorageError)

/-- Modelled from the spec: a tree node record is `hash:fixed_32, length:u64`, 40 bytes, the
length little-endian as the spec's integers are (`storage/node.rs` is not under src/). -/
def toBytes (node : Node) : List UInt8 := node.hash.toList ++ leBytes 8 node.length.toNat

-- `Node::from_bytes(index, &buf)`: the index is the one asked for, not one stored. The read
-- before it always hands it 40 bytes.
def fromBytes (index : UInt64) (buf : List UInt8) : Except StorageError Node :=
  if 40 ≤ buf.length then
    pure { index, hash := ⟨buf.take 32, Nat.le_trans (List.length_take_le 32 buf) (by decide)⟩,
           length := UInt64.ofNat (leValue (buf.drop 32)) }
  else throw (.message "failed to fill whole buffer")

end GnostrCore.Encoding.Node

namespace GnostrCore

open Encoding (Node)

-- Each segment is the byte array of an in-memory backend.

structure Storage where
  tree : List UInt8
  data : List UInt8
  bitfield : List UInt8
  oplog : List UInt8
deriving DecidableEq

-- `PartialKeypair`; the one of `storage_v10` that `core.rs` takes has the same two fields
structure PartialKeypair where
  public : Oplog.PublicKey
  secret : Option Oplog.SecretKey

namespace Storage

def HEADER_OFFSET : UInt64 := 32

/-- Modelled from the spec: `Storage::new`'s segments are the ones `create` opened, with the
bytes they held. `create_bitfield()` and `create_tree()` of the `sleep_parser` crate (not under
src/) give the two headers, taken as they are. With the in-memory backend no write fails. -/
def new (opened : Storage) (overwrite : Bool) (create_bitfield create_tree : List UInt8) :
    Storage :=
  let storage := opened
  let storage :=
    if overwrite || storage.bitfield.length == 0 then { storage with oplog := write storage.oplog 0 [0x00] }
    else storage
  let storage :=
    if overwrite || storage.bitfield.length == 0 then
      { storage with bitfield := write storage.bitfield 0 create_bitfield }
    else storage
  if overwrite || storage.tree.length == 0 then
    { storage with tree := write storage.tree 0 create_tree }
  else storage

-- `Storage::new_memory`: `new` over fresh, empty in-memory segments, with `overwrite` set
def newMemory (create_bitfield create_tree : List UInt8) : Storage :=
  new ⟨[], [], [], []⟩ true create_bitfield create_tree

def writeData (s : Storage) (offset : UInt64) (data : List UInt8) : Storage :=
  { s with data := write s.data offset.toNat data }

-- `HEADER_OFFSET + 40 * index` in `u64` arithmetic, which wraps
def getNode (s : Storage) (index : UInt64) : Except StorageError Node := do
  let buf ← read s.tree (HEADER_OFFSET + 40 * index).toNat 40
  Node.fromBytes index buf

def putNode (s : Storage) (node : Node) : Storage :=
  { s with tree := write s.tree (HEADER_OFFSET + 40 * node.index).toNat node.toBytes }

def putBitfield (s : Storage) (offset : UInt64) (data : List UInt8) : Storage :=
  { s with bitfield := write s.bitfield (HEADER_OFFSET + offset).toNat data }

-- `find_node`: the first node with the index
def findNode (nodes : List Node) (index : UInt64) : Option Node := nodes.find? (·.index == index)

def treeIndex (index : UInt64) : UInt64 := 2 * index

-- `match find_node(&cached_nodes, block_index) { Some(node) => node.len(), None => .. }`
def leafLength (s : Storage) (cached_nodes : List Node) (block_index : UInt64) :
    Except StorageError UInt64 :=
  match findNode cached_nodes block_index with
  | some node => pure node.length
  | none => do
    let node ← s.getNode block_index
    pure node.length

def unreachable : StorageError := .panic "internal error: entered unreachable code"

-- the `for root in roots` loop, with the `offset` and `pending` it carries
def dataOffsetLoop (s : Storage) (cached_nodes : List Node) (block_index : UInt64) :
    List UInt64 → UInt64 → UInt64 → Except StorageError (UInt64 × UInt64)
  | [], _, _ => throw unreachable
  | root :: roots, offset, pending => do
    let node ← s.getNode root
    let offset := offset + node.length
    let pending := pending - 1
    if pending > 0 then dataOffsetLoop s cached_nodes block_index roots offset pending
    else
      let len ← s.leafLength cached_nodes block_index
      pure (offset, offset + len)

-- The range `offset..offset + len` as its two ends.
def dataOffset (s : Storage) (index : UInt64) (cached_nodes : List Node) :
    Except StorageError (UInt64 × UInt64) := do
  let roots := fullRoots (treeIndex index)
  let offset : UInt64 := 0
  let pending : UInt64 := UInt64.ofNat roots.length
  let block_index := treeIndex index
  if pending = 0 then
    let len ← s.leafLength cached_nodes block_index
    return (offset, offset + len)
  dataOffsetLoop s cached_nodes block_index roots offset pending

-- `Range::count` of `start..end` over `u64`
def rangeCount (range : UInt64 × UInt64) : UInt64 := if range.1 ≤ range.2 then range.2 - range.1 else 0

def putData (s : Storage) (index : UInt64) (data : List UInt8) (nodes : List Node) :
    Except StorageError Storage :=
  if data.isEmpty then pure s
  else do
    let range ← s.dataOffset index nodes
    if (range.2 - range.1).toNat ≠ data.length then
      throw (.message ("length  `" ++ toString (rangeCount range).toNat ++ " != " ++
        toString data.length ++ "`"))
    pure { s with data := write s.data range.1.toNat data }

def getData (s : Storage) (index : UInt64) : Except StorageError (List UInt8) := do
  let range ← s.dataOffset index []
  read s.data range.1.toNat (rangeCount range).toNat

-- the `sleep_parser` header of a segment, as far as `read_bitfield` reads it
structure SleepHeader where
  entry_size : UInt16

-- the `loop` of `read_bitfield`, run for at most `fuel` reads; `none` when the loop is still
-- running after them
def bitfieldLoop (seg : List UInt8) (ent_size : UInt64) :
    (fuel : Nat) → (idx : UInt64) → (buf : List UInt8) → Option (List UInt8)
  | 0, _, _ => none
  | fuel + 1, idx, buf =>
    match read seg (HEADER_OFFSET + idx * ent_size).toNat ent_size.toNat with
    | .ok slice => bitfieldLoop seg ent_size fuel (idx + 1) (buf ++ slice)
    | .error _ => some buf

/-- Modelled from the spec: `Header::from_vec` of the `sleep_parser` crate (not under src/) is
the parameter `fromVec`, a header or the text of its error. -/
def readBitfield (fromVec : List UInt8 → Except String SleepHeader) (s : Storage)
    (fuel : Nat) : Option (Except StorageError (List UInt8)) :=
  match read s.bitfield 0 32 with
  | .error _ => some (.error (.message "read bitfield header"))
  | .ok buf =>
    match fromVec buf with
    | .error e => some (.error (.message e))
    | .ok header => (bitfieldLoop s.bitfield header.entry_size.toUInt64 fuel 0 []).map .ok

end Storage

end GnostrCore
