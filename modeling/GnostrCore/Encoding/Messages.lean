import GnostrCore.Encoding.State

namespace GnostrCore.Encoding

-- The structs themselves live outside src/; their fields are the ones the codecs read and build,
-- with the types the decoders give them.

-- A Merkle tree node: flat index, hash and the byte length it spans
structure Node where
  index : UInt64
  hash : Vec UInt8
  length : UInt64
deriving DecidableEq

structure RequestBlock where
  index : UInt64
  nodes : UInt64
deriving DecidableEq

structure RequestSeek where
  bytes : UInt64
deriving DecidableEq

structure RequestUpgrade where
  start : UInt64
  length : UInt64
deriving DecidableEq

structure DataBlock where
  index : UInt64
  value : Vec UInt8
  nodes : Vec Node
deriving DecidableEq

structure DataHash where
  index : UInt64
  nodes : Vec Node
deriving DecidableEq

structure DataSeek where
  bytes : UInt64
  nodes : Vec Node
deriving DecidableEq

structure DataUpgrade where
  start : UInt64
  length : UInt64
  nodes : Vec Node
  additional_nodes : Vec Node
  signature : Vec UInt8
deriving DecidableEq

def preencodeNode (value : Node) : Preencoder Unit := do
  preencodeU64 value.index
  preencodeU64 value.length
  preencodeFixed32

def encodeNode (value : Node) : Encoder Unit := do
  encodeU64 value.index
  encodeU64 value.length
  encodeFixed32 value.hash

-- `Node::new(index, hash.to_vec(), length)`
def decodeNode (buf : List UInt8) : Decoder Node := do
  let index ← decodeU64 buf
  let length ← decodeU64 buf
  let hash ← decodeFixed32 buf
  pure { index, hash, length }

def preencodeNodes (value : Vec Node) : Preencoder Unit := do
  preencodeUsize value.length
  for val in value.toList do
    preencodeNode val

def encodeNodes (value : Vec Node) : Encoder Unit := do
  encodeUsize value.length
  for val in value.toList do
    encodeNode val

-- The length comes from the buffer and is allocated for before any node is read.
def decodeNodes (buf : List UInt8) : Decoder (Vec Node) := do
  let len ← decodeUsize buf
  let cap ← withCapacity len
  let value ← decodeLoop (decodeNode buf) len
  pure ⟨value.1, by rw [value.2]; exact cap.down⟩

def preencodeRequestBlock (value : RequestBlock) : Preencoder Unit := do
  preencodeU64 value.index
  preencodeU64 value.nodes

def encodeRequestBlock (value : RequestBlock) : Encoder Unit := do
  encodeU64 value.index
  encodeU64 value.nodes

def decodeRequestBlock (buf : List UInt8) : Decoder RequestBlock := do
  let index ← decodeU64 buf
  let nodes ← decodeU64 buf
  pure { index, nodes }

def preencodeRequestSeek (value : RequestSeek) : Preencoder Unit :=
  preencodeU64 value.bytes

def encodeRequestSeek (value : RequestSeek) : Encoder Unit :=
  encodeU64 value.bytes

def decodeRequestSeek (buf : List UInt8) : Decoder RequestSeek := do
  let bytes ← decodeU64 buf
  pure { bytes }

def preencodeRequestUpgrade (value : RequestUpgrade) : Preencoder Unit := do
  preencodeU64 value.start
  preencodeU64 value.length

def encodeRequestUpgrade (value : RequestUpgrade) : Encoder Unit := do
  encodeU64 value.start
  encodeU64 value.length

def decodeRequestUpgrade (buf : List UInt8) : Decoder RequestUpgrade := do
  let start ← decodeU64 buf
  let length ← decodeU64 buf
  pure { start, length }

def preencodeDataBlock (value : DataBlock) : Preencoder Unit := do
  preencodeU64 value.index
  preencodeBytes value.value
  preencodeNodes value.nodes

def encodeDataBlock (value : DataBlock) : Encoder Unit := do
  encodeU64 value.index
  encodeBytes value.value
  encodeNodes value.nodes

def decodeDataBlock (buf : List UInt8) : Decoder DataBlock := do
  let index ← decodeU64 buf
  let value ← decodeBytes buf
  let nodes ← decodeNodes buf
  pure { index, value, nodes }

def preencodeDataHash (value : DataHash) : Preencoder Unit := do
  preencodeU64 value.index
  preencodeNodes value.nodes

def encodeDataHash (value : DataHash) : Encoder Unit := do
  encodeU64 value.index
  encodeNodes value.nodes

def decodeDataHash (buf : List UInt8) : Decoder DataHash := do
  let index ← decodeU64 buf
  let nodes ← decodeNodes buf
  pure { index, nodes }

def preencodeDataSeek (value : DataSeek) : Preencoder Unit := do
  preencodeU64 value.bytes
  preencodeNodes value.nodes

def encodeDataSeek (value : DataSeek) : Encoder Unit := do
  encodeU64 value.bytes
  encodeNodes value.nodes

def decodeDataSeek (buf : List UInt8) : Decoder DataSeek := do
  let bytes ← decodeU64 buf
  let nodes ← decodeNodes buf
  pure { bytes, nodes }

def preencodeDataUpgrade (value : DataUpgrade) : Preencoder Unit := do
  preencodeU64 value.start
  preencodeU64 value.length
  preencodeNodes value.nodes
  preencodeNodes value.additional_nodes
  preencodeBytes value.signature

def encodeDataUpgrade (value : DataUpgrade) : Encoder Unit := do
  encodeU64 value.start
  encodeU64 value.length
  encodeNodes value.nodes
  encodeNodes value.additional_nodes
  encodeBytes value.signature

def decodeDataUpgrade (buf : List UInt8) : Decoder DataUpgrade := do
  let start ← decodeU64 buf
  let length ← decodeU64 buf
  let nodes ← decodeNodes buf
  let additional_nodes ← decodeNodes buf
  let signature ← decodeBytes buf
  pure { start, length, nodes, additional_nodes, signature }

end GnostrCore.Encoding
