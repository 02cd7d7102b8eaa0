import GnostrCore.Storage.Storage
import GnostrCore.Oplog.Header

namespace GnostrCore

open Storage (StorageError write)

-- `core.rs` takes `Storage`, `Store` and `PartialKeypair` from `storage_v10`, and the tree, the
-- block store and the oplog's `append_changeset` from modules that are not under src/.

-- the `v10` stores
inductive Store where
  | tree
  | data
  | bitfield
  | oplog
deriving DecidableEq

/-- Modelled from the spec: a slice is bytes to flush and the offset they go to. -/
structure Slice where
  index : UInt64
  data : List UInt8

namespace Storage

/-- Modelled from the spec: the four segments of `storage_v10` are those of the `v10` storage,
and `flush_slice(store, slice)` writes the slice's bytes at its offset of that store's segment. -/
def flushSlice (s : Storage) (store : Store) (slice : Slice) : Storage :=
  match store with
  | .tree => { s with tree := write s.tree slice.index.toNat slice.data }
  | .data => { s with data := write s.data slice.index.toNat slice.data }
  | .bitfield => { s with bitfield := write s.bitfield slice.index.toNat slice.data }
  | .oplog => { s with oplog := write s.oplog slice.index.toNat slice.data }

/-- Modelled from the spec: `flush_slices(store, slices)` flushes the slices in order. -/
def flushSlices (s : Storage) (store : Store) (slices : List Slice) : Storage :=
  slices.foldl (fun s slice => s.flushSlice store slice) s

end Storage

/-- Modelled from the spec: the committed tree state as far as `append_batch` reads it, the
number of blocks and of their bytes. -/
structure MerkleTree where
  length : UInt64
  byte_length : UInt64
deriving DecidableEq

/-- Modelled from the spec: a changeset keeps the committed length it starts from
(`ancestors`), the length and byte length it has reached, and the flat index and byte length
of each leaf it emits. Hashes, the fold of the roots and the signature are not modelled. -/
structure Changeset where
  ancestors : UInt64
  length : UInt64
  byte_length : UInt64
  leaves : List (UInt64 × UInt64)
deriving DecidableEq

/-- Modelled from the spec: `changeset()` is seeded with the committed state. -/
def MerkleTree.changeset (tree : MerkleTree) : Changeset :=
  { ancestors := tree.length, length := tree.length, byte_length := tree.byte_length, leaves := [] }

/-- Modelled from the spec: `append(data)` emits the leaf of block `length`, at flat index
`2 * length`, counts the block and its bytes, and returns the number of bytes. -/
def Changeset.append (changeset : Changeset) (data : List UInt8) : Changeset × Nat :=
  ({ changeset with
      length := changeset.length + 1
      byte_length := changeset.byte_length + UInt64.ofNat data.length
      leaves := changeset.leaves ++ [(2 * changeset.length, UInt64.ofNat data.length)] },
    data.length)

/-- Modelled from the spec: the block store has no state, as `BlockStore::default()` makes it. -/
structure BlockStore

/-- Modelled from the spec: `append_batch(batch, batch_length, byte_length)` is the slice of the
batch's bytes, one after the other, at offset `byte_length`. -/
def BlockStore.appendBatch (_self : BlockStore) (batch : List (List UInt8)) (_batch_length : Nat)
    (byte_length : UInt64) : Slice :=
  { index := byte_length, data := batch.flatten }

-- The oplog is any state `σ`: its `append_changeset` is a parameter of `append_batch`.
structure Hypercore (σ : Type) where
  key_pair : PartialKeypair
  storage : Storage
  oplog : σ
  tree : MerkleTree
  block_store : BlockStore

structure AppendOutcome where
  length : UInt64
  byte_length : UInt64
deriving DecidableEq

namespace Hypercore

variable {σ : Type}

-- `for data in batch.iter() { batch_length += changeset.append(data); }`
def appendAll (changeset : Changeset) (batch_length : Nat) :
    List (List UInt8) → Changeset × Nat
  | [] => (changeset, batch_length)
  | data :: batch => appendAll (changeset.append data).1 (batch_length + (changeset.append data).2) batch

/-- Modelled from the spec: `self.oplog.append_changeset(&changeset, false)` is the parameter
`appendChangeset`, which gives the next oplog and the slices to flush to the oplog segment, or an
error. The call's result comes with the state it leaves: the data is flushed before the oplog
step, so an error there keeps the flushed data. -/
def appendBatch (appendChangeset : σ → Changeset → Except StorageError (σ × List Slice))
    (self : Hypercore σ) (batch : List (List UInt8)) : Except StorageError AppendOutcome × Hypercore σ :=
  match self.key_pair.secret with
  | none => (throw (.message "No secret key, cannot append."), self)
  | some _ =>
    let changeset := (appendAll self.tree.changeset 0 batch).1
    let batch_length := (appendAll self.tree.changeset 0 batch).2
    let slice := self.block_store.appendBatch batch batch_length self.tree.byte_length
    let self := { self with storage := self.storage.flushSlice .data slice }
    match appendChangeset self.oplog changeset with
    | .error e => (throw e, self)
    | .ok (oplog, slices) =>
      (pure { length := 0, byte_length := 0 },
        { self with oplog, storage := self.storage.flushSlices .oplog slices })

-- a run of `append_batch` calls, each on the state the one before left
def appendBatches (appendChangeset : σ → Changeset → Except StorageError (σ × List Slice))
    (self : Hypercore σ) (batches : List (List (List UInt8))) : Hypercore σ :=
  batches.foldl (fun self batch => (self.appendBatch appendChangeset batch).2) self

end Hypercore

end GnostrCore
