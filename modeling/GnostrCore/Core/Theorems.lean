import GnostrCore.Core.Hypercore
import GnostrCore.Storage.Theorems

namespace GnostrCore.Hypercore

open Oplog (PublicKey SecretKey)
open Storage (StorageError write read read_write_self)

section Calls

variable {σ : Type} (appendChangeset : σ → Changeset → Except StorageError (σ × List Slice))

theorem flushSlices_data (s : Storage) (slices : List Slice) :
    (s.flushSlices .oplog slices).data = s.data := by
  induction slices generalizing s with
  | nil => rfl
  | cons slice slices ih => exact ih _

theorem flushSlices_tree_bitfield (s : Storage) (slices : List Slice) :
    (s.flushSlices .oplog slices).tree = s.tree ∧ (s.flushSlices .oplog slices).bitfield = s.bitfield := by
  induction slices generalizing s with
  | nil => exact ⟨rfl, rfl⟩
  | cons slice slices ih => exact ih _

-- a core with a secret key, empty segments and an empty tree
def keyedCore : Hypercore Unit :=
  ⟨⟨⟨⟨List.replicate 32 0, by decide⟩, rfl⟩, some ⟨⟨List.replicate 32 0, by decide⟩, rfl⟩⟩,
    ⟨[], [], [], []⟩, (), ⟨0, 0⟩, ⟨⟩⟩

-- `append_batch` never assigns `self.tree`, nor `self.key_pair`.
theorem appendBatch_tree (self : Hypercore σ) (batch : List (List UInt8)) :
    (self.appendBatch appendChangeset batch).2.tree = self.tree ∧
      (self.appendBatch appendChangeset batch).2.key_pair = self.key_pair := by
  unfold appendBatch
  split
  · exact ⟨rfl, rfl⟩
  · dsimp only
    split <;> exact ⟨rfl, rfl⟩

-- With a secret key, the batch's bytes go to the data segment at the tree's byte length,
-- whether the oplog step succeeds or not.
theorem appendBatch_data (self : Hypercore σ) (batch : List (List UInt8)) (sk : SecretKey)
    (hs : self.key_pair.secret = some sk) :
    (self.appendBatch appendChangeset batch).2.storage.data =
      write self.storage.data self.tree.byte_length.toNat batch.flatten := by
  unfold appendBatch
  rw [hs]
  dsimp only
  split
  · rfl
  · exact flushSlices_data _ _

theorem appendBatches_tree (self : Hypercore σ) (batches : List (List (List UInt8))) :
    (self.appendBatches appendChangeset batches).tree = self.tree ∧
      (self.appendBatches appendChangeset batches).key_pair = self.key_pair := by
  induction batches generalizing self with
  | nil => exact ⟨rfl, rfl⟩
  | cons batch batches ih =>
    obtain ⟨ht, hk⟩ := appendBatch_tree appendChangeset self batch
    obtain ⟨ht', hk'⟩ := ih (self.appendBatch appendChangeset batch).2
    exact ⟨ht'.trans ht, hk'.trans hk⟩

-- Every call of a run writes its batch at the same offset, the byte length of the tree the
-- run started from: the tree is never updated, so no call sees the blocks of the calls before.
theorem appendBatches_same_offset (key : PublicKey) (sk : SecretKey) (storage : Storage)
    (oplog : σ) (tree : MerkleTree) (batches : List (List (List UInt8)))
    (batch : List (List UInt8)) :
    (appendBatches appendChangeset ⟨⟨key, some sk⟩, storage, oplog, tree, ⟨⟩⟩
        (batches ++ [batch])).tree = tree ∧
    read (appendBatches appendChangeset ⟨⟨key, some sk⟩, storage, oplog, tree, ⟨⟩⟩
        (batches ++ [batch])).storage.data tree.byte_length.toNat batch.flatten.length =
      .ok batch.flatten := by
  obtain ⟨ht, hk⟩ := appendBatches_tree appendChangeset ⟨⟨key, some sk⟩, storage, oplog, tree, ⟨⟩⟩ batches
  have hrun : appendBatches appendChangeset ⟨⟨key, some sk⟩, storage, oplog, tree, ⟨⟩⟩
      (batches ++ [batch]) =
      ((appendBatches appendChangeset ⟨⟨key, some sk⟩, storage, oplog, tree, ⟨⟩⟩ batches).appendBatch
        appendChangeset batch).2 := List.foldl_append ..
  rw [hrun]
  refine ⟨(appendBatch_tree appendChangeset _ batch).1.trans ht, ?_⟩
  rw [appendBatch_data appendChangeset _ batch sk (by rw [hk]), ht]
  exact read_write_self _ _ _

-- `append_batch` flushes the data and the oplog, never the tree nor the bitfield segment.
theorem appendBatch_segments (self : Hypercore σ) (batch : List (List UInt8)) :
    (self.appendBatch appendChangeset batch).2.storage.tree = self.storage.tree ∧
      (self.appendBatch appendChangeset batch).2.storage.bitfield = self.storage.bitfield := by
  unfold appendBatch
  split
  · exact ⟨rfl, rfl⟩
  · dsimp only
    split
    · exact ⟨rfl, rfl⟩
    · exact flushSlices_tree_bitfield _ _

-- No run of `append_batch` calls writes a node record or a bitfield byte.
theorem appendBatches_segments (self : Hypercore σ) (batches : List (List (List UInt8))) :
    (self.appendBatches appendChangeset batches).storage.tree = self.storage.tree ∧
      (self.appendBatches appendChangeset batches).storage.bitfield = self.storage.bitfield := by
  induction batches generalizing self with
  | nil => exact ⟨rfl, rfl⟩
  | cons batch batches ih =>
    obtain ⟨ht, hb⟩ := appendBatch_segments appendChangeset self batch
    obtain ⟨ht', hb'⟩ := ih (self.appendBatch appendChangeset batch).2
    exact ⟨ht'.trans ht, hb'.trans hb⟩

-- Over a storage from `Storage::new_memory`, no block of any run of appends reads back: the
-- tree keeps only its header, so `get_data` fails for every index.
theorem appendBatches_newMemory_getData (key_pair : PartialKeypair) (oplog : σ) (tree : MerkleTree)
    (create_bitfield create_tree : List UInt8) (htree : create_tree.length < 40)
    (batches : List (List (List UInt8))) (index : UInt64) :
    (appendBatches appendChangeset
        ⟨key_pair, Storage.newMemory create_bitfield create_tree, oplog, tree, ⟨⟩⟩ batches).storage.getData
      index = .error .backend := by
  refine Storage.getData_of_short_tree ?_ index
  rw [(appendBatches_segments appendChangeset _ batches).1]
  exact (Storage.newMemory_tree create_bitfield create_tree).symm ▸ htree

theorem appendBatches_newMemory_getData_two_calls :
    (List.replicate 32 (0 : UInt8)).length < 40 ∧
      (appendBatches (fun oplog _ => .ok (oplog, []))
          ⟨keyedCore.key_pair, Storage.newMemory [] (List.replicate 32 0), (), ⟨0, 0⟩, ⟨⟩⟩
          [[[1, 2]], [[3]]]).storage.getData 0 = .error .backend :=
  ⟨by simp, appendBatches_newMemory_getData (fun oplog _ => .ok (oplog, [])) keyedCore.key_pair ()
    ⟨0, 0⟩ [] (List.replicate 32 0) (by simp) [[[1, 2]], [[3]]] 0⟩

end Calls

end GnostrCore.Hypercore
